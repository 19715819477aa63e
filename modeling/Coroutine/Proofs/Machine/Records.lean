import Mathlib
import Coroutine.Proofs.Interpreter.Privacy
import Coroutine.Proofs.Machine.Safety
import Coroutine.Proofs.Program.Dispatch

/-!
# What steps do to records

The record of a region is written where the region is about to be entered and where it is left, by
the machine itself. Nothing else assigns it: not the expressions of a program and the closures that
they make, nor the labels that they jump to, nor the instructions of other regions. `Exec.Spares v K x`
says that a part `x` of a run keeps the variables `K` of a machine's scope, and that the closures of
the world keep to the rules. So does a step whose instruction does not assign one of them, unless it
leaves a region whose record they are: `stepAt_spares`.
-/

namespace Coroutine

open Assembly

/-! ## What instructions assign -/

/-- The records of a program's regions, in the scope of a machine. -/
def Program.reserve (p : Program) (k : Nat) : Reserve := ⟨k, p.Holds⟩

/-- The expressions of a tidy state assign nothing that is kept for records. -/
theorem Graph.StateTidy.obeys {g : Graph} {n : Nat} {x : State} (h : g.StateTidy n x) :
    ∀ e ∈ x.exprs, e.Obeys (g.rules n) := by
  intro e he
  rcases List.mem_append.1 he with he | he
  · rcases List.mem_append.1 he with he | he
    · exact h.expressions e he
    · obtain ⟨⟨y, e'⟩, hye, rfl⟩ := List.mem_map.1 he
      exact (h.result y e' (by simpa using hye)).2
  · cases ht : x.transition with
    | none =>
      rw [ht] at he
      cases he
    | some t =>
      rw [ht] at he
      exact (h.transition t ht).obeys e he

namespace Assembly.Image

variable {im : Image} {n q r s k : Nat} {t : RegionEntry} {i : Instr}

/-- The instruction before a region that resets its record. -/
def reset (im : Image) (t : RegionEntry) : Instr :=
  .assign t.tryState (im.expr (.constant (.int (Int64.ofInt notLeft))))

/-- The instructions of a state assign nothing that is kept for records, but for the one that resets
the record of the region that the state enters. -/
theorem written_of_mem_stateCode (htidy : im.graph.StateTidy n (im.graph.state s))
    {next : Option Nat} (hi : i ∈ im.stateCode next s) {x : Var} (hx : x ∈ i.written) :
    im.graph.Assignable n x.id ∨ ∃ t, (im.graph.state s).transition = some (.tryCatch t) ∧
      i = im.reset t ∧ x = t.tryState := by
  cases emits_of_mem hi with
  | label | eval => cases hx
  | result h =>
    rw [List.mem_singleton.1 hx]
    exact .inl (htidy.result _ _ h).1
  | own ht h =>
    have hwritten := (htidy.transition _ ht).written
    cases h with
    | reset t => exact .inr ⟨t, ht, rfl, List.mem_singleton.1 hx⟩
    | getAwaiter | getResult => exact .inl (hwritten x hx)
    | _ => cases hx

section

variable (hg : im.graph.Regular n) (hnarrow : im.graph.Narrow n) (him : im.Faithful)
include hg hnarrow him

theorem rules_within_reserve (k : Nat) :
    (im.graph.rules n).Within (im.program.reserve k).rules :=
  ⟨fun _ hi => not_holds_of_assignable hg hnarrow him hi, id, id⟩

/-- The code of a program's expressions assigns no record. -/
theorem obeys_of_mem_instrs (hq : im.Entered q) (hi : i ∈ (im.block q).instrs.toList) (k : Nat)
    {e : CompiledExpr} (he : e ∈ i.exprs) : e.code.Obeys (im.program.reserve k).rules := by
  have hrenders := him.renders q hq.mem
  obtain ⟨s, hs, next, hcode⟩ := hrenders.mem_instrs hi
  obtain ⟨e₀, rfl, he₀⟩ := exprs_of_mem_stateCode hcode he
  obtain ⟨⟨c, hc⟩, hobeys⟩ : Builds im.resolve e₀ ∧ e₀.Obeys (im.graph.rules n) := by
    rcases he₀ with he₀ | ⟨v, rfl⟩
    · exact ⟨(hrenders.states s hs).builds e₀ he₀, (hnarrow.states s (hq.live hg hs)).obeys e₀ he₀⟩
    · exact ⟨builds_constant _ v, trivial⟩
  have hcode : (im.expr e₀).code = c := by
    rw [expr, compiled, hc]
    rfl
  rw [hcode]
  exact Code.build_obeys (hobeys.mono (rules_within_reserve hg hnarrow him k)) hc

/-- A jump of an expression leaves its value in a variable that holds no record. -/
theorem not_holds_label {label : Nat} {slot : LabelSlot}
    (h : im.program.labels.lookup label = some slot) {x : Var} (hx : x ∈ slot.var) :
    ¬im.program.Holds x.word := by
  obtain ⟨⟨l, b⟩, hb, heq⟩ := List.mem_map.1 (mem_of_lookup h)
  cases heq
  exact not_holds_of_assignable hg hnarrow him (hnarrow.labels label b (List.mem_filter.1 hb).1 x hx)

/-- What an instruction assigns holds no record, or is reset by it. -/
theorem written_of_mem_instrs (hq : im.Entered q) (hi : i ∈ (im.block q).instrs.toList) {x : Var}
    (hx : x ∈ i.written) : ¬im.program.Holds x.word ∨
      ∃ s t, im.Surrounds q t.region s t ∧ i = im.reset t ∧ x = t.tryState := by
  obtain ⟨s, hs, next, hcode⟩ := (him.renders q hq.mem).mem_instrs hi
  rcases written_of_mem_stateCode (hnarrow.states s (hq.live hg hs)) hcode hx with
    hassign | ⟨t, ht, hi, hx⟩
  · exact .inl (not_holds_of_assignable hg hnarrow him hassign)
  · exact .inr ⟨s, t, (hq.surrounds hg him hs ht).1, hi, hx⟩

/-- Behind the instruction that resets a record is the label to enter the region. -/
theorem label_after_reset (hq : im.Entered q) (hsur : im.Surrounds q r s t) {pc : Nat}
    (hi : (im.block q).instrs[pc]? = some (im.reset t)) :
    (im.block q).instrs[pc + 1]? = some (.label (.reentry s)) := by
  have hnodup := hg.nodup_regionNodes hq.lt hq.isRegion
  have hrecord : ¬im.graph.Assignable n t.tryState.id :=
    hg.not_assignable hnarrow hsur.live hsur.transition (.inl rfl)
  -- no other state resets the record: records are assigned nowhere else
  have hown : ∀ s' ∈ im.graph.regionNodes q, ∀ next, im.reset t ∈ im.stateCode next s' →
      s' = s := by
    intro s' hs' next hcode
    have hlive := hq.live hg hs'
    rcases written_of_mem_stateCode (hnarrow.states s' hlive) hcode List.mem_cons_self with
      hassign | ⟨t', ht', -, hvar⟩
    · exact absurd hassign hrecord
    · exact hg.owner_unique hnarrow hlive ht' hsur.live hsur.transition (i := t.tryState.word)
        (.inl (congrArg Var.word hvar)) (.inl rfl)
  have hbody : im.reset t ∉ .label (.state s) :: im.bodyCode (im.graph.state s) := by
    intro hmem
    rcases List.mem_cons.1 hmem with heq | hmem
    · cases heq
    · rcases mem_bodyCode hmem with ⟨_, -, heq⟩ | ⟨y, e, hye, heq⟩
      · cases heq
      · obtain ⟨rfl, -⟩ := Instr.assign.inj heq
        exact hrecord ((hnarrow.states s hsur.live).result _ _ hye).1
  have hafter : ∀ next, im.reset t ∉ im.afterRegion next t := by
    intro next hmem
    rcases mem_afterRegion hmem with ⟨_, heq⟩ | ⟨_, heq⟩ <;> cases heq
  -- so the place is the entry of the region
  obtain ⟨k, j, hj, rfl, hpos⟩ := (him.renders q hq.mem).position_entry hnodup hsur.mem
    hsur.transition hi hown hbody hafter
  rw [reset] at hj
  match j, hj with
  | 0, _ => exact Block.getElem?_of_position? hpos
  | 1, hj | 2, hj => cases hj

end

end Assembly.Image

/-! ## Parts of a run -/

section

variable {σ α β : Type}

/-- A part of a run keeps some variables of the scope in which a machine runs, and the closures of the
world keep to the rules. Its result has a property. -/
def Exec.Spares (v : Reserve) (K : Nat → Prop) (x : Exec σ α) (s : Durable × World σ)
    (P : α → Prop) : Prop :=
  s.1.scopes = [v.scope] → s.2.Minds v → Exec.Ensures x s fun r s' =>
    s'.1.scopes = [v.scope] ∧ s'.2.Minds v ∧
      (∀ j, K j → (s'.2.scope v.scope).get? j = (s.2.scope v.scope).get? j) ∧
      ∀ a, r = .ok a → P a

namespace Exec.Spares

variable {v : Reserve} {K : Nat → Prop} {s : Durable × World σ} {P : α → Prop}

/-- The second part goes on in the state that the first one leaves, also if it is not run after it. -/
theorem trans {x : Exec σ α} {y : Exec σ β} {Q : β → Prop} (h : Exec.Spares v K x s P)
    (hd : s.1.scopes = [v.scope]) (hw : s.2.Minds v) {r : Except RunError α}
    {s' : Durable × World σ} (hrun : x s = some (r, s')) (hy : Exec.Spares v K y s' Q) :
    Exec.Ensures y s' fun r' s'' => s''.1.scopes = [v.scope] ∧ s''.2.Minds v ∧
      (∀ j, K j → (s''.2.scope v.scope).get? j = (s.2.scope v.scope).get? j) ∧
      ∀ a, r' = .ok a → Q a := by
  obtain ⟨hd', hw', hkept, -⟩ := h hd hw r s' hrun
  refine (hy hd' hw').mono ?_
  rintro r' s'' ⟨hd'', hw'', hkept', hQ⟩
  exact ⟨hd'', hw'', fun j hj => (hkept' j hj).trans (hkept j hj), hQ⟩

theorem bind {x : Exec σ α} {f : α → Exec σ β} {Q : β → Prop} (hx : Exec.Spares v K x s P)
    (hf : ∀ a s', P a → Exec.Spares v K (f a) s' Q) : Exec.Spares v K (x >>= f) s Q := by
  intro hd hw
  refine .bind fun r s' hrun => ?_
  obtain ⟨hd', hw', hkept, hP⟩ := hx hd hw r s' hrun
  cases r with
  | error e => exact ⟨hd', hw', hkept, nofun⟩
  | ok a => exact hx.trans hd hw hrun (hf a s' (hP a rfl))

/-- Writing a variable keeps all others. -/
theorem write {x : Var} (hx : ¬K x.word) (a : Value) :
    Exec.Spares v K (CompiledMachine.write x a : Exec σ Unit) s fun _ => True := by
  intro hd hw
  have hassign : (s.2.assign s.1.scopes x.word a).2.Minds v ∧ ∀ j, K j →
      ((s.2.assign s.1.scopes x.word a).2.scope v.scope).get? j = (s.2.scope v.scope).get? j := by
    refine ⟨hw.assign _ _ _, fun j hj => s.2.get?_assign (fun _ => ?_) a⟩
    rintro rfl
    exact hx hj
  refine .write (fun w' h => ?_) fun w' h => ?_
  all_goals
    rw [h] at hassign
    exact ⟨hd, hassign.1, hassign.2, fun _ _ => trivial⟩

theorem perform (hK : ∀ j, K j → v.held j) {e : Effect σ α} (he : e.Spares v) :
    Exec.Spares v K (CompiledMachine.perform e) s fun _ => True := by
  intro hd hw
  have hs := he s.2 hw
  refine .perform (fun a w' h => ?_) fun x w' h => ?_
  all_goals
    rw [Effect.perform, h] at hs
    exact ⟨hd, hs.minds, fun j hj => hs.kept j (hK j hj), fun _ _ => trivial⟩

end Exec.Spares

end

/-! ## Steps -/

namespace CompiledMachine

variable {σ : Type} {env : Env σ} {fuel : Nat} {m : CompiledMachine} {v : Reserve} {K : Nat → Prop}
  {s : Durable × World σ}

/-- Where jumps out of expressions leave their value is not set apart. -/
def LabelsSpare (m : CompiledMachine) (v : Reserve) : Prop :=
  ∀ label slot, m.program.labels.lookup label = some slot → ∀ x ∈ slot.var, ¬v.held x.word

/-- The parts of a run keep what is set apart, but for what instructions assign themselves. -/
def sparing (henv : env.Discreet v) (hK : ∀ j, K j → v.held j) (hm : m.LabelsSpare v) :
    Exec.Logic env fuel m where
  Runs pre x s P := pre → Exec.Spares v K x s P
  expr e := e.code.Obeys v.rules
  writes x := ¬K x.word
  writes_escape _ _ hslot x hx hj := hm _ _ hslot x hx (hK _ hj)
  ret h hpre hd hw := .pure ⟨hd, hw, fun _ _ => rfl, fun a ha => by cases ha; exact h hpre⟩
  fail _ _ hd hw := .throw ⟨hd, hw, fun _ _ => rfl, nofun⟩
  bind h hf hpre := (h hpre).bind fun a s' ha => hf a s' ⟨hpre, ha⟩
  evaluate {pre s e χ} he _ hpre hd hw r s' h := by
    obtain ⟨⟨r', w'⟩, heval, heq⟩ := Option.map_eq_some_iff.1 h
    cases heq
    have hs : s.2.Spares v w' := evaluate_spares henv hw (fun _ => he hpre) heval
    refine ⟨hd, hs.minds, fun j hj => hs.kept j (hK j hj), fun a _ => ?_⟩
    cases a <;> trivial
  read _ _ hd hw := .read (fun _ _ => ⟨hd, hw, fun _ _ => rfl, fun _ _ => trivial⟩) fun _ =>
    ⟨hd, hw, fun _ _ => rfl, nofun⟩
  write hx hpre := .write (hx hpre) _
  durably _ hd hw := .durably ⟨hd, hw, fun _ _ => rfl, fun _ _ => trivial⟩
  update hf _ hd hw := .modifyDurable ⟨hf.scopes.trans hd, hw, fun _ _ => rfl, fun _ _ => trivial⟩
  asException a _ := .perform hK fun w hw => hw.asException a
  getAwaiter b a configure _ := .perform hK ((henv.protocol b).getAwaiter a configure)
  isCompleted b a _ := .perform hK ((henv.protocol b).isCompleted a)
  getResult b a _ := .perform hK ((henv.protocol b).getResult a)

/-- The records of some regions are none of the variables. -/
def Apart (K : Nat → Prop) (enc : List Enclosing) : Prop :=
  ∀ e ∈ enc, ¬K e.region.tryState.word ∧ ¬K e.region.exception.word

section

variable (henv : env.Discreet v) (hK : ∀ j, K j → v.held j) (hm : m.LabelsSpare v)
include henv hK hm

/-- An instruction keeps what it does not assign itself. -/
theorem exec_spares {i : Instr} (hexprs : ∀ e ∈ i.exprs, e.code.Obeys v.rules)
    (hi : ∀ x ∈ i.written, ¬K x.word) :
    Exec.Spares v K (m.exec env fuel i) s (i.Leads fun _ => True) :=
  (sparing henv hK hm).exec (fun _ => hexprs) (fun _ _ => trivial) hi (fun _ _ => trivial)
    (fun _ _ => trivial) trivial

theorem catchIn_spares (fuel : Nat) (x : Exception) {enc : List Enclosing} (henc : Apart K enc) :
    Exec.Spares v K (catchIn x enc) s (LandsIn enc) :=
  (sparing henv hK hm : Exec.Logic env fuel m).catchIn x henc trivial

theorem proceed_spares (fuel : Nat) {p : Position} (henc : Apart K p.enclosing) (next : Next) :
    Exec.Spares v K (proceed p next) s fun r => ∀ q, r = .inl q → p.Goes next q :=
  (sparing henv hK hm : Exec.Logic env fuel m).proceed next (fun e he => (henc e he).1) trivial
    (fun _ => trivial) trivial

/-- A step keeps what its instruction does not assign, unless it belongs to the records of the regions
around. -/
theorem stepAt_spares {i : Instr} (hexprs : ∀ e ∈ i.exprs, e.code.Obeys v.rules)
    (hi : ∀ x ∈ i.written, ¬K x.word) {p : Position} (henc : Apart K p.enclosing) :
    Exec.Spares v K (m.stepAt env fuel p i) s fun _ => True := by
  intro hd hw
  have hexec : Exec.Spares v K (m.exec env fuel i) s _ := exec_spares henv hK hm hexprs hi
  refine stepAt_ensures env fuel m (fun next s' hrun => ?_) (fun x s' hrun => ?_) fun e s' hrun => ?_
  · refine (hexec.trans hd hw hrun (proceed_spares henv hK hm fuel henc next)).mono ?_
    exact fun r s'' ⟨hd', hw', hkept, _⟩ => ⟨hd', hw', hkept, fun _ _ => trivial⟩
  · refine (hexec.trans hd hw hrun (catchIn_spares henv hK hm fuel x henc)).mono ?_
    exact fun r s'' ⟨hd', hw', hkept, _⟩ => ⟨hd', hw', hkept, fun _ _ => trivial⟩
  · obtain ⟨hd', hw', hkept, -⟩ := hexec hd hw _ _ hrun
    exact ⟨hd', hw', hkept, nofun⟩

end

end CompiledMachine

end Coroutine
