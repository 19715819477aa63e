import Mathlib
import Coroutine.Proofs.Machine.Moves

/-!
# Jumps and exceptions go through every cleanup

A region that is left by a jump or an exception records how, and control goes on behind it. If the
region has a cleanup, it starts there; at its end, or right away, an instruction goes on as the record
says. A run that comes to this instruction without entering the region anew finds the record as it was
made (`Awaits.move`). So a jump goes on towards its target, through the cleanups of all regions that it
leaves, from the inside out (`CompiledMachine.Delivers`), and what no handler of a region accepts is
thrown again behind its cleanup, the same exception (`CompiledMachine.Rethrows`).
-/

namespace Coroutine

open Assembly

variable {σ : Type} {pc fuel : Nat} {exception : Var} {cases : List (Int × Target)}
  {fallback target : Target} {env : Env σ} {s' : Durable × World σ}

/-! ## Deliveries -/

/-- The first state of the cleanup of the region that a state enters. -/
def Graph.cleanup? (g : Graph) (s : Nat) : Option Nat :=
  match (g.state s).transition with
  | some (.tryCatch t) => t.cleanup
  | _ => none

/-- A machine is at an instruction that goes on as a region was left. -/
def Point.Decides (a : Point σ) (r : TryRegion) : Prop :=
  ∃ exception cases rethrows fallback,
    a.instr? = some (.dispatch r.tryState exception cases rethrows fallback)

/-- A machine is where the cleanup of a region starts. For want of a cleanup, it goes on as the region
was left. -/
def Point.CleansUp (a : Point σ) (g : Graph) (r : TryRegion) : Prop :=
  match g.cleanup? r.owner with
  | none => a.Decides r
  | some s => a.instr? = some (.label (.state s)) ∨
      a.instr? = some (.goto (.state s)) ∧ (a.position.block.position? (.state s)).isSome = true

namespace CompiledMachine

/-- A run that does not enter a region. -/
def Passes (m : CompiledMachine) (r : TryRegion) : Point σ → Point σ → Prop :=
  Relation.ReflTransGen fun a b => ∃ i, m.Moves a i b ∧ i ≠ .region r

/-- The instruction that a machine has come to has an outcome and changes nothing, whatever the
host. -/
def Answers (m : CompiledMachine) (a : Point σ) (r : Except RunError Next) : Prop :=
  ∃ i, a.instr? = some i ∧ ∀ (env : Env σ) (fuel : Nat),
    m.exec env fuel i (a.durable, a.world) = some (r, (a.durable, a.world))

/-- A machine goes on behind a region, from `b`: first with the cleanup of the region, if there is one.
Whenever that ends, it has an outcome in the block around the region, from where things go on. -/
def GoesThrough (m : CompiledMachine) (g : Graph) (e : Enclosing) (rest : List Enclosing)
    (b : Point σ) (r : Except RunError Next) (on : Point σ → Prop) : Prop :=
  b.position = ⟨e.block, e.pc + 1, rest⟩ ∧ b.CleansUp g e.region ∧
    ∀ c, m.Passes e.region b c → c.Decides e.region →
      c.position.block = e.block ∧ c.position.enclosing = rest ∧ m.Answers c r ∧ on c

/-- A jump out of a block, with the blocks around it, gets to its target: the region directly around
knows the target and goes on with the jump behind its cleanup. Then the target is in the block around
the region, or the jump leaves this block in turn. -/
def Delivers (m : CompiledMachine) (g : Graph) (t : Target) :
    List Enclosing → Durable × World σ → Prop
  | [], _ => False
  | e :: rest, s => (∃! x, x ∈ e.region.exits ∧ x.target = t) ∧ ∃ b : Point σ,
      leaveTo t (e :: rest) s = some (.ok b.position, (b.durable, b.world)) ∧
      m.GoesThrough g e rest b (.ok (.jump t)) fun c =>
        match e.block.position? t with
        | some pc => ∀ env, ∃ i, Executes env m c i ⟨⟨e.block, pc, rest⟩, c.durable, c.world⟩
        | none => Delivers m g t rest (c.durable, c.world)

/-- An exception that no handler of the region directly around a block accepts goes on to the next one
around, and if the region has a cleanup, it is thrown again behind that. -/
def Rethrows (m : CompiledMachine) (g : Graph) (x : Exception) :
    List Enclosing → Durable × World σ → Prop
  | [], s => (catchIn x [] : Exec σ Position) s = some (.error (.thrown x), s)
  | e :: rest, s => (∀ h ∈ e.region.handlers, h.1.accepts x.toFault = false) →
      match g.cleanup? e.region.owner with
      | none => catchIn x (e :: rest) s = catchIn x rest s ∧ Rethrows m g x rest s
      | some _ => ∃ b : Point σ,
          catchIn x (e :: rest) s = some (.ok b.position, (b.durable, b.world)) ∧
          m.GoesThrough g e rest b (.error (.thrown x)) fun c =>
            Rethrows m g x rest (c.durable, c.world)

end CompiledMachine

/-! ## Behind a region -/

namespace Assembly.Image

variable {im : Image} {n q r s : Nat} {t : RegionEntry}

/-- The region is run right behind the label to enter it again. -/
theorem region_after_label (hg : im.graph.Regular n) (him : im.Faithful) (hq : im.Entered q)
    (ht : (im.graph.state s).transition = some (.tryCatch t))
    (hi : (im.block q).instrs[pc]? = some (.label (.reentry s))) :
    (im.block q).instrs[pc + 1]? = some (.region (im.tryRegion s t)) := by
  have hrenders := him.renders q hq.mem
  -- no other state has this label
  have hown : ∀ s' ∈ im.graph.regionNodes q, ∀ next,
      .label (.reentry s) ∈ im.stateCode next s' → s' = s := by
    intro s' _ next hcode
    rcases label_mem_stateCode hcode with heq | ⟨heq, -⟩
    · cases heq
    · exact (Target.reentry.inj heq).symm
  obtain ⟨s', hs, next, hcode⟩ := hrenders.mem_instrs (Block.mem_of_getElem? hi)
  obtain rfl := hown s' hs next hcode
  have hafter : ∀ next, .label (.reentry s') ∉ im.afterRegion next t := by
    intro next hmem
    rcases mem_afterRegion hmem with ⟨_, heq⟩ | ⟨_, heq⟩ <;> cases heq
  -- so the place is the entry of the region
  obtain ⟨k, j, hj, rfl, hpos⟩ := hrenders.position_entry
    (hg.nodup_regionNodes hq.lt hq.isRegion) hs ht hi hown (reentry_notMem_body s' _) hafter
  obtain ⟨pc, post, hpos', hrest⟩ := hrenders.position_reentry hs ht
  obtain rfl : k + 1 = pc := Option.some.inj (hpos.symm.trans hpos')
  match j, hj with
  | 1, _ =>
    rw [Block.getElem?_instrs, Block.after_succ hrest]
    rfl
  | 2, hj => cases hj

/-- What stands behind a region. -/
theorem Surrounds.after (hg : im.graph.Regular n) (him : im.Faithful) (hq : im.Entered q)
    (hsur : im.Surrounds q r s t)
    (hi : (im.block q).instrs[pc]? = some (.region (im.tryRegion s t))) :
    ∃ post,
      (im.block q).after (pc + 1) = im.afterRegion post.head? t ++ im.statesCode post := by
  have hrenders := him.renders q hq.mem
  obtain ⟨pc₁, hpc, hpos₁⟩ := hrenders.position_region (hg.nodup_regionNodes hq.lt hq.isRegion) hi
  obtain ⟨pc₂, post, hpos₂, hafter⟩ := hrenders.position_reentry hsur.mem hsur.transition
  obtain rfl : pc₁ = pc₂ := Option.some.inj (hpos₁.symm.trans hpos₂)
  refine ⟨post, ?_⟩
  rw [hpc, Block.after_succ (Block.after_succ hafter)]

/-- Behind a region its cleanup starts. -/
theorem Surrounds.cleansUp (hg : im.graph.Regular n) (him : im.Faithful) (hq : im.Entered q)
    (hsur : im.Surrounds q r s t)
    (hi : (im.block q).instrs[pc]? = some (.region (im.tryRegion s t))) {b : Point σ}
    (hblock : b.position.block = im.block q) (hpc : b.position.pc = pc + 1) :
    b.CleansUp im.graph (im.tryRegion s t) := by
  obtain ⟨post, hafter⟩ := hsur.after hg him hq hi
  have hinstr : b.instr? = (im.afterRegion post.head? t ++ im.statesCode post).head? := by
    rw [Point.instr?, hblock, hpc, Block.getElem?_instrs, hafter]
  have hcleanup : im.graph.cleanup? (im.tryRegion s t).owner = t.cleanup := by
    rw [Graph.cleanup?, tryRegion, hsur.transition]
  rw [Point.CleansUp, hcleanup]
  cases hhead : t.cleanup with
  | none =>
    rw [afterRegion, hhead] at hinstr
    exact ⟨_, _, _, _, hinstr⟩
  | some head =>
    simp only [afterRegion, hhead, jump] at hinstr
    -- the cleanup lies in the region around, so its label is in the same block
    have hentry : im.graph.EntrySound n s t := (hg.sound s hsur.live).transition _ hsur.transition
    obtain ⟨t', ht', hrefs⟩ := hg.leads s hsur.live
    obtain rfl := Option.some.inj (hsur.transition.symm.trans ht')
    have hlive : im.graph.isLive head = true := hrefs head (by simp [Transition.references, hhead])
    have hregion : (im.graph.state head).region = q :=
      (hentry.cleanup head hhead).2.trans ((hg.mem_regionNodes hq.lt hq.isRegion).1 hsur.mem).2
    obtain ⟨pos, -, -, -, hpos, -⟩ := (him.renders q hq.mem).position_state
      ((hg.mem_regionNodes hq.lt hq.isRegion).2 ⟨hlive, hregion⟩)
    split at hinstr
    · -- the jump is left out, since the cleanup comes next
      rename_i helide
      obtain ⟨-, hnext⟩ := Bool.and_eq_true_iff.1 helide
      cases post with
      | nil => cases hnext
      | cons s' post =>
        obtain rfl : s' = head := by simpa using hnext
        exact .inl hinstr
    · refine .inr ⟨hinstr, ?_⟩
      rw [hblock, hpos]
      rfl

/-- A region does not surround itself. -/
theorem Nested.outside (hg : im.graph.Regular n) (him : im.Faithful) {e : Enclosing}
    {rest : List Enclosing} (h : im.Nested r (e :: rest)) (hr : r ∈ im.regions) :
    ∀ e' ∈ rest, e'.region ≠ e.region := by
  intro e' he' heq
  obtain ⟨pre, post, rfl⟩ := List.append_of_mem he'
  obtain ⟨q, s, t, -, -, ht, hregion, hregion', -⟩ := id h
  -- the blocks around the region inside are those around the region itself
  have hsplit : im.Nested r ((e :: pre) ++ e' :: post) := h
  obtain ⟨o, -, -, hinner⟩ := hsplit.inner hg hr
  obtain ⟨q', s', t', -, -, ht', hinner', hinner'', -⟩ := id hinner
  have hs : s = s' := congrArg TryRegion.owner ((hregion'.symm.trans heq.symm).trans hinner'')
  rw [hs, ht'] at ht
  cases ht
  obtain rfl : r = o := hregion.symm.trans hinner'
  have hlength := congrArg List.length (h.unique hg him hinner)
  simp only [List.length_cons, List.length_append] at hlength
  omega

end Assembly.Image

/-! ## Writing and reading records -/

namespace World

variable {w w' : World σ} {k i : Nat} {x : Var}

theorem lookup_singleton (w : World σ) (k i : Nat) : w.lookup [k] i = (w.scope k).get? i := by
  rw [lookup, List.findSome?_cons, List.findSome?_nil]
  cases (w.scope k).get? i <;> rfl

/-- What is not bound cannot be assigned. -/
theorem eq_of_assign_false {χ : Chain} {a : Value} (h : w.assign χ i a = (false, w')) : w' = w := by
  unfold assign at h
  split at h
  · cases h
  · exact (Prod.mk.inj h).2.symm

/-- A bound variable has the value that it was assigned. -/
theorem get?_assign_self {s : Setting} (hw : w.Binds [k] s) (hx : s.bound x.id) (a : Value) :
    ((w.assign [k] x.word a).2.scope k).get? x.word = some a := by
  obtain ⟨l, hl, hcontains : (w.scope l).contains x.word = true⟩ := hw x.id hx
  obtain rfl : l = k := List.mem_singleton.1 hl
  have hholder : w.holder? [l] x.word = some l := by
    rw [holder?, List.find?_cons, hcontains]
  obtain ⟨a', ha'⟩ := Option.isSome_iff_exists.1 hcontains
  simp only [assign, hholder]
  rw [scope_modifyScope w l _ _ rfl, if_pos rfl, Scope.get?_set, if_pos rfl, ha']
  rfl

end World

namespace CompiledMachine

variable {m : CompiledMachine} {im : Image} {n k q r s : Nat} {t : RegionEntry} {a b : Point σ}
  {i : Instr} {d : Durable} {w : World σ}

/-- A declared variable can be written, and nothing else changes. -/
theorem Intact.write (h : Intact im n k d w) {x : Var} (hx : im.graph.Declares x.id) (v : Value) :
    ∃ w', (write x v : Exec σ Unit) (d, w) = some (.ok (), (d, w')) ∧ Intact im n k d w' ∧
      (w'.scope k).get? x.word = some v ∧
      ∀ j, j ≠ x.word → (w'.scope k).get? j = (w.scope k).get? j := by
  have htrue : (w.assign [k] x.word v).1 = true := World.assign_fst h.binds hx v
  refine ⟨(w.assign [k] x.word v).2, ?_, ?_, World.get?_assign_self h.binds hx v, fun j hj => ?_⟩
  · rw [write_eq (by rw [h.scopes]; exact htrue), h.scopes]
  · exact h.keeps (h.sound.assign [k] x.word v) h.scopes (h.minds.assign _ _ _)
  · exact w.get?_assign (fun _ => hj) v

/-- A recorded code goes on to the target that it is listed with. -/
theorem exec_dispatch_jump (env : Env σ) (fuel : Nat) {tryState : Var} {rethrows : Bool}
    {code : Int} (hread : w.lookup d.scopes tryState.word = some (.int (Int64.ofInt code)))
    (hword : (Int64.ofInt code).toInt = code) (hcode : code ≠ unhandled)
    (hcases : cases.lookup code = some target) :
    m.exec env fuel (.dispatch tryState exception cases rethrows fallback) (d, w) =
      some (.ok (.jump target), (d, w)) := by
  have hdiff : (code == unhandled) = false := beq_eq_false_iff_ne.2 hcode
  rw [exec, Exec.bind_ok (read_eq hread)]
  simp only [Value.int?, Option.map_some, Option.getD_some, hword, hdiff, Bool.and_false,
    Bool.false_eq_true, if_false, hcases]
  rfl

/-- A recorded exception is thrown again. -/
theorem exec_dispatch_throw (env : Env σ) (fuel : Nat) {tryState : Var} {x : Exception}
    (hread : w.lookup d.scopes tryState.word = some (.int (Int64.ofInt unhandled)))
    (hstored : w.lookup d.scopes exception.word = some (.exception x)) :
    m.exec env fuel (.dispatch tryState exception cases true fallback) (d, w) =
      some (.error (.thrown x), (d, w)) := by
  have hword : (Int64.ofInt unhandled).toInt = unhandled := by decide
  rw [exec, Exec.bind_ok (read_eq hread)]
  simp only [Value.int?, Option.map_some, Option.getD_some, hword, beq_self_eq_true, Bool.and_true,
    if_true]
  rw [Exec.bind_ok (read_eq hstored)]
  rfl

/-- A jump to a label of the block goes there. -/
theorem stepAt_jump {p : Position} {s : Durable × World σ}
    (hexec : m.exec env fuel i s = some (.ok (.jump target), s'))
    (hpos : p.block.position? target = some pc) :
    m.stepAt env fuel p i s = some (.ok (.inl { p with pc }), s') := by
  rw [stepAt, hexec]
  simp only [proceed, hpos]
  rfl

/-! ## Runs past a region -/

/-- The regions around after a step were around before it, or are entered by it. -/
theorem stepAt_enclosing (env : Env σ) (fuel : Nat) (m : CompiledMachine) (p : Position) (i : Instr)
    (s : Durable × World σ) : Exec.Ensures (m.stepAt env fuel p i) s fun res _ =>
      ∀ p', res = .ok (.inl p') → ∀ e ∈ p'.enclosing, e ∈ p.enclosing ∨ i = .region e.region := by
  have hlands : ∀ {p' : Position}, LandsIn p.enclosing p' → ∀ e ∈ p'.enclosing,
      e ∈ p.enclosing ∨ i = .region e.region := by
    rintro p' ⟨pre, e, rest, heq, rfl⟩ e' he'
    rw [heq]
    exact .inl (List.mem_append_right _ (List.mem_cons_of_mem _ he'))
  refine stepAt_ensures env fuel m (fun next s' hrun => ?_) (fun x s' hrun => ?_) fun e s' hrun => ?_
  · refine (proceed_goes env fuel m p next s').mono fun res _ hgoes p' hp' => ?_
    cases hgoes p' hp' with
    | within pc => exact fun e he => .inl he
    | behind h => exact hlands h
    | inside pc =>
      cases exec_follows env fuel m i _ _ _ hrun _ rfl
      intro e he
      rcases List.mem_cons.1 he with rfl | he
      · exact .inr rfl
      · exact .inl he
  · intro res s'' hres p' hp'
    cases res with
    | error e => cases hp'
    | ok p₁ =>
      cases hp'
      exact hlands ((catchIn_lands env fuel m x p.enclosing _ _ _ _ hres).2 p' rfl)
  · nofun

/-- An assignment goes on to the next instruction, or has not assigned anything. -/
theorem exec_assign_spares {v : Reserve} (henv : env.Discreet v) {K : Nat → Prop}
    (hK : ∀ j, K j → v.held j) (hm : m.LabelsSpare v) (x : Var) {e : CompiledExpr}
    (he : e.code.Obeys v.rules) (hd : d.scopes = [v.scope]) (hw : w.Minds v) :
    Exec.Ensures (m.exec env fuel (.assign x e)) (d, w) fun res s' => res = .ok .advance ∨
      s'.1.scopes = [v.scope] ∧ s'.2.Minds v ∧
        ∀ j, K j → (s'.2.scope v.scope).get? j = (w.scope v.scope).get? j := by
  have heval : Exec.Spares v K (m.eval env fuel e) (d, w) _ :=
    (sparing henv hK hm).eval (fun _ => he) trivial
  refine .bind ((heval hd hw).mono ?_)
  rintro (err | u) ⟨d', w'⟩ ⟨hd', hw', hkept, -⟩
  · exact .inr ⟨hd', hw', hkept⟩
  · cases u with
    | jump target => exact .pure (.inr ⟨hd', hw', hkept⟩)
    | value u =>
      refine .bind (.write (fun w'' _ => .pure (.inl rfl)) fun w'' hfalse => .inr ?_)
      rw [World.eq_of_assign_false hfalse]
      exact ⟨hd', hw', hkept⟩

/-- What holds while a run has not entered a region again: the region is not around, and its record
is as it was in a world, unless the region is about to be entered. -/
structure Awaits (im : Image) (n k s : Nat) (t : RegionEntry) (w : World σ) (a : Point σ) : Prop where
  steady : Steady im n k a
  outside : ∀ e ∈ a.position.enclosing, e.region ≠ im.tryRegion s t
  record : (∀ j, t.Holds j → (a.world.scope k).get? j = (w.scope k).get? j) ∨
    a.instr? = some (.label (.reentry s)) ∨ a.instr? = some (.region (im.tryRegion s t))

section

variable (hg : im.graph.Regular n) (hnarrow : im.graph.Narrow n) (him : im.Faithful)
include hg hnarrow him

/-- The records of regions around are not that of a region that is not around. -/
theorem apart_of_outside (hsur : im.Surrounds q r s t) {o : Nat} {enc : List Enclosing}
    (hnested : im.Nested o enc) (houtside : ∀ e ∈ enc, e.region ≠ im.tryRegion s t) :
    Apart t.Holds enc := by
  intro e he
  obtain ⟨q', s', t', -, hsur', -, heq⟩ := Image.protects hg him (hnested.mem_blocks.2 e he)
  have hne : ∀ {j : Nat}, t'.Holds j → ¬t.Holds j := by
    intro j hj hj'
    obtain rfl := hg.owner_unique hnarrow hsur.live hsur.transition hsur'.live hsur'.transition hj' hj
    cases hsur.transition.symm.trans hsur'.transition
    exact houtside e he heq
  rw [heq]
  exact ⟨hne (.inl rfl), hne (.inr rfl)⟩

/-- An instruction that resets the record of a region stands before it. -/
theorem surrounds_of_reset (hsur : im.Surrounds q r s t)
    (hprotects : im.program.Protects (im.tryRegion s t)) {o : Nat} (ho : im.Entered o)
    (hi : im.reset t ∈ (im.block o).instrs.toList) : im.Surrounds o t.region s t := by
  rcases Image.written_of_mem_instrs hg hnarrow him ho hi List.mem_cons_self with
    hholds | ⟨s', t', hsur', -, hvar⟩
  · exact absurd ⟨_, hprotects, .inl rfl⟩ hholds
  · obtain rfl : s = s' := hg.owner_unique hnarrow hsur.live hsur.transition hsur'.live
      hsur'.transition (i := t.tryState.word) (.inl rfl) (.inl (congrArg Var.word hvar))
    cases hsur.transition.symm.trans hsur'.transition
    exact hsur'

variable (hm : m.program = im.program) (hsur : im.Surrounds q r s t)
  (hprotects : im.program.Protects (im.tryRegion s t))
include hm hsur hprotects

/-- Resetting the record of a region leads to the entry of the region. -/
theorem Steady.reset (henv : env.Modest) (h : Steady im n k a)
    (houtside : ∀ e ∈ a.position.enclosing, e.region ≠ im.tryRegion s t)
    (hi : a.instr? = some (im.reset t))
    (hstep : m.stepAt env fuel a.position (im.reset t) (a.durable, a.world) =
      some (.ok (.inl b.position), (b.durable, b.world))) :
    (∀ j, t.Holds j → (b.world.scope k).get? j = (a.world.scope k).get? j) ∨
      b.instr? = some (.label (.reentry s)) := by
  obtain ⟨o, ho, hblock, hnested⟩ := h.placed.entered hg
  have hi' : (im.block o).instrs[a.position.pc]? = some (im.reset t) := by
    rw [← hblock]
    exact hi
  have hmem := Block.mem_of_getElem? hi'
  -- the regions around are others, and have other records
  have henc := apart_of_outside hg hnarrow him hsur hnested houtside
  have hlabel := Image.label_after_reset hg hnarrow him ho
    (surrounds_of_reset hg hnarrow him hsur hprotects ho hmem) hi'
  have hlabels := labelsSpare hg hnarrow him hm k
  have hholds : ∀ j, t.Holds j → (im.program.reserve k).held j := fun j hj => ⟨_, hprotects, hj⟩
  have hexec : Exec.Ensures (m.exec env fuel (im.reset t)) (a.durable, a.world) _ :=
    exec_assign_spares (henv.discreet (im.program.reserve k)) hholds hlabels t.tryState
      (Image.obeys_of_mem_instrs hg hnarrow him ho hmem k List.mem_cons_self) h.intact.scopes
      h.intact.minds
  suffices hresult : Exec.Ensures (m.stepAt env fuel a.position (im.reset t)) (a.durable, a.world)
      fun res s' => ∀ p', res = .ok (.inl p') →
        (∀ j, t.Holds j → (s'.2.scope k).get? j = (a.world.scope k).get? j) ∨
          p' = { a.position with pc := a.position.pc + 1 } by
    refine (hresult _ _ hstep _ rfl).imp_right fun hp => ?_
    rw [Point.instr?, hp]
    simp only [hblock, hlabel]
  -- the reset assigns the record, or the step stays away from it
  refine stepAt_ensures env fuel m (fun next s' hrun => ?_) (fun x s' hrun => ?_) fun e s' hrun => ?_
  · rcases hexec _ _ hrun with heq | ⟨hd, hw, hkept⟩
    · cases heq
      refine .pure fun p' hp' => ?_
      cases hp'
      exact .inr rfl
    · refine (proceed_spares (henv.discreet _) hholds hlabels fuel henc next hd hw).mono ?_
      rintro res s'' ⟨-, -, hkept', -⟩ p' -
      exact .inl fun j hj => (hkept' j hj).trans (hkept j hj)
  · rcases hexec _ _ hrun with heq | ⟨hd, hw, hkept⟩
    · cases heq
    · refine (catchIn_spares (henv.discreet _) hholds hlabels fuel x henc hd hw).mono ?_
      rintro res s'' ⟨-, -, hkept', -⟩ p' -
      exact .inl fun j hj => (hkept' j hj).trans (hkept j hj)
  · nofun

/-- A step that does not enter the region keeps its record, or leads to the entry of the region. -/
theorem Awaits.step (henv : env.Modest) (h : Awaits im n k s t w a)
    (hi : a.instr? = some i)
    (hstep : m.stepAt env fuel a.position i (a.durable, a.world) =
      some (.ok (.inl b.position), (b.durable, b.world)))
    (hne : i ≠ .region (im.tryRegion s t)) : Awaits im n k s t w b := by
  refine ⟨h.steady.step hg hnarrow him hm henv hi hstep, fun e he heq => ?_, ?_⟩
  · rcases stepAt_enclosing env fuel m _ i _ _ _ hstep _ rfl e he with he | hi
    · exact h.outside e he heq
    · exact hne (heq ▸ hi)
  · obtain ⟨o, ho, hblock, hnested⟩ := h.steady.placed.entered hg
    have hi' : (im.block o).instrs[a.position.pc]? = some i := by
      rw [← hblock]
      exact hi
    -- the record is as it was, or the region is about to be entered
    rcases h.record with hkept | hlabel | hregion
    · by_cases hreset : i = im.reset t
      · subst hreset
        rcases h.steady.reset hg hnarrow him hm hsur hprotects henv h.outside hi hstep with
          hsame | hlabel
        · exact .inl fun j hj => (hsame j hj).trans (hkept j hj)
        · exact .inr (.inl hlabel)
      -- no other instruction assigns a record of the region
      · have hwritten : ∀ x ∈ i.written, ¬t.Holds x.word := by
          intro x hx hj
          rcases Image.written_of_mem_instrs hg hnarrow him ho (Block.mem_of_getElem? hi') hx with
            hholds | ⟨s', t', hsur', hi'', rfl⟩
          · exact hholds ⟨_, hprotects, hj⟩
          · obtain rfl := hg.owner_unique hnarrow hsur.live hsur.transition hsur'.live
              hsur'.transition hj (.inl rfl)
            cases hsur.transition.symm.trans hsur'.transition
            exact hreset hi''
        have hspares : Exec.Spares (im.program.reserve k) t.Holds (m.stepAt env fuel a.position i) _ _ :=
          h.steady.spares hg hnarrow him hm henv hi (fun j hj => ⟨_, hprotects, hj⟩) hwritten
            (apart_of_outside hg hnarrow him hsur hnested h.outside)
        obtain ⟨-, -, hsame, -⟩ := hspares h.steady.intact.scopes h.steady.intact.minds _ _ hstep
        exact .inl fun j hj => (hsame j hj).trans (hkept j hj)
    · obtain rfl := Option.some.inj (hi.symm.trans hlabel)
      refine .inr (.inr ?_)
      obtain ⟨p, d, w'⟩ := b
      cases hstep
      rw [Point.instr?]
      simp only [hblock]
      exact Image.region_after_label hg him ho hsur.transition hi'
    · exact absurd (Option.some.inj (hi.symm.trans hregion)) hne

/-- A run that does not enter the region keeps its record. -/
theorem Awaits.passes (h : Awaits im n k s t w a) (hruns : m.Passes (im.tryRegion s t) a b) :
    Awaits im n k s t w b := by
  induction hruns with
  | refl => exact h
  | @tail c c' _ hmove ih =>
    obtain ⟨i, hmove, hne⟩ := hmove
    cases hmove with
    | step henv hi hstep => exact ih.step hg hnarrow him hm hsur hprotects henv hi hstep hne
    | resume hi hstate hscopes hw hbegins =>
      have hsteady := ih.steady.move hg hnarrow him hm (.resume hi hstate hscopes hw hbegins)
      refine ⟨hsteady, fun e he => ?_, ?_⟩
      · rw [hbegins.enclosing] at he
        cases he
      · rcases ih.record with hkept | hlabel | hregion
        · refine .inl fun j hj => ?_
          have hsame := (hw.spares _ ih.steady.intact.minds).kept j ⟨_, hprotects, hj⟩
          rw [hbegins.world]
          exact hsame.trans (hkept j hj)
        · cases hi.symm.trans hlabel
        · cases hi.symm.trans hregion

end

/-! ## The end of a cleanup -/

/-- What holds where a machine goes on as a region was left, if the record of the region is as it was
in a world. -/
structure Decided (im : Image) (n k q r : Nat) (t : RegionEntry) (w : World σ) (c : Point σ)
    (exception : Var) (cases : List (Int × Target)) (rethrows : Bool) : Prop where
  steady : Steady im n k c
  start : c.durable.state = startState
  block : c.position.block = im.block q
  nested : im.Nested q c.position.enclosing
  exception : exception.word = t.exception.word
  rethrows : rethrows = true ∨ t.cleanup = none
  maps : ∀ x ∈ im.exits r, cases.lookup x.code = some x.target
  record : ∀ j, t.Holds j → c.world.lookup c.durable.scopes j = (w.scope k).get? j

/-- A machine that comes to the end of a cleanup finds the record that was made. -/
theorem Awaits.decided (hg : im.graph.Regular n) (hnarrow : im.graph.Narrow n) (him : im.Faithful)
    (hr : im.Entered r) (hq : im.Entered q) (hsur : im.Surrounds q r s t) {c : Point σ}
    (h : Awaits im n k s t w c) {rethrows : Bool}
    (hi : c.instr? = some (.dispatch t.tryState exception cases rethrows fallback)) :
    Decided im n k q r t w c exception cases rethrows := by
  obtain ⟨o, steps, hpoised⟩ := h.steady.placed.poised hg him hi rfl
  have ho := hpoised.nested.entered hg hpoised.mem
  have hmem : .dispatch t.tryState exception cases rethrows fallback ∈
      (im.block o).instrs.toList := by
    rw [← hpoised.block]
    exact Block.mem_of_getElem? hi
  obtain ⟨s', hs', next, hcode⟩ := (him.renders o ho.mem).mem_instrs hmem
  obtain ⟨hlive, hregion⟩ := (hg.mem_regionNodes ho.lt ho.isRegion).1 hs'
  have hhome := ((hg.mem_regionNodes hq.lt hq.isRegion).1 hsur.mem).2
  have hfiled : im.graph.Filed n t.tryState t.exception :=
    ((hnarrow.states s hsur.live).transition _ hsur.transition).filed (t.tryState, t.exception) rfl
  -- the instruction stands behind the region, or at the end of its cleanup
  have hplace : o = q ∧ exception.id = t.exception.id ∧ (rethrows = true ∨ t.cleanup = none) := by
    rcases hsur.dispatch hg hlive hcode with
      ⟨rfl, hnone, rfl, -, -⟩ | ⟨e, he, hregion', hvar, rfl, hre, -⟩
    · exact ⟨hregion.symm.trans hhome, rfl, .inr hnone⟩
    · have hsound := (hg.sound s' hlive).transition _ he
      have hfiled' : im.graph.Filed n e.tryState e.exception :=
        ((hnarrow.states s' hlive).transition _ he).filed (e.tryState, e.exception) rfl
      have hparent : im.graph.parentRegion? r = some (im.graph.state s').region :=
        hregion' ▸ hsound.2.2.2
      refine ⟨?_, ?_, .inl hre⟩
      · rw [hregion, hsur.parent] at hparent
        exact (Option.some.inj hparent).symm
      · rw [hfiled'.next, hfiled.next, hvar]
  obtain ⟨rfl, hexception, hrethrows⟩ := hplace
  refine ⟨h.steady, hpoised.stored _ hi, hpoised.block, hpoised.nested, congrArg word hexception, hrethrows,
    fun x hx => hsur.maps hg (him.renders r hr.mem) hlive hcode hx, fun j hj => ?_⟩
  rw [h.steady.intact.scopes, World.lookup_singleton]
  rcases h.record with hkept | hlabel | hregion
  · exact hkept j hj
  · cases hi.symm.trans hlabel
  · cases hi.symm.trans hregion

section

variable (hg : im.graph.Regular n) (hnarrow : im.graph.Narrow n) (him : im.Faithful)
  (hm : m.program = im.program)
include hg hnarrow him hm

/-- From behind a region, a machine goes through its cleanup and finds the record that was made. -/
theorem Intact.goesThrough {e : Enclosing} {rest : List Enclosing} (hnested : im.Nested r (e :: rest))
    (hr : r ∈ im.regions) (hsur : im.Surrounds q r s t) (hregion : e.region = im.tryRegion s t)
    (hintact : Intact im n k d w) (hstart : d.state = startState) {res : Except RunError Next}
    {on : Point σ → Prop}
    (hon : ∀ c exception cases rethrows fallback,
      Decided im n k q r t w c exception cases rethrows →
      c.instr? = some (.dispatch t.tryState exception cases rethrows fallback) →
      c.position.enclosing = rest → m.Answers c res ∧ on c) :
    m.GoesThrough im.graph e rest ⟨⟨e.block, e.pc + 1, rest⟩, d, w⟩ res on := by
  obtain ⟨q', s', t', hq, hsur', hregion', hblock, hinstr, hrest⟩ := hnested.surrounds hg
  obtain rfl : q = q' := Option.some.inj (hsur.parent.symm.trans hsur'.parent)
  have hentered := hrest.entered hg hq
  have hprotects : im.program.Protects (im.tryRegion s t) := by
    rw [← hregion]
    exact hnested.mem_blocks.2 e List.mem_cons_self
  refine ⟨rfl, ?_, fun c hpasses hdecides => ?_⟩
  · rw [hregion] at hinstr ⊢
    exact hsur.cleansUp hg him hentered hinstr hblock rfl
  · obtain ⟨-, -, hinside, -, -⟩ := hnested.around hg him
    obtain ⟨o, hpoised⟩ := Image.Poised.of_lands him hnested hstart le_rfl ⟨[], e, rest, rfl, rfl⟩
    -- control is behind the region, and nothing has touched its record
    have hawaits : Awaits im n k s t w ⟨⟨e.block, e.pc + 1, rest⟩, d, w⟩ :=
      ⟨⟨hintact, .inl ⟨o, _, hpoised, hinside⟩⟩, hregion ▸ hnested.outside hg him hr,
        .inl fun _ _ => rfl⟩
    rw [hregion] at hpasses
    obtain ⟨exception, cases, rethrows, fallback, hi⟩ := hdecides
    rw [hregion] at hi
    have hdecided := (hawaits.passes hg hnarrow him hm hsur hprotects hpasses).decided hg hnarrow him
      (hnested.entered hg hr) hentered hsur hi
    have henc := hdecided.nested.unique hg him hrest
    exact ⟨hdecided.block.trans hblock.symm, henc, hon c _ _ _ _ hdecided hi henc⟩

/-! ## Jumps -/

/-- A jump towards an exit of a region is delivered. By induction on the blocks around: behind the
region that knows the target, the jump goes on in the block around it. -/
theorem Intact.delivers
    (hwords : ∀ region, im.program.Protects region → ∀ x ∈ region.exits, x.code < 2 ^ 63)
    {target : Target} : ∀ {enc : List Enclosing} {r : Nat} {d : Durable} {w : World σ},
      im.Nested r enc → r ∈ im.regions → target ∈ (im.exits r).map RegionExit.target →
      Intact im n k d w → d.state = startState → m.Delivers im.graph target enc (d, w)
  | [], r, _, _, hnested, hr, ht, _, _ => by
    obtain rfl : r = Graph.top := hnested
    rw [(him.renders _ hr).exits_top hg.zoned] at ht
    cases ht
  | e :: rest, r, d, w, hnested, hr, ht, hintact, hstart => by
    obtain ⟨q, s, t, hq, hsur, hregion, hblock, hinstr, hrest⟩ := hnested.surrounds hg
    obtain ⟨htry, -, -, hexits, -⟩ := hnested.around hg him
    have hprotects := hnested.mem_blocks.2 e List.mem_cons_self
    have hsorts := Image.sortsOut hg him hprotects
    obtain ⟨x, hx, rfl⟩ := List.mem_map.1 ht
    have hx' : x ∈ e.region.exits := hexits ▸ hx
    have hunique : ∀ y ∈ e.region.exits, y.target = x.target → y = x :=
      fun y hy heq => List.inj_on_of_nodup_map hsorts.targets hy hx' heq
    have hcode : e.region.exitCode? x.target = some x.code := by
      obtain ⟨y, hy⟩ : ∃ y, e.region.exits.find? (·.target == x.target) = some y :=
        Option.isSome_iff_exists.1 (List.find?_isSome.2 ⟨x, hx', beq_self_eq_true _⟩)
      have heq : y.target = x.target := by simpa using List.find?_some hy
      rw [TryRegion.exitCode?, hy, hunique y (List.mem_of_find?_eq_some hy) heq]
      rfl
    -- the code of the exit is stored, and the dispatch behind the region reads it
    obtain ⟨w', hwrite, hintact', hvalue, -⟩ := hintact.write htry (.int (Int64.ofInt x.code))
    refine ⟨⟨x, ⟨hx', rfl⟩, fun y hy => hunique y hy.1 hy.2⟩,
      ⟨⟨e.block, e.pc + 1, rest⟩, d, w'⟩, ?_, ?_⟩
    · rw [leaveTo]
      simp only [hcode]
      exact Exec.bind_ok hwrite
    · refine hintact'.goesThrough hg hnarrow him hm hnested hr hsur hregion hstart ?_
      intro c exception cases rethrows fallback hdecided hi henc
      have hread : c.world.lookup c.durable.scopes t.tryState.word =
          some (.int (Int64.ofInt x.code)) := by
        rw [hdecided.record _ (.inl rfl), ← hvalue, hregion]
        rfl
      have hpos := hsur.code_pos hg (him.renders r hr) hx
      have hword : (Int64.ofInt x.code).toInt = x.code :=
        Int64.toInt_ofInt_of_le (by omega) (hwords _ hprotects x hx')
      have hanswers : ∀ (env : Env σ) (fuel : Nat), m.exec env fuel
          (.dispatch t.tryState exception cases rethrows fallback) (c.durable, c.world) =
            some (.ok (.jump x.target), (c.durable, c.world)) := fun env fuel =>
        exec_dispatch_jump env fuel hread hword (hsorts.reserved x hx').2 (hdecided.maps x hx)
      refine ⟨⟨_, hi, hanswers⟩, ?_⟩
      -- the target is in the block around, or an exit of that one too
      split
      · rename_i pc hpc
        intro env
        refine ⟨_, hi, fun fuel => ?_⟩
        have hblock' : c.position.block = e.block := hdecided.block.trans hblock.symm
        rw [stepAt_jump (hanswers env fuel) (hblock' ▸ hpc), hblock', henc]
      · rename_i hpc
        have hmem : .dispatch t.tryState exception cases rethrows fallback ∈
            (im.block q).instrs.toList := by
          rw [← hdecided.block]
          exact Block.mem_of_getElem? hi
        have htarget : x.target ∈
            (Instr.dispatch t.tryState exception cases rethrows fallback).targets :=
          List.mem_append_left _
            (List.mem_map_of_mem (f := Prod.snd) (mem_of_lookup (hdecided.maps x hx)))
        have hexit : x.target ∈ (im.exits q).map RegionExit.target := by
          refine ((him.renders q hq).reaches_target hmem htarget).resolve_left fun hsome => ?_
          rw [← hblock, hpc] at hsome
          cases hsome
        exact Intact.delivers hwords hrest hq hexit hdecided.steady.intact hdecided.start

/-! ## Exceptions -/

/-- An exception that is not handled goes through the cleanups and stays the same. By induction on the
blocks around. -/
theorem Intact.rethrows (x : Exception) : ∀ {enc : List Enclosing} {r : Nat} {d : Durable}
    {w : World σ}, im.Nested r enc → r ∈ im.regions → Intact im n k d w → d.state = startState →
      m.Rethrows im.graph x enc (d, w)
  | [], _, _, _, _, _, _, _ => rfl
  | e :: rest, r, d, w, hnested, hr, hintact, hstart => by
    obtain ⟨q, s, t, hq, hsur, hregion, hblock, hinstr, hrest⟩ := hnested.surrounds hg
    obtain ⟨htry, hexception, -, -, -⟩ := hnested.around hg him
    have hfiled : im.graph.Filed n t.tryState t.exception :=
      ((hnarrow.states s hsur.live).transition _ hsur.transition).filed (t.tryState, t.exception) rfl
    have hentry : im.graph.EntrySound n s t := (hg.sound s hsur.live).transition _ hsur.transition
    have howner : im.graph.cleanup? e.region.owner = t.cleanup := by
      rw [hregion, Graph.cleanup?, Image.tryRegion, hsur.transition]
    intro hhandlers
    have hnone : e.region.handlers.find? (fun h => h.1.accepts x.toFault) = none := by
      refine List.find?_eq_none.2 fun h hh htrue => ?_
      exact Bool.false_ne_true ((hhandlers h hh).symm.trans htrue)
    have hcatch : e.region.catchCode? x.toFault =
        if t.cleanup.isSome then some unhandled else none := by
      rw [TryRegion.catchCode?, hnone, hregion]
      rfl
    rw [howner]
    -- a region without a cleanup lets the exception pass; one with a cleanup stores it meanwhile
    cases hcleanup : t.cleanup with
    | none =>
      rw [hcleanup] at hcatch
      refine ⟨?_, Intact.rethrows x hrest hq hintact hstart⟩
      rw [catchIn]
      simp only [hcatch]
      rfl
    | some head =>
      rw [hcleanup] at hcatch
      obtain ⟨w₁, hwrite₁, hintact₁, hvalue₁, -⟩ := hintact.write hexception (.exception x)
      obtain ⟨w₂, hwrite₂, hintact₂, hvalue₂, hsame₂⟩ :=
        hintact₁.write htry (.int (Int64.ofInt unhandled))
      refine ⟨⟨⟨e.block, e.pc + 1, rest⟩, d, w₂⟩, ?_, ?_⟩
      · rw [catchIn]
        simp only [hcatch]
        exact (Exec.bind_ok hwrite₁).trans (Exec.bind_ok hwrite₂)
      · refine hintact₂.goesThrough hg hnarrow him hm hnested hr hsur hregion hstart ?_
        intro c exception cases rethrows fallback hdecided hi henc
        obtain rfl : rethrows = true := hdecided.rethrows.resolve_right (by simp [hcleanup])
        have hread : c.world.lookup c.durable.scopes t.tryState.word =
            some (.int (Int64.ofInt unhandled)) := by
          rw [hdecided.record _ (.inl rfl), ← hvalue₂, hregion]
          rfl
        have hstored : c.world.lookup c.durable.scopes exception.word = some (.exception x) := by
          have hne : t.exception.word ≠ t.tryState.word := by
            rw [hnarrow.word hfiled.mem, hnarrow.word hentry.tryState.1, hfiled.next]
            omega
          rw [hregion] at hvalue₁ hsame₂
          rw [hdecided.exception, hdecided.record _ (.inr rfl), hsame₂ _ hne]
          exact hvalue₁
        refine ⟨⟨_, hi, fun env fuel => exec_dispatch_throw env fuel hread hstored⟩, ?_⟩
        exact Intact.rethrows x hrest hq hdecided.steady.intact hdecided.start

/-! ## Visited points -/

/-- An instruction that does more than lead on leaves the variables of the machine in order, and a jump
after it has a destination. -/
theorem Steady.exec (henv : env.Modest) (h : Steady im n k a) (hi : a.instr? = some i)
    (hroutes : i.routes = false) :
    ∃ r steps,
      im.Poised r a.position a.durable steps ∧
      Exec.Ensures (m.exec env fuel i) (a.durable, a.world) fun res s' =>
        Intact im n k s'.1 s'.2 ∧ Orderly (Next.Lands im r) res := by
  obtain ⟨r, steps, hpoised⟩ := h.placed.poised hg him hi hroutes
  have hr := hpoised.nested.entered hg hpoised.mem
  have hmem : i ∈ (im.block r).instrs.toList := by
    rw [← hpoised.block]
    exact Block.mem_of_getElem? hi
  have hserves : im.Serves n r i := (him.renders r hr.mem).serves hg (fun s hs => hr.live hg hs) hmem
  exact ⟨r, steps, hpoised, h.intact.ensures (exec_safe henv.tame hm hserves)
    (exec_spares (henv.discreet _) nofun (labelsSpare hg hnarrow him hm k)
      (fun e he => Image.obeys_of_mem_instrs hg hnarrow him hr hmem k he) fun _ _ => id)⟩

/-- A jump out of the block of a visited point is delivered. -/
theorem Steady.delivers (henv : env.Modest) (h : Steady im n k a) (hi : a.instr? = some i)
    (hwords : ∀ region, im.program.Protects region → ∀ x ∈ region.exits, x.code < 2 ^ 63)
    (hexec : m.exec env fuel i (a.durable, a.world) = some (.ok (.jump target), s'))
    (hpos : a.position.block.position? target = none) :
    m.Delivers im.graph target a.position.enclosing s' := by
  have hfollows := exec_follows env fuel m i _ _ _ hexec _ rfl
  obtain ⟨hstate, -⟩ := exec_durable env fuel m i _ _ _ _ hexec
  obtain ⟨hpark, hnone, hroutes⟩ : i.isParking = false ∧ i.stored? = none ∧ i.routes = false := by
    cases hfollows with
    | jump ht => cases i <;> first | exact ⟨rfl, rfl, rfl⟩ | cases ht
    | escape he => cases i <;> first | exact ⟨rfl, rfl, rfl⟩ | exact absurd rfl he
  obtain ⟨r, steps, hpoised, hensures⟩ := h.exec hg hnarrow him hm henv hi hroutes
  obtain ⟨hintact, hlands⟩ := hensures _ _ hexec
  have hstored := hpoised.stored i hi
  rw [hpark] at hstored
  rw [hnone] at hstate
  have hexit : target ∈ (im.exits r).map RegionExit.target := by
    refine Or.resolve_left hlands fun hsome => ?_
    rw [← hpoised.block, hpos] at hsome
    cases hsome
  exact hintact.delivers hg hnarrow him hm hwords hpoised.nested hpoised.mem hexit
    (hstate.trans hstored)

/-- What is thrown at a visited point goes through the cleanups around. -/
theorem Steady.rethrows (henv : env.Modest) (h : Steady im n k a) (hi : a.instr? = some i)
    {x : Exception}
    (hexec : m.exec env fuel i (a.durable, a.world) = some (.error (.thrown x), s')) :
    m.Rethrows im.graph x a.position.enclosing s' := by
  have hno := fun hpark => exec_parks env fuel m hpark _ _ _ hexec x rfl
  obtain ⟨hstate, -⟩ := exec_durable env fuel m i _ _ _ _ hexec
  obtain ⟨hpark, hnone, hroutes⟩ : i.isParking = false ∧ i.stored? = none ∧ i.routes = false := by
    cases i with
    | label | region => cases hexec
    | setState => exact absurd (.inl rfl) hno
    | register | suspend => exact absurd (.inr rfl) hno
    | _ => exact ⟨rfl, rfl, rfl⟩
  obtain ⟨r, steps, hpoised, hensures⟩ := h.exec hg hnarrow him hm henv hi hroutes
  obtain ⟨hintact, -⟩ := hensures _ _ hexec
  have hstored := hpoised.stored i hi
  rw [hpark] at hstored
  rw [hnone] at hstate
  exact hintact.rethrows hg hnarrow him hm x hpoised.nested hpoised.mem (hstate.trans hstored)

end

/-- Jumps and exceptions that leave the regions of a compiled lambda are delivered through every
cleanup. The codes of a region tell its exits apart, from each other and from all else that the region
records, and where control goes on as the region was left, a code leads to its target. So wherever a
machine is, a jump out of its block gets to its target, through the cleanups of the regions that it
leaves. An exception goes through the cleanups of the regions that do not handle it, and is thrown
again behind each, the same. Numbers of variables and codes are kept as machine words, so there must
not be more of them. -/
theorem delivers_through_cleanups {l : Lambda} {resolve : Expr.Resolver} {o : Options} {c : Compiled}
    (hc : l.compile resolve o = .ok c) (hrange : c.graph.InRange) :
    (∀ region, c.program.Protects region → c.program.SortsOut region) ∧
    ∀ {limit : Option Nat} {m : CompiledMachine} {a : Point σ}, Visits c.program limit m a →
      ∀ {i : Instr}, a.instr? = some i → ∀ {env : Env σ}, env.Modest → ∀ fuel : Nat,
        ((∀ region, c.program.Protects region → ∀ x ∈ region.exits, x.code < 2 ^ 63) →
          ∀ target s, m.exec env fuel i (a.durable, a.world) = some (.ok (.jump target), s) →
            a.position.block.position? target = none →
            m.Delivers c.graph target a.position.enclosing s) ∧
        ∀ x s, m.exec env fuel i (a.durable, a.world) = some (.error (.thrown x), s) →
          m.Rethrows c.graph x a.position.enclosing s := by
  obtain ⟨im, n, hgraph, -, hg, htidy, him, hprogram⟩ := Lambda.compile_tidy hc
  rw [← hgraph] at hrange
  rw [← hgraph, hprogram]
  have hnarrow : im.graph.Narrow n := ⟨htidy, hrange⟩
  refine ⟨fun region hregion => Image.sortsOut hg him hregion, ?_⟩
  intro limit m a hvisits i hi env henv fuel
  obtain ⟨hm, k, hsteady⟩ := hvisits.steady hg hnarrow him
  refine ⟨fun hwords target s hexec hpos => ?_, fun x s hexec => ?_⟩
  · exact hsteady.delivers hg hnarrow him hm henv hi hwords hexec hpos
  · exact hsteady.rethrows hg hnarrow him hm henv hi hexec

/-! ## A jump over two cleanups -/

/-- A machine runs a number of instructions. -/
def walk (env : Env σ) (fuel : Nat) (m : CompiledMachine) : Nat → Point σ → Option (Point σ)
  | 0, a => some a
  | steps + 1, a =>
    match a.instr? with
    | none => none
    | some i =>
      match m.stepAt env fuel a.position i (a.durable, a.world) with
      | some (.ok (.inl p), (d, w)) => m.walk env fuel steps ⟨p, d, w⟩
      | _ => none

theorem Visits.walk {program : Program} {limit : Option Nat} (henv : env.Modest) {steps : Nat}
    (h : Visits program limit m a) (hwalk : m.walk env fuel steps a = some b) :
    Visits program limit m b := by
  induction steps generalizing a with
  | zero =>
    cases hwalk
    exact h
  | succ steps ih =>
    unfold CompiledMachine.walk at hwalk
    split at hwalk
    · cases hwalk
    · rename_i i hi
      split at hwalk
      · rename_i p d w hstep
        exact ih (.move h (b := ⟨p, d, w⟩) (.step henv hi hstep)) hwalk
      · cases hwalk

end CompiledMachine

/-- Whether the codes of a region's exits are machine words. -/
def Instr.fitsWords : Instr → Bool
  | .region r => r.exits.all fun x => decide (x.code < 2 ^ 63)
  | _ => true

theorem Program.fitsWords {p : Program}
    (h : (p.entry.blocks.all fun b => b.instrs.toList.all Instr.fitsWords) = true) :
    ∀ region, p.Protects region → ∀ x ∈ region.exits, x.code < 2 ^ 63 := by
  rintro region ⟨b, hb, hmem⟩ x hx
  have hregion := List.all_eq_true.1 (List.all_eq_true.1 h b hb) _ hmem
  exact of_decide_eq_true (List.all_eq_true.1 hregion x hx)

/-- The bare host does not touch variables. -/
theorem Env.bare_modest : Env.bare.Modest where
  tame := Env.bare_tame
  discreet v :=
    { call := fun _ _ => (Effect.Opaque.raise _).quiet.spares v
      getAwaiter := fun _ a _ => (Effect.Opaque.pure a).quiet.spares v
      isCompleted := fun _ _ => (Effect.Opaque.pure true).quiet.spares v
      getResult := fun _ a => (Effect.Opaque.pure a).quiet.spares v }

/-- A lambda that returns, from inside two protected bodies, what it has waited for. -/
def Lambda.guardedReturn : Lambda :=
  ⟨none, .async, [⟨0, "x"⟩], .label ⟨1, none⟩ (some (.tryCatch (.tryCatch
    (.goto .toReturn ⟨1, none⟩ (some (.await (.var ⟨0, "x"⟩) "Task" false))) [] (some .unit)) []
    (some .unit)))⟩

/-- A world with a task that has settled. -/
def World.settled : World Unit := { tasks := #[{ outcome := some (.ok .unit) }], host := () }

/-- The return of a value out of two protected bodies is delivered through both cleanups. -/
theorem CompiledMachine.guardedReturn_delivers : ∃ c m w a i target s,
    Lambda.guardedReturn.compile .tasks {} = .ok c ∧
    CompiledMachine.new c.program none [.task 0] World.settled = .ok (m, w) ∧
    Visits c.program none m a ∧ a.instr? = some i ∧ a.position.enclosing.length = 2 ∧
    m.exec Env.bare 8 i (a.durable, a.world) = some (.ok (.jump target), s) ∧
    m.Delivers c.graph target a.position.enclosing s := by
  have hrun : ((Lambda.guardedReturn.compile .tasks {}).toOption.bind fun c =>
      (CompiledMachine.new c.program none [.task 0] World.settled).toOption.bind fun x =>
        (x.1.walk Env.bare 8 14 ⟨⟨x.1.program.entry, 0, []⟩, x.1.durable, x.2⟩).bind fun a =>
          a.instr?.bind fun i =>
            (x.1.exec Env.bare 8 i (a.durable, a.world)).bind fun y => y.1.toOption.map fun next =>
              (next, a.position.block.position? (.state 9), a.position.enclosing.length,
                decide c.graph.InRange,
                c.program.entry.blocks.all fun b => b.instrs.toList.all Instr.fitsWords)) =
      some (.jump (.state 9), none, 2, true, true) := by
    cbv
  obtain ⟨c, hc, hrun⟩ := bind_toOption_eq_some hrun
  obtain ⟨⟨m, w⟩, hnew, hrun⟩ := bind_toOption_eq_some hrun
  obtain ⟨a, hwalk, hrun⟩ := Option.bind_eq_some_iff.1 hrun
  obtain ⟨i, hi, hrun⟩ := Option.bind_eq_some_iff.1 hrun
  obtain ⟨⟨r, s⟩, hexec, hrun⟩ := Option.bind_eq_some_iff.1 hrun
  obtain ⟨next, hr, heq⟩ := Option.map_eq_some_iff.1 hrun
  simp only [Prod.mk.injEq] at heq
  obtain ⟨rfl, hpos, hlength, hrange, hwords⟩ := heq
  have hr : r = _ := eq_ok_of_toOption hr
  subst hr
  have hclosed : World.settled.Closed := fun _ _ hk => by cases hk
  have hbegins : m.Begins m.durable w ⟨⟨m.program.entry, 0, []⟩, m.durable, w⟩ := by
    refine ⟨rfl, rfl, entryPoint_start ?_ w⟩
    obtain ⟨sc, rfl, -⟩ := new_eq_ok hnew
    rfl
  have hvisits : Visits c.program none m a :=
    (Visits.start (.of_empty rfl) hclosed hnew hbegins).walk Env.bare_modest hwalk
  obtain ⟨-, hdelivers⟩ :=
    CompiledMachine.delivers_through_cleanups hc (of_decide_eq_true hrange)
  exact ⟨c, m, w, a, i, _, s, hc, hnew, hvisits, hi, hlength, hexec,
    (hdelivers hvisits hi Env.bare_modest 8).1 (Program.fitsWords hwords) _ s hexec hpos⟩

end Coroutine
