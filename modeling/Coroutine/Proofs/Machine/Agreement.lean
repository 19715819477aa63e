import Mathlib
import Coroutine.Proofs.Interpreter.Modes
import Coroutine.Proofs.Machine.Safety
import Coroutine.Proofs.Program.Whole

/-!
# Both engines agree on bodies that do not suspend

A body without suspend points is one expression of its linear program, which a compiled machine
evaluates as a plain function; an interpreted machine runs its code as a lambda of its own kind. The
code is the same, it stands on its own (`Code.StandsAlone`) and so runs alike in all modes. Either
machine does in its first resumption what evaluating the code does (`Machine.Evaluates`), hence both
do the same: `Lambda.engines_agree`.
-/

namespace Coroutine

variable {σ : Type} {resolve : Expr.Resolver} {env : Env σ} {limit : Option Nat} {fuel : Nat}
  {code : Code} {χ : Chain} {w w' : World σ}

/-! ## Machines that run to their end -/

/-- What a lambda gives when its body has come to a value. A generator gives nothing. -/
def LambdaKind.result (kind : LambdaKind) (v : Value) : Value :=
  if kind = .generator then .unit else v

/-- A resumption ends a machine with a value or an error. -/
def Machine.Completes (env : Env σ) (m : Machine) (w : World σ) (r : Except RunError Value)
    (w' : World σ) : Prop :=
  ∃ fuel m', m.resume env fuel w = some ((r.map .completed, m'), w') ∧ m'.isCompleted = true

/-- A machine ends with its first resumption. -/
def Machine.NeverPauses (env : Env σ) (m : Machine) (w : World σ) : Prop :=
  ∀ fuel s m' w', m.resume env fuel w = some ((s, m'), w') →
    m'.isCompleted = true ∧ ∃ r : Except RunError Value, s = r.map .completed

/-- A machine does in one resumption what evaluating code over a chain does. -/
structure Machine.Evaluates (env : Env σ) (m : Machine) (kind : LambdaKind) (limit : Option Nat)
    (code : Code) (χ : Chain) (w : World σ) : Prop where
  completes : ∀ fuel (r : Except RunError Value) w',
    evaluate env limit fuel code χ w = some (r.map .value, w') →
      m.Completes env w (r.map kind.result) w'
  only : ∀ fuel s m' w', m.resume env fuel w = some ((s, m'), w') → m'.isCompleted = true ∧
    ∃ (fuel : Nat) (r : Except RunError Value), s = (r.map kind.result).map .completed ∧
      evaluate env limit fuel code χ w = some (r.map .value, w')

namespace Machine.Evaluates

variable {m m' : Machine} {kind : LambdaKind} {r : Except RunError Value}

/-- A machine that evaluates an expression never pauses. -/
theorem neverPauses (h : m.Evaluates env kind limit code χ w) : m.NeverPauses env w := by
  intro fuel s m' w' hrun
  obtain ⟨hdone, fuel', r, hs, -⟩ := h.only fuel s m' w' hrun
  exact ⟨hdone, r.map kind.result, hs⟩

/-- It completes with what the expression evaluates to. -/
theorem completes_iff (h : m.Evaluates env kind limit code χ w) : m.Completes env w r w' ↔
    ∃ fuel, ∃ r₀ : Except RunError Value, r = r₀.map kind.result ∧
      evaluate env limit fuel code χ w = some (r₀.map .value, w') := by
  constructor
  · rintro ⟨fuel, m', hrun, -⟩
    obtain ⟨-, fuel', r₀, hs, hev⟩ := h.only fuel _ m' w' hrun
    refine ⟨fuel', r₀, ?_, hev⟩
    revert hs
    generalize r₀.map kind.result = r₁
    cases r <;> cases r₁ <;> simp [Except.map]
  · rintro ⟨fuel, r₀, rfl, hev⟩
    exact h.completes fuel r₀ w' hev

end Machine.Evaluates

/-! ## Code that stands on its own -/

/-- Code that neither suspends nor is left by a jump, over a chain that has its variables. -/
def Code.StandsAlone (code : Code) (χ : Chain) (w : World σ) : Prop :=
  w.Sound ∧ ∃ s : Setting, code.Sound (fun _ => False) s ∧ s.waits = false ∧ s.handling = false ∧
    w.Binds χ s

namespace Code.StandsAlone

/-- Code that stands alone runs alike in all modes. -/
theorem start_eq (henv : env.Tame) (h : code.StandsAlone χ w) (mode : LambdaKind) :
    start env mode limit fuel code { scopes := χ } w =
      start env .sync limit fuel code { scopes := χ } w := by
  obtain ⟨hw, s, hcode, hwaits, hhandling, hbinds⟩ := h
  exact start_mode henv mode fuel hw hcode hwaits hhandling hbinds

/-- Running it comes to an end with a value or an error. -/
theorem start_ends (henv : env.Tame) (h : code.StandsAlone χ w)
    {x : Except RunError (Halt × Context)}
    (hstart : start env .sync limit fuel code { scopes := χ } w = some (x, w')) :
    (∃ v c, x = .ok (.finished v, c)) ∨ ∃ e, x = .error e := by
  obtain ⟨hw, s, hcode, hwaits, hhandling, hbinds⟩ := h
  have hsafe {r : Except RunError Evaluation}
      (hev : evaluate env limit fuel code χ w = some (r, w')) :
      Orderly (Evaluation.Allowed fun _ => False) r :=
    (evaluate_safe henv hw hcode hwaits hhandling hbinds hev).2
  unfold evaluate at hsafe
  rw [hstart] at hsafe
  match x with
  | .error e => exact .inr ⟨e, rfl⟩
  | .ok (.finished v, c) => exact .inl ⟨v, c, rfl⟩
  | .ok (.escaped label v, c) => exact (hsafe rfl).elim
  | .ok (.suspended, c) => cases hsafe rfl
  | .ok (.yielded, c) => cases hsafe rfl

/-- Code that stands alone does not jump out. -/
theorem evaluate_eq (henv : env.Tame) (h : code.StandsAlone χ w) :
    ∃ ev : Option (Except RunError Value × World σ), evaluate env limit fuel code χ w =
      ev.map fun (r, w') => (r.map .value, w') := by
  cases hev : evaluate env limit fuel code χ w with
  | none => exact ⟨none, rfl⟩
  | some x =>
    obtain ⟨⟨y, w'⟩, hstart, rfl⟩ := Option.map_eq_some_iff.1 hev
    rcases h.start_ends henv hstart with ⟨v, c, rfl⟩ | ⟨e, rfl⟩
    · exact ⟨some (.ok v, w'), rfl⟩
    · exact ⟨some (.error e, w'), rfl⟩

/-- Evaluating a constant or a variable gives a value and changes nothing. -/
theorem evaluate_leaf (henv : env.Tame) (h : code.StandsAlone χ w) {e : Expr}
    (he : e.isPureLeaf = true) (hbuild : Code.build resolve false e = .ok code)
    (hlimit : limitReached limit 0 = false) :
    ∃ v, evaluate env limit (fuel + 1) code χ w = some (.ok (.value v), w) := by
  -- a leaf gives its value when it is entered, and the next step finds no frame left
  have hdone {v : Value} (henter : enter .sync code Code.root { scopes := χ } w =
      (.ok (Context.push { scopes := χ } v), w)) :
      evaluate env limit (fuel + 1) code χ w = some (.ok (.value v), w) := by
    rw [evaluate, start, henter]
    simp only [iterate, hlimit, Bool.false_eq_true, if_false]
    rfl
  cases e with
  | constant v =>
    cases hbuild
    exact ⟨v, hdone rfl⟩
  | var x =>
    have henter : enter .sync code Code.root { scopes := χ } w = (w.lookup χ x.word).elim
        (.error (.unboundVariable x.name), w) fun v => (.ok (Context.push { scopes := χ } v), w) := by
      cases hbuild
      change (Run.look (fun w : World σ => w.lookup χ x.word) >>= _ : Run σ Context) w = _
      rw [exceptState_bind]
      cases hlook : w.lookup χ x.word <;> simp only [Run.look, hlook] <;> rfl
    cases hlook : w.lookup χ x.word with
    | some v =>
      rw [hlook] at henter
      exact ⟨v, hdone henter⟩
    -- code that stands alone has all its variables
    | none =>
      obtain ⟨hw, s, hcode, hwaits, hhandling, hbinds⟩ := h
      rw [hlook] at henter
      have hev : evaluate env limit (fuel + 1) code χ w =
          some (.error (.unboundVariable x.name), w) := by
        rw [evaluate, start, henter]
        rfl
      cases (evaluate_safe henv hw hcode hwaits hhandling hbinds hev).2
  | _ => cases he

end Code.StandsAlone

/-! ## The interpreter -/

/-- A fresh interpreted machine evaluates its code. -/
theorem InterpretedMachine.evaluates {env : Env σ} (henv : env.Tame) {code : Code} {χ : Chain}
    {w : World σ} (h : code.StandsAlone χ w) (name : String) (kind : LambdaKind)
    (limit : Option Nat) :
    (Machine.interpreted ⟨name, kind, code, { scopes := χ }, limit, false, false⟩).Evaluates env
      kind limit code χ w := by
  let m : InterpretedMachine := ⟨name, kind, code, { scopes := χ }, limit, true, false⟩
  have hresume (fuel : Nat) :
      (Machine.interpreted ⟨name, kind, code, { scopes := χ }, limit, false, false⟩).resume env
        fuel w = (start env .sync limit fuel code { scopes := χ } w).map fun x =>
          (((m.settle x.1).1, .interpreted (m.settle x.1).2), x.2) := by
    -- code that does not suspend runs alike in all modes
    rw [← h.start_eq henv kind, Machine.resume, resume, if_neg Bool.false_ne_true, Option.map_map]
    rfl
  constructor
  · intro fuel r w' hev
    obtain ⟨⟨x, w₁⟩, hstart, heq⟩ := Option.map_eq_some_iff.1 hev
    refine ⟨fuel, .interpreted (m.settle x).2, ?_, ?_⟩
    · rw [hresume, hstart]
      rcases h.start_ends henv hstart with ⟨v, c, rfl⟩ | ⟨e, rfl⟩
      · cases r with
        | ok v => cases heq; rfl
        | error e => cases heq
      · cases r with
        | ok v => cases heq
        | error e => cases heq; rfl
    · rcases h.start_ends henv hstart with ⟨v, c, rfl⟩ | ⟨e, rfl⟩ <;> rfl
  · intro fuel s m' w' hrun
    rw [hresume] at hrun
    obtain ⟨⟨x, w₁⟩, hstart, heq⟩ := Option.map_eq_some_iff.1 hrun
    rcases h.start_ends henv hstart with ⟨v, c, rfl⟩ | ⟨e, rfl⟩
    · cases heq
      refine ⟨rfl, fuel, .ok v, rfl, ?_⟩
      rw [evaluate, hstart]
      rfl
    · cases heq
      refine ⟨rfl, fuel, .error e, rfl, ?_⟩
      rw [evaluate, hstart]
      rfl

/-! ## The compiler -/

namespace CompiledMachine

variable {m : CompiledMachine} {steps pc : Nat} {b : Block} {d : Durable}

section

variable {i : Instr} {s s' : Durable × World σ} (hi : b.instrs[pc]? = some i)
  (hlimit : limitReached m.limit steps = false)
include hi hlimit

/-- A run goes on with the next instruction. -/
theorem runFrom_advance (h : m.exec env fuel i s = some (.ok .advance, s')) :
    m.runFrom env (fuel + 1) steps ⟨b, pc, []⟩ s =
      m.runFrom env fuel (steps + 1) ⟨b, pc + 1, []⟩ s' := by
  rw [runFrom]
  simp only [hi, hlimit, Bool.false_eq_true, if_false]
  rw [Exec.bind_eq, stepAt, h]
  rfl

/-- A run goes on at the target of a jump. -/
theorem runFrom_jump {target : Target} {pc' : Nat}
    (h : m.exec env fuel i s = some (.ok (.jump target), s'))
    (hpos : b.position? target = some pc') : m.runFrom env (fuel + 1) steps ⟨b, pc, []⟩ s =
      m.runFrom env fuel (steps + 1) ⟨b, pc', []⟩ s' := by
  rw [runFrom]
  simp only [hi, hlimit, Bool.false_eq_true, if_false]
  rw [Exec.bind_eq, stepAt, h]
  simp only [proceed, hpos]
  rfl

/-- A run stops where its instruction says. -/
theorem runFrom_stop {flow : Flow} (h : m.exec env fuel i s = some (.ok (.stop flow), s')) :
    m.runFrom env (fuel + 1) steps ⟨b, pc, []⟩ s = some (.ok flow, s') := by
  rw [runFrom]
  simp only [hi, hlimit, Bool.false_eq_true, if_false]
  rw [Exec.bind_eq, stepAt, h]
  rfl

/-- Outside all regions an error ends the run. -/
theorem runFrom_error {x : RunError} (h : m.exec env fuel i s = some (.error x, s')) :
    m.runFrom env (fuel + 1) steps ⟨b, pc, []⟩ s = some (.error x, s') := by
  rw [runFrom]
  simp only [hi, hlimit, Bool.false_eq_true, if_false]
  rw [Exec.bind_eq, stepAt, h]
  cases x <;> rfl

/-- A run that never ends in an instruction never ends. -/
theorem runFrom_none (h : m.exec env fuel i s = none) :
    m.runFrom env (fuel + 1) steps ⟨b, pc, []⟩ s = none := by
  rw [runFrom]
  simp only [hi, hlimit, Bool.false_eq_true, if_false]
  rw [Exec.bind_eq, stepAt, h]

end

/-- A generator ends once its body has been evaluated. -/
theorem runFrom_exit (first : List Instr) {elide : Bool}
    (hfirst : ∀ i ∈ first, i.isLabel (.state 1) = false)
    (hb : b.instrs = (first ++ Lambda.exitInstrs elide).toArray)
    (hlimit : ∀ k < 3, limitReached m.limit (steps + k) = false) (hd : d.success = false) :
    m.runFrom env (fuel + 3) steps ⟨b, first.length, []⟩ (d, w) =
      some (.ok (.complete .unit), (d, w)) := by
  have hget (k : Nat) : b.instrs[first.length + k]? = (Lambda.exitInstrs elide)[k]? := by
    rw [hb, List.getElem?_toArray, List.getElem?_append_right (Nat.le_add_right _ _),
      Nat.add_sub_cancel_left]
  have hget₀ : b.instrs[first.length]? = (Lambda.exitInstrs elide)[0]? := hget 0
  have hlimit₀ : limitReached m.limit steps = false := hlimit 0 (by decide)
  have hlimit₁ := hlimit 1 (by decide)
  have hbreak (fuel : Nat) :
      m.exec env fuel .yieldBreak (d, w) = some (.ok (.stop (.complete .unit)), (d, w)) := by
    change some (Except.ok _, ({ d with success := false }, w)) = _
    rw [← hd]
  cases elide with
  | true => rw [runFrom_advance hget₀ hlimit₀ rfl, runFrom_stop (hget 1) hlimit₁ (hbreak _)]
  | false =>
    have hnone : first.findIdx? (·.isLabel (.state 1)) = none :=
      List.findIdx?_eq_none_iff.2 hfirst
    have hpos : b.position? (.state 1) = some (first.length + 1) := by
      rw [Block.position?, hb, List.findIdx?_toArray, List.findIdx?_append, hnone, Option.none_or,
        Nat.add_comm]
      rfl
    rw [runFrom_jump hget₀ hlimit₀ rfl hpos, runFrom_advance (hget 1) hlimit₁ rfl,
      runFrom_stop (hget 2) (hlimit 2 (by decide)) (hbreak _)]

/-- Evaluating an expression that is not left by a jump, and going on with its value. -/
theorem evalThen_eq {e : CompiledExpr} {ev : Option (Except RunError Value × World σ)}
    (hev : evaluate env m.limit fuel e.code d.scopes w = ev.map fun (r, w') => (r.map .value, w'))
    (next : Value → Exec σ Next) : m.evalThen env fuel e next (d, w) =
      ev.bind fun
        | (.ok v, w') => next v (d, w')
        | (.error x, w') => some (.error x, (d, w')) := by
  have heval : m.eval env fuel e (d, w) = ev.map fun (r, w') => (r.map .value, (d, w')) := by
    rw [eval, Exec.bind_ok (show durably (d, w) = some (.ok d, (d, w)) from rfl), Exec.bind_eq]
    simp only [hev]
    rcases ev with _ | ⟨_ | v, w'⟩ <;> rfl
  rw [evalThen, Exec.bind_eq, heval]
  rcases ev with _ | ⟨_ | v, w'⟩ <;> rfl

section

variable {l : Lambda} {o : Options} {ev : Option (Except RunError Value × World σ)}
  (hm : m.program = l.wholeProgram (l.wholeInstrs o code))
  (hlimit : ∀ k < 5, limitReached m.limit k = false)
  (hev : evaluate env m.limit (fuel + 3) code d.scopes w =
    ev.map fun (r, w') => (r.map .value, w'))
include hm hlimit hev

/-- The run of a body that is not a generator's. -/
theorem runFrom_whole (hkind : l.kind ≠ .generator) :
    m.runFrom env (fuel + 5) 0 ⟨m.program.entry, 0, []⟩ (d, w) =
      ev.map fun (r, w') => (r.map .complete, (d, w')) := by
  have hb : m.program.entry.instrs = #[.label (.state 0), .finish (some ⟨l.body, code⟩)] := by
    rw [hm, Lambda.wholeProgram, Lambda.wholeInstrs]
    split
    · contradiction
    · rfl
  have hfirst : m.program.entry.instrs[0]? = some (.label (.state 0)) := by rw [hb]; rfl
  have hsecond : m.program.entry.instrs[0 + 1]? = some (.finish (some ⟨l.body, code⟩)) := by
    rw [hb]
    rfl
  have hlimit₁ := hlimit (0 + 1) (by decide)
  have hexec := evalThen_eq (e := ⟨l.body, code⟩) hev fun v => pure (.stop (.complete v))
  rw [runFrom_advance hfirst (hlimit 0 (by decide)) rfl]
  rcases ev with _ | ⟨_ | v, w'⟩
  · exact runFrom_none hsecond hlimit₁ hexec
  · exact runFrom_error hsecond hlimit₁ hexec
  · exact runFrom_stop hsecond hlimit₁ hexec

/-- The run of a generator's body. -/
theorem runFrom_generator (hkind : l.kind = .generator) (hleaf : l.body.isPureLeaf = false)
    (hd : d.success = false) : m.runFrom env (fuel + 5) 0 ⟨m.program.entry, 0, []⟩ (d, w) =
      ev.map fun (r, w') => (r.map fun _ => .complete .unit, (d, w')) := by
  have hb : m.program.entry.instrs = ([Instr.label (.state 0), .eval ⟨l.body, code⟩] ++
      Lambda.exitInstrs o.fallthroughElision).toArray := by
    rw [hm, Lambda.wholeProgram, Lambda.wholeInstrs, hkind]
    simp [Lambda.bodyInstrs, hleaf]
  have hfirst : m.program.entry.instrs[0]? = some (.label (.state 0)) := by rw [hb]; rfl
  have hsecond : m.program.entry.instrs[0 + 1]? = some (.eval ⟨l.body, code⟩) := by rw [hb]; rfl
  have hlimit₁ := hlimit (0 + 1) (by decide)
  have hexec := evalThen_eq (e := ⟨l.body, code⟩) hev fun _ => pure .advance
  rw [runFrom_advance hfirst (hlimit 0 (by decide)) rfl]
  rcases ev with _ | ⟨_ | v, w'⟩
  · exact runFrom_none hsecond hlimit₁ hexec
  · exact runFrom_error hsecond hlimit₁ hexec
  · rw [runFrom_advance hsecond hlimit₁ hexec]
    exact runFrom_exit [_, _] (by simp [Instr.isLabel]) hb
      (fun k hk => hlimit (2 + k) (by omega)) hd

omit hev in
/-- The body of a generator that only gives a value is left out. -/
theorem runFrom_leaf (hkind : l.kind = .generator) (hleaf : l.body.isPureLeaf = true)
    (hd : d.success = false) : m.runFrom env (fuel + 5) 0 ⟨m.program.entry, 0, []⟩ (d, w) =
      some (.ok (.complete .unit), (d, w)) := by
  have hb : m.program.entry.instrs = ((if o.optimize then [] else [Instr.label (.state 0)]) ++
      Lambda.exitInstrs (o.fallthroughElision || o.optimize)).toArray := by
    rw [hm, Lambda.wholeProgram, Lambda.wholeInstrs, hkind]
    simp [Lambda.bodyInstrs, hleaf]
  cases ho : o.optimize with
  | true =>
    rw [ho] at hb
    exact runFrom_exit [] nofun hb (fun k hk => hlimit (0 + k) (by omega)) hd
  | false =>
    rw [ho] at hb
    have hfirst : m.program.entry.instrs[0]? = some (.label (.state 0)) := by rw [hb]; rfl
    rw [runFrom_advance hfirst (hlimit 0 (by decide)) rfl]
    exact runFrom_exit [_] (by simp [Instr.isLabel]) hb (fun k hk => hlimit (1 + k) (by omega)) hd

/-- The run of a body without suspend points ends as evaluating the body does. Five instructions
are enough, three of them after the body. -/
theorem runFrom_body (henv : env.Tame) (h : code.StandsAlone d.scopes w) (hd : d.success = false)
    (hbuild : Code.build resolve false l.body = .ok code) :
    m.runFrom env (fuel + 5) 0 ⟨m.program.entry, 0, []⟩ (d, w) =
      ev.map fun (r, w') => (r.map fun v => .complete (l.kind.result v), (d, w')) := by
  by_cases hkind : l.kind = .generator
  · have hresult (v : Value) : l.kind.result v = .unit := if_pos hkind
    simp only [hresult]
    cases hleaf : l.body.isPureLeaf with
    | true =>
      rw [runFrom_leaf hm hlimit hkind hleaf hd]
      obtain ⟨v, hv⟩ : ∃ v, evaluate env m.limit (fuel + 3) code d.scopes w =
          some (.ok (.value v), w) :=
        h.evaluate_leaf henv hleaf hbuild (hlimit 0 (by decide))
      rw [hv] at hev
      rcases ev with _ | ⟨_ | v, w'⟩ <;> cases hev
      rfl
    | false => exact runFrom_generator hm hlimit hev hkind hleaf hd
  · have hresult (v : Value) : l.kind.result v = v := if_neg hkind
    simp only [hresult]
    exact runFrom_whole hm hlimit hev hkind

end

/-- A fresh machine of a body without suspend points evaluates the body. -/
theorem evaluates {l : Lambda} {o : Options} {code : Code}
    (hm : m.program = l.wholeProgram (l.wholeInstrs o code))
    (hlimit : ∀ k < 5, limitReached m.limit k = false) (henv : env.Tame) {χ : Chain}
    (h : code.StandsAlone χ w) (hfresh : m.durable = { scopes := χ })
    (hbuild : Code.build resolve false l.body = .ok code) :
    (Machine.compiled m).Evaluates env l.kind m.limit code χ w := by
  let d : Durable := { scopes := χ }
  have hresume (fuel : Nat) (ev : Option (Except RunError Value × World σ))
      (hev : evaluate env m.limit (fuel + 3) code χ w =
        ev.map fun x => (x.1.map .value, x.2)) :
      m.resume env (fuel + 5) w = ev.map fun x =>
        (((x.1.map l.kind.result).map .completed, m.withDurable { d with state := doneState }),
          x.2) := by
    -- a new machine runs its entry block from the first instruction
    have hrun : m.resume env (fuel + 5) w =
        (m.runFrom env (fuel + 5) 0 ⟨m.program.entry, 0, []⟩ (d, w)).map
          fun x => (m.settle x.2.1 x.1, x.2.2) := by
      rw [resume, isCompleted, hfresh]
      rfl
    have hkind : m.program.kind = l.kind := by rw [hm]; rfl
    rw [hrun, runFrom_body (d := d) hm hlimit hev henv h rfl hbuild]
    rcases ev with _ | ⟨x | v, w'⟩
    · rfl
    · rfl
    · simp only [Option.map_some, Except.map, settle, hkind]
      unfold LambdaKind.result
      cases l.kind <;> rfl
  constructor
  -- the compiled machine needs a few instructions around the body, hence more fuel
  · intro fuel r w' hev
    have hev := evaluate_mono env m.limit (Nat.le_add_right fuel 3) hev
    refine ⟨fuel + 5, .compiled (m.withDurable { d with state := doneState }), ?_, rfl⟩
    rw [Machine.resume, hresume fuel (some (r, w')) hev]
    rfl
  · intro fuel s m' w' hrun
    obtain ⟨⟨⟨s₁, m₁⟩, w₁⟩, hrun, heq⟩ := Option.map_eq_some_iff.1 hrun
    have hrun := resume_mono env (Nat.le_add_right fuel 5) m hrun
    obtain ⟨ev, hev⟩ : ∃ ev : Option (Except RunError Value × World σ),
        evaluate env m.limit (fuel + 3) code χ w = ev.map fun x => (x.1.map .value, x.2) :=
      h.evaluate_eq henv
    rw [hresume fuel ev hev] at hrun
    obtain ⟨⟨r, w₂⟩, rfl, hr⟩ := Option.map_eq_some_iff.1 hrun
    cases hr
    cases heq
    exact ⟨rfl, fuel + 3, r, rfl, hev⟩

end CompiledMachine

/-! ## Both engines -/

/-- The code of a body without suspend points stands on its own over the arguments. -/
theorem Lambda.standsAlone {l : Lambda} {facts : Facts} (hcheck : l.check = .ok facts)
    (hplain : l.body.suspends = false) {code : Code}
    (hbuild : Code.build resolve false l.body = .ok code) {args : List Value}
    (hargs : args.length = l.params.length) {w : World σ} (hw : w.Sound) :
    code.StandsAlone [w.scopes.size] (w.newScope (.ofArgs l.params args)).2 := by
  refine ⟨(hw.newScope _).sound, _,
    (Code.build_sound ((l.check_fits hcheck).2.plain hplain) hbuild).mono fun _ hl =>
      Bool.false_ne_true hl.1, rfl, rfl, ?_⟩
  rintro i hi
  refine ⟨w.scopes.size, List.mem_singleton.2 rfl, ?_⟩
  rw [World.scope_newScope, if_pos rfl, Scope.contains_ofArgs hargs.symm]
  obtain ⟨x, hx, rfl⟩ := List.mem_map.1 (show i ∈ l.params.map Var.id from hi)
  exact decide_eq_true (List.mem_map_of_mem hx)

/-- A lambda is made into a machine by both engines, or by none of them. -/
theorem Lambda.compile_or_prepare {l : Lambda} (hplain : l.body.suspends = false)
    (hlabel : ∀ target fallback, l.body ≠ .label target fallback) (resolve : Expr.Resolver)
    (o : Options) :
    (∃ e, l.compile resolve o = .error e ∧ l.prepare resolve = .error e) ∨
    ∃ facts c code, l.check = .ok facts ∧ Code.build resolve false l.body = .ok code ∧
      l.compile resolve o = .ok c ∧ c.program = l.wholeProgram (l.wholeInstrs o code) ∧
      l.prepare resolve = .ok ⟨l.displayName, l.kind, l.params, code⟩ := by
  cases hcheck : l.check with
  | error e =>
    refine .inl ⟨e, ?_, ?_⟩
    · rw [compile, lower, hcheck]
      rfl
    · rw [prepare, hcheck]
      rfl
  | ok facts =>
    have hprogram := program_compile resolve hcheck hplain hlabel o
    have hprepare : l.prepare resolve = (Code.build resolve false l.body).map fun code =>
        ⟨l.displayName, l.kind, l.params, code⟩ := by
      rw [prepare, hcheck]
      cases Code.build resolve false l.body <;> rfl
    -- both engines build the same code, so they fail with the same error
    cases hcode : Code.build resolve false l.body with
    | error e =>
      rw [hcode] at hprogram hprepare
      refine .inl ⟨e, ?_, hprepare⟩
      cases hc : l.compile resolve o with
      | error e' => rw [hc] at hprogram; cases hprogram; rfl
      | ok c => rw [hc] at hprogram; cases hprogram
    | ok code =>
      rw [hcode] at hprogram hprepare
      cases hc : l.compile resolve o with
      | error e => rw [hc] at hprogram; cases hprogram
      | ok c =>
        rw [hc] at hprogram
        exact .inr ⟨facts, c, code, rfl, rfl, rfl, Except.ok.inj hprogram, hprepare⟩

/-- A lambda without suspend points of its own, unless its body is a label, is the same for both
engines. They accept the same lambdas and refuse the others with the same error. Machines made from
the same arguments in the same world end with their first resumption, with the same value or error
and in the same world, whatever a tame host does: so they also call the host alike. A step limit
that leaves room for the instructions around the body stops both of them at the same point, hence
runs that do not end agree as far as they go. -/
theorem Lambda.engines_agree {l : Lambda} (hplain : l.body.suspends = false)
    (hlabel : ∀ target fallback, l.body ≠ .label target fallback) (resolve : Expr.Resolver)
    (o : Options) :
    (l.compile resolve o).map (fun _ => ()) = (l.prepare resolve).map (fun _ => ()) ∧
    ∀ (σ : Type) (env : Env σ) (w : World σ) (args : List Value), env.Tame → w.Sound →
      (∀ n, o.stepLimit = some n → 5 ≤ n) →
      (∃ e, l.launch .compiled resolve o args w = .error e ∧
        l.launch .interpreted resolve o args w = .error e) ∨
      ∃ m m' w₁, l.launch .compiled resolve o args w = .ok (m, w₁) ∧
        l.launch .interpreted resolve o args w = .ok (m', w₁) ∧
        m.NeverPauses env w₁ ∧ m'.NeverPauses env w₁ ∧
        ∀ r w₂, m.Completes env w₁ r w₂ ↔ m'.Completes env w₁ r w₂ := by
  obtain ⟨e, hc, hp⟩ | ⟨facts, c, code, hcheck, hbuild, hc, hprogram, hp⟩ :=
    compile_or_prepare hplain hlabel resolve o
  · refine ⟨by rw [hc, hp]; rfl, fun σ env w args _ _ _ => .inl ⟨.build e, ?_, ?_⟩⟩
    · rw [launch, hc]
    · rw [launch, hp]
  · refine ⟨by rw [hc, hp]; rfl, fun σ env w args henv hw hlimit => ?_⟩
    -- the instructions around the body are within the limit
    have hsteps (k : Nat) (hk : k < 5) : limitReached o.stepLimit k = false := by
      cases hn : o.stepLimit with
      | none => rfl
      | some n => exact decide_eq_false (Nat.not_le.2 (hk.trans_le (hlimit n hn)))
    have hcompiled : l.launch .compiled resolve o args w =
        (CompiledMachine.new c.program o.stepLimit args w).map fun x => (.compiled x.1, x.2) := by
      rw [launch, hc]
    have hparams : c.program.params = l.params := by rw [hprogram]; rfl
    have hvars : c.program.vars = [] := by rw [hprogram]; rfl
    have hinterpreted : l.launch .interpreted resolve o args w =
        (InterpretedMachine.new ⟨l.displayName, l.kind, l.params, code⟩ o.stepLimit args w).map
          fun x => (.interpreted x.1, x.2) := by
      rw [launch, hp]
    -- both ask for one argument for each parameter, and bind them alike
    by_cases hargs : args.length = l.params.length
    · have hcode := standsAlone hcheck hplain hbuild hargs hw
      have hm := CompiledMachine.evaluates (m := ⟨c.program, o.stepLimit, _⟩) hprogram hsteps henv
        hcode rfl hbuild
      have hm' := InterpretedMachine.evaluates henv hcode l.displayName l.kind o.stepLimit
      refine .inr ⟨_, _, _, ?_, ?_, hm.neverPauses, hm'.neverPauses, fun r w₂ => ?_⟩
      · rw [hcompiled, CompiledMachine.new, hparams, hvars, if_neg (not_not.2 hargs)]
        rfl
      · rw [hinterpreted, InterpretedMachine.new, if_neg (not_not.2 hargs)]
        rfl
      · rw [hm.completes_iff, hm'.completes_iff]
    · refine .inl ⟨.arity l.params.length args.length, ?_, ?_⟩
      · rw [hcompiled, CompiledMachine.new, hparams, if_pos hargs]
        rfl
      · rw [hinterpreted, InterpretedMachine.new, if_pos hargs]
        rfl

/-- A lambda that jumps out of a protected body and of a scope that hides its variable, and then
calls a closure over that variable. -/
def Lambda.windingPath : Lambda :=
  let x : Var := ⟨1, "x"⟩
  let out : Label := ⟨0, some "out"⟩
  ⟨none, .async, [⟨0, "n"⟩], .block [x] [
    .assign x (.constant (.int 1)),
    .tryCatch
      (.block [x] [.assign x (.constant (.int 5)), .goto .toLabel out none])
      [⟨.any, none, .unit⟩] (some (.assign x (.binary .add (.var x) (.constant (.int 10))))),
    .assign x .unit,
    .label out none,
    .invoke (.lambda ⟨none, .sync, [⟨2, "y"⟩], .binary .add (.var x) (.var ⟨2, "y"⟩)⟩)
      [.var ⟨0, "n"⟩]]⟩

/-- Both engines run it to the same value. -/
theorem Lambda.windingPath_engines_agree : ∃ m m' w₁ w₂,
    windingPath.launch .compiled .tasks {} [.int 31] World.pending = .ok (m, w₁) ∧
    windingPath.launch .interpreted .tasks {} [.int 31] World.pending = .ok (m', w₁) ∧
    m.Completes .bare w₁ (.ok (.int 42)) w₂ ∧ m'.Completes .bare w₁ (.ok (.int 42)) w₂ := by
  have hrun : ((windingPath.launch .interpreted .tasks {} [.int 31] World.pending).toOption.bind
      fun x => (x.1.resume Env.bare 64 x.2).map fun y =>
        (y.1.1.toOption, y.1.2.isCompleted)) = some (some (.completed (.int 42)), true) := by
    cbv
  obtain ⟨⟨m₀, w₀⟩, hlaunch, hrun⟩ := bind_toOption_eq_some hrun
  obtain ⟨⟨⟨r, m₁⟩, w₂⟩, hresume, heq⟩ := Option.map_eq_some_iff.1 hrun
  obtain ⟨-, hagree⟩ := engines_agree (l := windingPath) rfl (fun _ _ h => by cases h) .tasks {}
  obtain ⟨e, -, he⟩ | ⟨m, m', w₁, hm, hm', -, -, hiff⟩ :=
    hagree Unit .bare World.pending [.int 31] Env.bare_tame (.of_empty rfl) (by simp)
  · rw [hlaunch] at he
    cases he
  · rw [hlaunch] at hm'
    cases hm'
    injection heq with hr hdone
    have hr : r = _ := eq_ok_of_toOption hr
    have hends : m₀.Completes .bare w₀ (.ok (.int 42)) w₂ :=
      ⟨64, m₁, by rw [hresume, hr]; rfl, hdone⟩
    exact ⟨m, m₀, w₀, w₂, hm, hlaunch, (hiff _ _).2 hends, hends⟩

end Coroutine
