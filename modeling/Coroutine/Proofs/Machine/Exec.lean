import Mathlib
import Coroutine.Proofs.Machine.Instructions
import Coroutine.Proofs.Program.Labels

/-!
# What instructions do

`Exec.Ensures m s Q` says that a part of a machine's run, started in the state `s`, ends with `Q` if
it ends at all, be it with a result or with an error. From its rules follows what an instruction does
to the durable state, and what may come after it (`exec_effect`). Jumps and exceptions that leave a
block do not touch the durable state.
-/

namespace Coroutine

variable {σ α β : Type}

/-- A part of a run is followed by the next one if it gives a result. -/
theorem Exec.bind_eq (m : Exec σ α) (f : α → Exec σ β) (s : Durable × World σ) : (m >>= f) s =
    match m s with
    | some (.ok a, s') => f a s'
    | some (.error e, s') => some (.error e, s')
    | none => none := by
  change StateT.bind m _ s = _
  rw [StateT.bind]
  rcases m s with _ | ⟨_ | a, s'⟩ <;> rfl

/-- What follows a part that gives a value goes on with this value. -/
theorem Exec.bind_ok {m : Exec σ α} {f : α → Exec σ β} {s s' : Durable × World σ} {a : α}
    (h : m s = some (.ok a, s')) : (m >>= f) s = f a s' := by
  rw [Exec.bind_eq, h]

/-- If a part of a run ends, its outcome and the state it leaves have a property. -/
def Exec.Ensures (m : Exec σ α) (s : Durable × World σ)
    (Q : Except RunError α → Durable × World σ → Prop) : Prop :=
  ∀ r s', m s = some (r, s') → Q r s'

namespace Exec.Ensures

variable {m : Exec σ α} {s : Durable × World σ} {d : Durable} {w : World σ}
  {Q R : Except RunError α → Durable × World σ → Prop}

/-- What is ensured may be weakened. -/
theorem mono (h : Exec.Ensures m s Q) (hQR : ∀ r s', Q r s' → R r s') : Exec.Ensures m s R :=
  fun r s' hm => hQR r s' (h r s' hm)

/-- A value is the result, and nothing has changed. -/
theorem pure {a : α} (h : Q (.ok a) s) : Exec.Ensures (pure a : Exec σ α) s Q := by
  intro r s' hm
  cases hm
  exact h

/-- An error is the result, and nothing has changed. -/
theorem throw {e : RunError} (h : Q (.error e) s) : Exec.Ensures (throw e : Exec σ α) s Q := by
  intro r s' hm
  cases hm
  exact h

/-- The second part runs from wherever the first one leads; an error of the first ends both. -/
theorem bind {f : α → Exec σ β} {R : Except RunError β → Durable × World σ → Prop}
    (h : Exec.Ensures m s fun r s' =>
      match r with
      | .ok a => Exec.Ensures (f a) s' R
      | .error e => R (.error e) s') : Exec.Ensures (m >>= f) s R := by
  intro r s' hm
  rw [Exec.bind_eq] at hm
  rcases hrun : m s with _ | ⟨e | a, s₁⟩
  · rw [hrun] at hm
    cases hm
  · rw [hrun] at hm
    cases hm
    exact h _ _ hrun
  · rw [hrun] at hm
    exact h _ _ hrun r s' hm

/-- What is ensured of a changed result is ensured of the result, changed. -/
theorem map {f : α → β} {R : Except RunError β → Durable × World σ → Prop}
    (h : Exec.Ensures m s fun r s' => R (r.map f) s') : Exec.Ensures (f <$> m) s R := by
  rw [map_eq_pure_bind]
  refine .bind (h.mono fun r s' hr => ?_)
  cases r with
  | ok a => exact .pure hr
  | error e => exact hr

/-- Looking at the state changes nothing. -/
theorem get {R : Except RunError (Durable × World σ) → Durable × World σ → Prop}
    (h : R (.ok s) s) : Exec.Ensures (MonadState.get : Exec σ (Durable × World σ)) s R := by
  intro r s' hm
  cases hm
  exact h

/-- Looking at the durable state changes nothing. -/
theorem durably {R : Except RunError Durable → Durable × World σ → Prop} (h : R (.ok d) (d, w)) :
    Exec.Ensures CompiledMachine.durably (d, w) R := by
  intro r s' hm
  cases hm
  exact h

/-- Changing the durable state leaves the world alone. -/
theorem modifyDurable {f : Durable → Durable}
    {R : Except RunError Unit → Durable × World σ → Prop} (h : R (.ok ()) (f d, w)) :
    Exec.Ensures (CompiledMachine.modifyDurable f) (d, w) R := by
  intro r s' hm
  cases hm
  exact h

/-- A call of the host gives a value or throws, and leaves the durable state alone. -/
theorem perform {e : Effect σ α} (hok : ∀ a w', e w = (.ok a, w') → Q (.ok a) (d, w'))
    (herror : ∀ x w', e w = (.error x, w') → Q (.error (.thrown x)) (d, w')) :
    Exec.Ensures (CompiledMachine.perform e) (d, w) Q := by
  intro r s' hm
  unfold CompiledMachine.perform at hm
  simp only at hm
  split at hm
  · rename_i a w' he
    cases hm
    exact hok a w' he
  · rename_i x w' he
    cases hm
    exact herror x w' he

/-- A variable is found along the chain, or the run fails. -/
theorem read {x : Var} {R : Except RunError Value → Durable × World σ → Prop}
    (hsome : ∀ v, w.lookup d.scopes x.word = some v → R (.ok v) (d, w))
    (hnone : w.lookup d.scopes x.word = none → R (.error (.unboundVariable x.name)) (d, w)) :
    Exec.Ensures (CompiledMachine.read x) (d, w) R := by
  refine .bind (.get ?_)
  simp only
  split
  · rename_i v hv
    exact .pure (hsome v hv)
  · rename_i hv
    exact .throw (hnone hv)

/-- A variable is assigned along the chain, or the run fails. -/
theorem write {x : Var} {v : Value} {R : Except RunError Unit → Durable × World σ → Prop}
    (htrue : ∀ w', w.assign d.scopes x.word v = (true, w') → R (.ok ()) (d, w'))
    (hfalse : ∀ w', w.assign d.scopes x.word v = (false, w') →
      R (.error (.unboundVariable x.name)) (d, w')) :
    Exec.Ensures (CompiledMachine.write x v) (d, w) R := by
  intro r s' hm
  unfold CompiledMachine.write at hm
  simp only at hm
  split at hm
  · rename_i w' he
    cases hm
    exact htrue w' he
  · rename_i w' he
    cases hm
    exact hfalse w' he

end Exec.Ensures

namespace CompiledMachine

variable {x : Var} {v : Value} {d : Durable} {w : World σ}

/-- Reading a variable that is found. -/
theorem read_eq (h : w.lookup d.scopes x.word = some v) :
    (read x : Exec σ Value) (d, w) = some (.ok v, (d, w)) := by
  have hget : (get : Exec σ (Durable × World σ)) (d, w) = some (.ok (d, w), (d, w)) := rfl
  rw [read, Exec.bind_ok hget]
  simp only [h]
  rfl

/-- Writing a variable that is found. -/
theorem write_eq (h : (w.assign d.scopes x.word v).1 = true) :
    (write x v : Exec σ Unit) (d, w) = some (.ok (), (d, (w.assign d.scopes x.word v).2)) := by
  rcases hassign : w.assign d.scopes x.word v with ⟨r, w'⟩
  rw [hassign] at h
  obtain rfl : r = true := h
  simp only [write, hassign]

end CompiledMachine

/-! ## What comes after an instruction -/

namespace CompiledMachine

/-- The targets that expressions may jump to. -/
def Escapes (m : CompiledMachine) (target : Target) : Prop :=
  ∃ label slot, m.program.labels.lookup label = some slot ∧ slot.target = target

/-- What may come after an instruction. -/
inductive Follows (m : CompiledMachine) : Instr → Next → Prop
  | advance {i : Instr} (h : i.advances = true) : Follows m i .advance
  | jump {i : Instr} {target : Target} (h : target ∈ i.targets) : Follows m i (.jump target)
  | escape {i : Instr} {target : Target} (hi : i.exprs ≠ []) (h : m.Escapes target) :
      Follows m i (.jump target)
  | suspend (kind : SuspendKind) : Follows m (.suspend kind) (.stop (.suspend kind))
  | complete {i : Instr} (v : Value) : Follows m i (.stop (.complete v))
  | enter (r : TryRegion) : Follows m (.region r) (.enter r)

variable (env : Env σ) (fuel : Nat) (m : CompiledMachine)

/-- A part of an instruction's run that ends has changed the stored state only to the one that the
instruction stores, and has left the chain as it was. -/
def Marks (i : Instr) (x : Exec σ α) (s : Durable × World σ) (P : α → Prop) : Prop :=
  Exec.Ensures x s fun r s' => s'.1.scopes = s.1.scopes ∧
    (s'.1.state = s.1.state ∨ s'.1.state ∈ i.stored?) ∧ ∀ a, r = .ok a → P a

namespace Marks

variable {i : Instr} {s : Durable × World σ} {P : α → Prop}

/-- A value marks nothing. -/
theorem pure {a : α} (h : P a) : Marks i (Pure.pure a : Exec σ α) s P := by
  refine Exec.Ensures.pure ⟨rfl, .inl rfl, fun b hb => ?_⟩
  cases hb
  exact h

/-- An error marks nothing. -/
theorem throw {e : RunError} : Marks i (throw e : Exec σ α) s P :=
  Exec.Ensures.throw ⟨rfl, .inl rfl, nofun⟩

/-- What two parts mark one after the other is what either of them marks. -/
theorem bind {x : Exec σ α} {f : α → Exec σ β} {Q : β → Prop} (h : Marks i x s P)
    (hf : ∀ a s', P a → Marks i (f a) s' Q) : Marks i (x >>= f) s Q := by
  refine Exec.Ensures.bind (h.mono ?_)
  rintro (e | a) s' ⟨hscopes, hstate, hP⟩
  · exact ⟨hscopes, hstate, nofun⟩
  · refine (hf a s' (hP a rfl)).mono ?_
    rintro r s'' ⟨hscopes', hstate', hQ⟩
    refine ⟨hscopes'.trans hscopes, ?_, hQ⟩
    rcases hstate' with hstate' | hstate'
    · rw [hstate']
      exact hstate
    · exact .inr hstate'

/-- A call of the host marks nothing. -/
theorem perform (e : Effect σ α) : Marks i (CompiledMachine.perform e) s fun _ => True :=
  Exec.Ensures.perform (fun _ _ _ => ⟨rfl, .inl rfl, fun _ _ => trivial⟩) fun _ _ _ =>
    ⟨rfl, .inl rfl, fun _ _ => trivial⟩

/-- Writing a variable marks nothing. -/
theorem write (x : Var) (v : Value) :
    Marks i (CompiledMachine.write x v : Exec σ Unit) s fun _ => True :=
  Exec.Ensures.write (fun _ _ => ⟨rfl, .inl rfl, fun _ _ => trivial⟩) fun _ _ =>
    ⟨rfl, .inl rfl, fun _ _ => trivial⟩

end Marks

/-- What the parts of an instruction's run mark, and where its expressions jump to. -/
def marking (i : Instr) : Exec.Logic env fuel m where
  Runs pre x s P := pre → Marks i x s P
  expr e := e ∈ i.exprs
  lands t := t ∈ i.targets ∨ i.exprs ≠ [] ∧ m.Escapes t
  stores c := c ∈ i.stored?
  ret h hpre := .pure (h hpre)
  fail _ _ := .throw
  bind h hf hpre := (h hpre).bind fun a s' ha => hf a s' ⟨hpre, ha⟩
  evaluate {pre s e χ} he _ hpre r s' h := by
    obtain ⟨⟨r', w'⟩, -, heq⟩ := Option.map_eq_some_iff.1 h
    cases heq
    refine ⟨rfl, .inl rfl, fun a _ => ?_⟩
    cases a <;> trivial
  lands_escape he _ hslot := .inr ⟨List.ne_nil_of_mem he, _, _, hslot, rfl⟩
  read _ _ := Exec.Ensures.read (fun _ _ => ⟨rfl, .inl rfl, fun _ _ => trivial⟩) fun _ =>
    ⟨rfl, .inl rfl, fun _ _ => trivial⟩
  write _ _ := .write _ _
  durably _ := Exec.Ensures.durably ⟨rfl, .inl rfl, fun _ _ => trivial⟩
  update hf _ := Exec.Ensures.modifyDurable ⟨hf.scopes, hf.state, fun _ _ => trivial⟩
  asException _ _ := .perform _
  getAwaiter _ _ _ _ := .perform _
  isCompleted _ _ _ := .perform _
  getResult _ _ _ := .perform _

/-- An instruction marks the state that it stores, and leads to where its form lets it. -/
theorem exec_marks (i : Instr) (s : Durable × World σ) :
    Marks i (m.exec env fuel i) s (i.Leads (marking env fuel m i).lands) :=
  (marking env fuel m i).exec (fun _ _ he => he) (fun _ _ => trivial) (fun _ _ => trivial)
    (fun _ hc => hc) (fun _ ht => .inl ht) trivial

/-- What comes after an instruction follows from its form. -/
theorem exec_follows (i : Instr) (s : Durable × World σ) :
    Exec.Ensures (m.exec env fuel i) s fun r _ => ∀ next, r = .ok next → m.Follows i next := by
  refine (exec_marks env fuel m i s).mono fun r s' h next hnext => ?_
  cases h.2.2 next hnext with
  | advance h => exact .advance h
  | jump h =>
    rcases h with h | ⟨hi, h⟩
    · exact .jump h
    · exact .escape hi h
  | suspend kind => exact .suspend kind
  | complete v => exact .complete v
  | enter r => exact .enter r

/-- The only instruction that stores a state is the one made for it. -/
theorem exec_durable (i : Instr) (d : Durable) (w : World σ) :
    Exec.Ensures (m.exec env fuel i) (d, w) fun _ s' =>
      s'.1.state = i.stored?.getD d.state ∧ s'.1.scopes = d.scopes := by
  cases i with
  | setState state => exact .bind (.modifyDurable (.pure ⟨rfl, rfl⟩))
  | _ => exact (exec_marks env fuel m _ (d, w)).mono fun r s' h => ⟨h.2.1.resolve_right nofun, h.1⟩

/-! ## Leaving a block -/

include env fuel m in
/-- A jump out of a block keeps the state and lands behind a region around. -/
theorem leaveTo_lands (target : Target) (enc : List Enclosing) (d : Durable) (w : World σ) :
    Exec.Ensures (leaveTo target enc) (d, w) fun r s' => s'.1.state = d.state ∧
      ∀ p, r = .ok p → LandsIn enc p :=
  ((marking env fuel m (.goto target)).leaveTo target (fun _ _ => trivial) (fun _ => trivial)
    trivial).mono fun _ _ h => ⟨h.2.1.resolve_right nofun, h.2.2⟩

include env fuel m in
/-- An exception keeps the state and lands behind a region around. -/
theorem catchIn_lands (x : Exception) (enc : List Enclosing) (d : Durable) (w : World σ) :
    Exec.Ensures (catchIn x enc) (d, w) fun r s' => s'.1.state = d.state ∧
      ∀ p, r = .ok p → LandsIn enc p :=
  ((marking env fuel m .yieldBreak).catchIn x (fun _ _ => ⟨trivial, trivial⟩) trivial).mono
    fun _ _ h => ⟨h.2.1.resolve_right nofun, h.2.2⟩

include env fuel m in
/-- Where control goes on after an instruction. -/
theorem proceed_goes (p : Position) (next : Next) (s : Durable × World σ) :
    Exec.Ensures (proceed p next) s fun r _ => ∀ q, r = .ok (.inl q) → p.Goes next q :=
  ((marking env fuel m (.setState startState)).proceed next (fun _ _ => trivial) rfl
    (fun _ => trivial) trivial).mono fun _ _ h q hq => h.2.2 _ hq q rfl

/-! ## Steps -/

/-- Parking a machine throws nothing. -/
theorem exec_parks {i : Instr} (hi : i.parks = true ∨ i.isParking = true)
    (s : Durable × World σ) :
    Exec.Ensures (m.exec env fuel i) s fun r _ => ∀ e, r ≠ .error (.thrown e) := by
  obtain ⟨d, w⟩ := s
  cases i with
  | setState state => exact .bind (.modifyDurable (.pure nofun))
  | register awaiter binder =>
    exact .bind (.read (fun v _ => .bind (.modifyDurable (.pure nofun))) fun _ => nofun)
  | suspend kind => exact .pure nofun
  | _ => rcases hi with hi | hi <;> cases hi

/-- One step of a run: the instruction, and where control goes on after it. -/
theorem stepAt_ensures {p : Position} {i : Instr} {s : Durable × World σ}
    {Q : Except RunError (Position ⊕ Flow) → Durable × World σ → Prop}
    (hnext : ∀ next s', m.exec env fuel i s = some (.ok next, s') →
      Exec.Ensures (proceed p next) s' Q)
    (hthrown : ∀ e s', m.exec env fuel i s = some (.error (.thrown e), s') →
      Exec.Ensures (catchIn e p.enclosing) s' fun r s'' => Q (r.map .inl) s'')
    (herror : ∀ e s', m.exec env fuel i s = some (.error e, s') → Q (.error e) s') :
    Exec.Ensures (m.stepAt env fuel p i) s Q := by
  intro r s' h
  unfold stepAt at h
  split at h
  · rename_i next s₁ hexec
    exact hnext next s₁ hexec r s' h
  · rename_i e s₁ hexec
    exact (Exec.Ensures.map (hthrown e s₁ hexec)) r s' h
  · rename_i e s₁ _ hexec
    cases h
    exact herror e s' hexec
  · cases h

end CompiledMachine

end Coroutine
