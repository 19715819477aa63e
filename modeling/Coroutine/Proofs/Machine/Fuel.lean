import Mathlib
import Coroutine.Proofs.Machine.Events

/-!
# More fuel

Running out of fuel is `none`, apart from every way in which a run can end. A run that ends does so
with the same outcome for any larger amount of fuel: `iterate_mono` for the interpreter, `resume_mono`
for the machines. `Exec.Le` compares parts of a run that differ in their fuel only.
-/

namespace Coroutine

variable {σ α β : Type} {w : World σ}

/-! ## The interpreter -/

/-- An iteration that ends does so with more fuel: by induction on the fuel. -/
theorem iterate_mono (env : Env σ) (mode : LambdaKind) (limit : Option Nat) {fuel fuel' : Nat}
    (hfuel : fuel ≤ fuel') {steps : Nat} {c : Context} {x : Ended σ (Halt × Context)}
    (h : iterate env mode limit fuel steps c w = some x) :
    iterate env mode limit fuel' steps c w = some x := by
  induction fuel generalizing fuel' steps c w with
  | zero => cases h
  | succ fuel ih =>
    obtain ⟨fuel', rfl⟩ : ∃ k, fuel' = k + 1 := ⟨fuel' - 1, by omega⟩
    rw [iterate] at h ⊢
    split
    · rename_i hlimit
      rwa [if_pos hlimit] at h
    · rename_i hlimit
      rw [if_neg hlimit] at h
      split at h
      · exact ih (Nat.le_of_succ_le_succ hfuel) h
      · exact h
      · exact h

/-- An evaluation that ends does so with more fuel. -/
theorem evaluate_mono (env : Env σ) (limit : Option Nat) {fuel fuel' : Nat} (hfuel : fuel ≤ fuel')
    {code : Code} {scopes : Chain} {x : Ended σ Evaluation}
    (h : evaluate env limit fuel code scopes w = some x) :
    evaluate env limit fuel' code scopes w = some x := by
  obtain ⟨y, hy, rfl⟩ := Option.map_eq_some_iff.1 h
  refine Option.map_eq_some_iff.2 ⟨y, ?_, rfl⟩
  unfold start at hy ⊢
  split at hy
  · rename_i c w' henter
    exact iterate_mono env _ limit hfuel hy
  · exact hy

/-! ## Parts of a run -/

/-- Whatever one part of a run ends with, the other one ends with, too. -/
def Exec.Le (x y : Exec σ α) : Prop := ∀ s r, x s = some r → y s = some r

namespace Exec.Le

/-- A part of a run is done as far as itself. -/
theorem refl (x : Exec σ α) : Exec.Le x x := fun _ _ h => h

/-- With more fuel, parts one after the other end alike. -/
theorem bind {x y : Exec σ α} {f g : α → Exec σ β} (hxy : Exec.Le x y)
    (hfg : ∀ a, Exec.Le (f a) (g a)) : Exec.Le (x >>= f) (y >>= g) := by
  intro s r h
  rw [Exec.bind_eq] at h ⊢
  rcases hx : x s with _ | ⟨e | a, s₁⟩
  · rw [hx] at h
    cases h
  · rw [hxy s _ hx]
    rwa [hx] at h
  · rw [hxy s _ hx]
    rw [hx] at h
    exact hfg a s₁ r h

end Exec.Le

namespace CompiledMachine

variable (env : Env σ) {fuel fuel' : Nat} (hfuel : fuel ≤ fuel') (m : CompiledMachine)
include hfuel

/-- With more fuel, an expression ends alike. -/
theorem eval_le (e : CompiledExpr) : Exec.Le (m.eval env fuel e) (m.eval env fuel' e) := by
  refine .bind (.refl _) fun d => .bind ?_ fun r => .refl _
  rintro ⟨d', w⟩ x h
  obtain ⟨y, hy, rfl⟩ := Option.map_eq_some_iff.1 h
  exact Option.map_eq_some_iff.2 ⟨y, evaluate_mono env m.limit hfuel hy, rfl⟩

/-- With more fuel, an instruction ends alike. -/
theorem exec_le (i : Instr) : Exec.Le (m.exec env fuel i) (m.exec env fuel' i) := by
  have hR : Traced.Congruence fun α (x y : Traced σ α) => Exec.Le x.run y.run :=
    ⟨fun _ _ => .refl _, fun hxy hfg => hxy.bind hfg⟩
  have heval (e : CompiledExpr) : Exec.Le (m.evalT env fuel e).run (m.evalT env fuel' e).run := by
    rw [evalT_run, evalT_run]
    exact eval_le env hfuel m e
  have hexec : Exec.Le (m.execT env fuel i).run (m.execT env fuel' i).run :=
    execT_congr hR heval (fun _ _ _ => .refl _) (fun _ _ => .refl _) (fun _ _ => .refl _) i
  rwa [execT_run, execT_run] at hexec

/-- With more fuel, a step ends alike. -/
theorem stepAt_le (p : Position) (i : Instr) :
    Exec.Le (m.stepAt env fuel p i) (m.stepAt env fuel' p i) := by
  intro s r h
  unfold stepAt at h ⊢
  cases hx : m.exec env fuel i s with
  | none => rw [hx] at h; cases h
  | some rs =>
    rw [hx] at h
    rw [exec_le env hfuel m i s rs hx]
    exact h

/-- With more fuel, a run ends alike: by induction on the steps. -/
theorem runFrom_le (steps : Nat) (p : Position) :
    Exec.Le (m.runFrom env fuel steps p) (m.runFrom env fuel' steps p) := by
  induction fuel generalizing fuel' steps p with
  | zero => intro s r h; cases h
  | succ fuel ih =>
    obtain ⟨fuel', rfl⟩ : ∃ k, fuel' = k + 1 := ⟨fuel' - 1, by omega⟩
    have hle := Nat.le_of_succ_le_succ hfuel
    unfold runFrom
    split
    · exact .refl _
    · split
      · exact .refl _
      · refine .bind (stepAt_le env hle m p _) fun next => ?_
        cases next with
        | inl p' => exact ih hle (steps + 1) p'
        | inr flow => exact .refl _

/-- A resumption that ends does so for any larger amount of fuel. -/
theorem resume_mono {x : (Except RunError Status × CompiledMachine) × World σ}
    (h : m.resume env fuel w = some x) : m.resume env fuel' w = some x := by
  unfold resume at h ⊢
  split
  · rename_i hdone
    rwa [if_pos hdone] at h
  · rename_i hdone
    rw [if_neg hdone] at h
    obtain ⟨y, hy, rfl⟩ := Option.map_eq_some_iff.1 h
    refine Option.map_eq_some_iff.2 ⟨y, ?_, rfl⟩
    exact Exec.Le.bind (.refl _) (fun pc => runFrom_le env hfuel m 0 _) _ _ hy

end CompiledMachine

/-- With more fuel, a resumption of an interpreted machine ends alike. -/
theorem InterpretedMachine.resume_mono (env : Env σ) {fuel fuel' : Nat} (hfuel : fuel ≤ fuel')
    {m : InterpretedMachine} {x : (Except RunError Status × InterpretedMachine) × World σ}
    (h : m.resume env fuel w = some x) : m.resume env fuel' w = some x := by
  unfold resume at h ⊢
  split at h
  · rename_i hdone
    rwa [if_pos hdone]
  · rename_i hdone
    rw [if_neg hdone]
    obtain ⟨y, hy, rfl⟩ := Option.map_eq_some_iff.1 h
    refine Option.map_eq_some_iff.2 ⟨y, ?_, rfl⟩
    split at hy
    · rename_i hstarted
      rw [if_pos hstarted]
      exact iterate_mono env _ _ hfuel hy
    · rename_i hstarted
      rw [if_neg hstarted]
      unfold start at hy ⊢
      split at hy
      · exact iterate_mono env _ _ hfuel hy
      · exact hy

/-- A resumption that ends under some amount of fuel does so for any larger one. -/
theorem Machine.resume_mono (env : Env σ) {fuel fuel' : Nat} (hfuel : fuel ≤ fuel') {m : Machine}
    {x : (Except RunError Status × Machine) × World σ} (h : m.resume env fuel w = some x) :
    m.resume env fuel' w = some x := by
  cases m with
  | compiled m =>
    obtain ⟨y, hy, rfl⟩ := Option.map_eq_some_iff.1 h
    exact congrArg (Option.map _) (CompiledMachine.resume_mono env hfuel m hy)
  | interpreted m =>
    obtain ⟨y, hy, rfl⟩ := Option.map_eq_some_iff.1 h
    exact congrArg (Option.map _) (InterpretedMachine.resume_mono env hfuel hy)

end Coroutine
