import Mathlib
import Coroutine.Proofs.Lowering.Result
import Coroutine.Proofs.Program.Image

/-!
# Records belong to their regions

Lowering makes two variables for every protected region, one after the other: the first records how
the region was left, the second holds what was thrown in it. `Graph.Tidy` says that nothing else in a
graph assigns such a variable: expressions and states assign variables of the tree, and temporaries
with other names. `Graph.Regular.tidy`: so it is in a regular graph.
-/

namespace Coroutine

namespace Transition

/-- The variables of the region that a transition enters, or whose cleanup it ends. -/
def filed? : Transition → Option (Var × Var)
  | .tryCatch t => some (t.tryState, t.exception)
  | .cleanupExit e => some (e.tryState, e.exception)
  | _ => none

/-- The variables that a transition assigns itself. -/
def written : Transition → List Var
  | .await a => [a.awaiter]
  | .awaitResult a => a.awaiter :: a.result.toList
  | _ => []

end Transition

namespace Graph

variable {g : Graph} {n s : Nat}

/-- The rules that expressions keep to. -/
def rules (g : Graph) (n : Nat) : Rules := ⟨g.Assignable n, True, True⟩

/-- A transition assigns nothing that is kept for records. -/
structure TransitionTidy (g : Graph) (n : Nat) (t : Transition) : Prop where
  obeys : ∀ e ∈ t.exprs, e.Obeys (g.rules n)
  written : ∀ y ∈ t.written, g.Assignable n y.id
  filed : ∀ p ∈ t.filed?, g.Filed n p.1 p.2

/-- A state assigns nothing that is kept for records. -/
structure StateTidy (g : Graph) (n : Nat) (x : State) : Prop where
  expressions : ∀ e ∈ x.expressions, e.Obeys (g.rules n)
  result : ∀ y e, x.result = some (y, e) → g.Assignable n y.id ∧ e.Obeys (g.rules n)
  transition : ∀ t, x.transition = some t → g.TransitionTidy n t

/-- Nothing in a graph assigns what is kept for records. -/
structure Tidy (n : Nat) (g : Graph) : Prop where
  states : ∀ s, g.isLive s = true → g.StateTidy n (g.state s)
  labels : ∀ l b, (l, b) ∈ g.labels → ∀ x ∈ b.var, g.Assignable n x.id

/-- Expressions that can be evaluated keep to the rules. -/
theorem obeys_of_fits {e : Expr} (h : e.Fits (g.setting n)) : e.Obeys (g.rules n) :=
  Expr.Fits.obeys (r := g.rules n) (fun _ hi => hi.elim .inl id) ⟨trivial, trivial⟩ h

theorem TransitionSound.tidy {t : Transition} (h : g.TransitionSound n s t) :
    g.TransitionTidy n t := by
  cases t with
  | goto | loop | yieldBreak => exact ⟨nofun, nofun, nofun⟩
  | conditional => exact ⟨List.forall_mem_singleton.2 (obeys_of_fits h), nofun, nofun⟩
  | switch value arms fallback =>
    refine ⟨List.forall_mem_cons.2 ⟨obeys_of_fits h.1, fun e he => ?_⟩, nofun, nofun⟩
    obtain ⟨a, ha, he⟩ := List.mem_flatMap.1 he
    exact obeys_of_fits (h.2 a ha e he)
  | tryCatch t =>
    refine ⟨nofun, nofun, ?_⟩
    rintro p ⟨⟩
    exact h.filed
  | cleanupExit e =>
    refine ⟨nofun, nofun, ?_⟩
    rintro p ⟨⟩
    exact h.2.1.2
  | await a =>
    exact ⟨List.forall_mem_singleton.2 (obeys_of_fits h.1), List.forall_mem_singleton.2 h.2.1.2, nofun⟩
  | awaitResult a =>
    exact ⟨nofun, List.forall_mem_cons.2 ⟨h.1.2, fun y hy => (h.2 y (Option.mem_toList.1 hy)).2⟩, nofun⟩
  | yieldReturn => exact ⟨List.forall_mem_singleton.2 (obeys_of_fits h.1), nofun, nofun⟩
  | finish value =>
    cases value with
    | none => exact ⟨nofun, nofun, nofun⟩
    | some e => exact ⟨List.forall_mem_singleton.2 (obeys_of_fits h), nofun, nofun⟩

/-- A regular graph is tidy. -/
theorem Regular.tidy (h : g.Regular n) : g.Tidy n := by
  refine ⟨fun s hs => ?_, fun l b hb x hx => ((h.label l b hb).2 x hx).2⟩
  have hsound := h.sound s hs
  refine ⟨fun e he => obeys_of_fits (hsound.expressions e he), fun y e he => ?_, fun t ht =>
    (hsound.transition t ht).tidy⟩
  obtain ⟨hy, hfits⟩ := hsound.result y e he
  exact ⟨hy.2, obeys_of_fits hfits⟩

end Graph

end Coroutine
