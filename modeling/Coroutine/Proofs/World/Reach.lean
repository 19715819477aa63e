import Mathlib
import Coroutine.Machine.Basic

/-!
# What can be reached

Scopes hold closures, and closures hold the chains they captured. `World.Reaches w roots` follows
these references, which may go round in circles, from some objects on. The objects that a machine
refers to itself are its roots: those of its scope chain, frames, saved chains, results, pending
transfer, current value and suspension.
-/

namespace Coroutine

variable {σ : Type}

/-- A scope or a closure. -/
inductive Object where
  | scope (id : Nat)
  | closure (id : Nat)

/-! ## References -/

/-- The closure that a value may be. -/
def Value.objects : Value → List Object
  | .closure f => [.closure f.id]
  | _ => []

/-- The scopes of a chain. -/
def Chain.objects (c : Chain) : List Object := c.map .scope

def Transfer.objects : Transfer → List Object
  | .jump j => j.value.objects
  | .throw _ => []
  | .exit v => v.objects

def Phase.objects : Phase → List Object
  | .inCleanup (.value v) => v.objects
  | .inCleanup (.abrupt t) => t.objects
  | .awaiting v => v.objects
  | _ => []

def Frame.objects (f : Frame) : List Object := f.phase.objects ++ f.saved.toList.flatMap Chain.objects

def Suspension.objects (s : Suspension) : List Object := s.awaiter.objects

def Context.objects (c : Context) : List Object :=
  Chain.objects c.scopes ++ c.frames.flatMap Frame.objects ++ c.results.flatMap Value.objects ++
    c.control.toList.flatMap Transfer.objects ++ c.current.objects ++
    c.suspension.toList.flatMap Suspension.objects

def Durable.objects (d : Durable) : List Object :=
  Chain.objects d.scopes ++ d.current.objects ++ d.suspension.toList.flatMap Suspension.objects

/-- The objects that a machine refers to. -/
def Machine.objects : Machine → List Object
  | .compiled m => m.durable.objects
  | .interpreted m => m.context.objects

/-! ## Reachability -/

namespace World

variable {w w' : World σ} {roots : List Object} {o o' : Object}

/-- Whether an object is there. -/
def Has (w : World σ) : Object → Prop
  | .scope s => s < w.scopes.size
  | .closure f => f < w.closures.size

/-- The objects that an object refers to. -/
def contents (w : World σ) : Object → List Object
  | .scope s => (w.scope s).bindings.flatMap fun b => b.2.objects
  | .closure f => Chain.objects (w.closure f).captured

/-- The objects that can be reached from some roots. -/
inductive Reaches (w : World σ) (roots : List Object) : Object → Prop
  | root {o : Object} (h : o ∈ roots) : Reaches w roots o
  | next {o o' : Object} (h : Reaches w roots o) (ho : o' ∈ w.contents o) : Reaches w roots o'

/-- Only what can be reached matters for what can be reached. -/
theorem Reaches.congr (hsame : ∀ o, w.Reaches roots o → w'.contents o = w.contents o) :
    w'.Reaches roots o ↔ w.Reaches roots o := by
  constructor
  · intro h
    induction h with
    | root h => exact .root h
    | next _ ho ih => exact .next ih (hsame _ ih ▸ ho)
  · intro h
    induction h with
    | root h => exact .root h
    | next h ho ih => exact .next ih ((hsame _ h).symm ▸ ho)

/-- If the roots of two worlds correspond, and the contents of objects that do, then all that can be
reached corresponds to something that can be reached. -/
theorem Reaches.corresponds {R : Object → Object → Prop} {roots' : List Object}
    (hroots : List.Forall₂ R roots roots')
    (hcontents : ∀ o o', R o o' → List.Forall₂ R (w.contents o) (w'.contents o'))
    (h : w.Reaches roots o) : ∃ o', R o o' ∧ w'.Reaches roots' o' := by
  have hmem : ∀ {l l' : List Object}, List.Forall₂ R l l' → ∀ o ∈ l, ∃ o' ∈ l', R o o' := by
    intro l l' hl o ho
    obtain ⟨i, hi, rfl⟩ := List.getElem_of_mem ho
    have hi' : i < l'.length := hl.length_eq ▸ hi
    exact ⟨l'[i], List.getElem_mem hi', hl.get hi hi'⟩
  induction h with
  | root h =>
    obtain ⟨o', ho', hR⟩ := hmem hroots _ h
    exact ⟨o', hR, .root ho'⟩
  | next _ ho ih =>
    obtain ⟨o₁, hR, hreach⟩ := ih
    obtain ⟨o', ho', hR'⟩ := hmem (hcontents _ _ hR) _ ho
    exact ⟨o', hR', .next hreach ho'⟩

end World

end Coroutine
