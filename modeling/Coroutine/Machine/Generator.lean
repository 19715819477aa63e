import Coroutine.Machine.Basic

/-!
# Generators

A machine as a sequence of the values that it yields.
-/

namespace Coroutine

/-- A sequence that a machine produces. -/
structure Generator where
  machine : Machine
  current : Value := .unit
  finished : Bool := false

namespace Generator

variable {σ : Type}

/-- The generator after a resumption of its machine, and whether there is a new value. -/
def settle (g : Generator) (m : Machine) : Except RunError Status → Except RunError Bool × Generator
  | .ok (.yielded v) => (.ok true, { g with machine := m, current := v })
  | .ok (.completed _) => (.ok false, { g with machine := m, finished := true })
  | .ok .suspended =>
    (.error (.cannotSuspend .generatorAwaits), { g with machine := m, finished := true })
  | .error e => (.error e, { g with machine := m, finished := true })

/-- Goes on to the next value, if there is one. -/
def moveNext (env : Env σ) (fuel : Nat) (g : Generator) (w : World σ) :
    Option ((Except RunError Bool × Generator) × World σ) :=
  if g.finished then some ((.ok false, g), w)
  else (g.machine.resume env fuel w).map fun ((r, m), w) => (g.settle m r, w)

/-- At most `count` items of the sequence; an error is an item. -/
def take (env : Env σ) (fuel : Nat) :
    Nat → Generator → World σ → Option (List (Except RunError Value) × World σ)
  | 0, _, w => some ([], w)
  | count + 1, g, w =>
    match g.moveNext env fuel w with
    | none => none
    | some ((.ok false, _), w) => some ([], w)
    | some ((.ok true, g), w) =>
      (take env fuel count g w).map fun (items, w) => (.ok g.current :: items, w)
    | some ((.error e, g), w) =>
      (take env fuel count g w).map fun (items, w) => (.error e :: items, w)

end Generator

end Coroutine
