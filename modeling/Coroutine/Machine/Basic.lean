import Coroutine.Machine.Interpreted
import Coroutine.World.Copy

/-!
# Machines

A running lambda, compiled or interpreted. Both kinds are used alike: a machine is resumed until it
completes, and when it suspends, its suspension says what it waits for.
-/

namespace Coroutine

/-- A machine. -/
inductive Machine where
  | compiled (m : CompiledMachine)
  | interpreted (m : InterpretedMachine)

namespace Machine

variable {σ : Type}

/-- Resumes a machine. -/
def resume (env : Env σ) (fuel : Nat) (m : Machine) (w : World σ) :
    Option ((Except RunError Status × Machine) × World σ) :=
  match m with
  | .compiled m => (m.resume env fuel w).map fun ((r, m), w) => ((r, .compiled m), w)
  | .interpreted m => (m.resume env fuel w).map fun ((r, m), w) => ((r, .interpreted m), w)

/-- Whether a machine has completed. -/
def isCompleted : Machine → Bool
  | .compiled m => m.isCompleted
  | .interpreted m => m.completed

/-- The last value that a machine yielded. -/
def current : Machine → Value
  | .compiled m => m.durable.current
  | .interpreted m => m.context.current

/-- What a machine waits for. -/
def suspension : Machine → Option Suspension
  | .compiled m => m.durable.suspension
  | .interpreted m => m.context.suspension

/-- A machine whose suspension has been taken. -/
def withoutSuspension : Machine → Machine
  | .compiled m => .compiled { m with durable := { m.durable with suspension := none } }
  | .interpreted m => .interpreted { m with context := { m.context with suspension := none } }

/-- Takes the suspension of a machine. -/
def takeSuspension (m : Machine) : Option Suspension × Machine :=
  (m.suspension, m.withoutSuspension)

/-- Overwrites the state that a compiled machine is resumed at. -/
def setState (state : Int) : Machine → Machine
  | .compiled m => .compiled { m with durable := { m.durable with state } }
  | m => m

/-! ## Forks -/

/-- Copies a durable state. -/
def copyDurable (copyScope : Nat → Copying σ Nat) (d : Durable) : Copying σ Durable := do
  let scopes ← Copying.chain copyScope d.scopes
  let current ← Copying.value copyScope d.current
  let suspension ← Copying.optional (Suspension.copy copyScope) d.suspension
  return { d with scopes, current, suspension }

/-- Copies a machine. -/
def copy (copyScope : Nat → Copying σ Nat) : Machine → Copying σ Machine
  | .compiled m => do return .compiled { m with durable := ← copyDurable copyScope m.durable }
  | .interpreted m => do return .interpreted { m with context := ← m.context.copy copyScope }

/-- A copy of a machine that goes on independently. -/
def fork (m : Machine) (w : World σ) : Machine × World σ :=
  match (m.copy (Copying.scope (w.scopes.size + 1))).run { world := w } with
  | some (m, copies) => (m, copies.world)
  | none => (m, w)

end Machine

end Coroutine
