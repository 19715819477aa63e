import Coroutine.World.Basic
import Coroutine.RunError

/-!
# Effects

What host functions and await protocols do: they change the world, give a value, and may throw.
A thrown exception keeps the changes made before it.
-/

namespace Coroutine

/-- An effect on the world that may throw. -/
abbrev Effect (σ : Type) := ExceptT Exception (StateM (World σ))

/-- A part of a run: an effect on the world that may end the run. -/
abbrev Run (σ : Type) := ExceptT RunError (StateM (World σ))

namespace Effect

variable {σ α : Type}

/-- Performs an effect on a world. -/
def perform (e : Effect σ α) (w : World σ) : Except Exception α × World σ := e w

/-- Throws a fault as a new exception. -/
def raise (f : Fault) : Effect σ α := fun w =>
  let (e, w) := w.raise f
  (.error e, w)

/-- Changes the world and gives a value. -/
def act (f : World σ → α × World σ) : Effect σ α := fun w =>
  let (a, w) := f w
  (.ok a, w)

/-- Gives a value that depends on the world. -/
def look (f : World σ → α) : Effect σ α := fun w => (.ok (f w), w)

/-- A computation that fails by a fault. -/
def ofFault (r : Except Fault α) : Effect σ α :=
  match r with
  | .ok a => pure a
  | .error f => raise f

end Effect

/-- The exception that throwing a value amounts to: itself, or a new one. -/
def World.asException {σ : Type} (w : World σ) : Value → Exception × World σ
  | .exception e => (e, w)
  | v => w.raise v.asFault

namespace Run

variable {σ α : Type}

/-- Changes the world and gives a value. -/
def act (f : World σ → α × World σ) : Run σ α := fun w =>
  let (a, w) := f w
  (.ok a, w)

/-- Gives a value that depends on the world. -/
def look (f : World σ → α) : Run σ α := fun w => (.ok (f w), w)

/-- Performs an effect; what it throws is left to the caller. -/
def attempt (e : Effect σ α) : Run σ (Except Exception α) := fun w =>
  let (r, w) := e w
  (.ok r, w)

/-- Performs an effect; what it throws ends the run. -/
def escalate (e : Effect σ α) : Run σ α := fun w =>
  match e w with
  | (.ok a, w) => (.ok a, w)
  | (.error e, w) => (.error (.thrown e), w)

/-- A part of a run that fails by a construction error. -/
def ofBuild (r : Except BuildError α) : Run σ α :=
  match r with
  | .ok a => pure a
  | .error e => throw (.build e)

end Run

end Coroutine
