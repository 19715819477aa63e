import Coroutine.Host.Effect
import Coroutine.Text.Quoted

/-!
# Host functions

The functions that programs can call by name.
-/

namespace Coroutine

/-- A function of the host. -/
abbrev HostFunction (σ : Type) := List Value → Effect σ Value

/-- Host functions by name. -/
structure Functions (σ : Type) where
  entries : List (String × HostFunction σ) := []

namespace Functions

variable {σ : Type}

/-- Registers a function, in place of the one before of the same name. -/
def register (t : Functions σ) (name : String) (f : HostFunction σ) : Functions σ :=
  ⟨(name, f) :: t.entries.filter (·.1 != name)⟩

/-- A function by its name. -/
def get? (t : Functions σ) (name : String) : Option (HostFunction σ) := t.entries.lookup name

/-- Calls a function; a name that is not registered throws. -/
def call (t : Functions σ) (name : String) (args : List Value) : Effect σ Value :=
  match t.get? name with
  | some f => f args
  | none => Effect.raise ⟨"ReferenceError", "function `" ++ name ++ "` is not defined"⟩

/-- The registered names, in order. -/
def names (t : Functions σ) : List String :=
  (t.entries.map Prod.fst).mergeSort fun a b => !(b < a)

/-- A summary of the table. -/
def text (t : Functions σ) : String :=
  "FunctionTable \x7b functions: " ++ quotedList t.names ++ " \x7d"

end Functions

end Coroutine
