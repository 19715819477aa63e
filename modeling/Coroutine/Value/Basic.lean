import Coroutine.Number.Decimal
import Coroutine.Json.Basic

/-!
# Values

What expressions evaluate to. Integers are 64-bit words. Exceptions, tasks and closures are
objects with an identity: a value refers to one by its number, and two of them are equal only if
they are the same object. What an object contains beyond its name lives in the world the program
runs in, so values are plain data and may stand in trees as constants.
-/

namespace Coroutine

/-- What is wrong: a kind for handlers to select by, and a message. -/
structure Fault where
  kind : String
  message : String
deriving DecidableEq, Repr, Inhabited

/-- Kind and message in one line. -/
def Fault.text (f : Fault) : String := f.kind ++ ": " ++ f.message

/-- The fault of an operand of the wrong type. -/
def Fault.typeError (message : String) : Fault := ⟨"TypeError", message⟩

/-- The fault of an operation at the wrong time. -/
def Fault.invalidOperation (message : String) : Fault := ⟨"InvalidOperation", message⟩

/-- A fault that was raised once: an object with the identity `id`. -/
structure Exception extends Fault where
  id : Nat
deriving DecidableEq, Repr, Inhabited

/-- A reference to a closure by its identity; the name is that of its lambda. -/
structure ClosureRef where
  id : Nat
  name : String
deriving DecidableEq, Repr, Inhabited

/-- A value. Tasks are numbered from zero in the order of their creation. -/
inductive Value where
  | unit
  | bool (b : Bool)
  | int (i : Int64)
  | float (x : Float)
  | str (s : String)
  | exception (e : Exception)
  | task (index : Nat)
  | closure (c : ClosureRef)
deriving DecidableEq, Repr

instance : Inhabited Value := ⟨.unit⟩

/-- How an operation that may throw ends. -/
abbrev Outcome := Except Exception Value

namespace Value

/-- Whether a value counts as true in tests and logical operators. -/
def truthy : Value → Bool
  | .unit => false
  | .bool b => b
  | .int i => i != 0
  | .float x => x != 0
  | .str s => s != ""
  | .exception _ | .task _ | .closure _ => true

/-- The name of a value's type. -/
def typeName : Value → String
  | .unit => "unit"
  | .bool _ => "bool"
  | .int _ => "int"
  | .float _ => "float"
  | .str _ => "string"
  | .exception _ => "exception"
  | .task _ => "task"
  | .closure _ => "closure"

/-- The integer in a value. -/
def int? : Value → Option Int64
  | .int i => some i
  | _ => none

/-- The double nearest to an integer, ties to even. -/
def floatOfInt (i : Int64) : Float := Float.ofInt i.toInt

/-- A number as a double. -/
def float? : Value → Option Float
  | .int i => some (floatOfInt i)
  | .float x => some x
  | _ => none

/-- Equality as programs see it: numbers compare by value across the two number types, objects by
identity, and NaN differs from itself. -/
def same : Value → Value → Bool
  | .unit, .unit => true
  | .bool a, .bool b => a == b
  | .int a, .int b => a == b
  | .float a, .float b => a == b
  | .int a, .float b => floatOfInt a == b
  | .float a, .int b => floatOfInt b == a
  | .str a, .str b => a == b
  | .exception a, .exception b => a.id == b.id
  | .task a, .task b => a == b
  | .closure a, .closure b => a.id == b.id
  | _, _ => false

/-- The text of a value. -/
def text : Value → String
  | .unit => "()"
  | .bool b => if b then "true" else "false"
  | .int i => toString i.toInt
  | .float x => floatText x
  | .str s => s
  | .exception e => e.toFault.text
  | .task index => "<task #" ++ toString (index + 1) ++ ">"
  | .closure c => "<closure " ++ c.name ++ ">"

/-- What throwing a value that is no exception amounts to. -/
def asFault (v : Value) : Fault := ⟨"Error", v.text⟩

end Value

end Coroutine
