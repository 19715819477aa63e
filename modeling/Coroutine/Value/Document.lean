import Coroutine.Value.Basic
import Coroutine.Json.Record

/-!
# Values in documents

Unit is `null`, numbers are integers when they fit in 64 bits and doubles otherwise, and an
exception is a record of kind and message. Tasks and closures are objects of a running program and
have no document.
-/

namespace Coroutine

/-- A fault as a document. -/
def Fault.toJson (f : Fault) : Json :=
  .object [("kind", .string f.kind), ("message", .string f.message)]

/-- Reads a fault. -/
def Fault.ofJson? (j : Json) : Option Fault := do
  let [some kind, some message] ← j.record? ["kind", "message"] | none
  return ⟨← kind.string?, ← message.string?⟩

/-- Reads an exception object, which gets an identity of its own. -/
def Exception.decode (j : Json) : Decoder Exception := do
  let f ← Decoder.lift (Fault.ofJson? j)
  let id ← get
  set (id + 1)
  return ⟨f, id⟩

namespace Value

/-- A value as a document; an object of a running program is `null`. -/
def toJson : Value → Json
  | .unit => .null
  | .bool b => .bool b
  | .int i => .int i.toInt
  | .float x => .number (.float x)
  | .str s => .string s
  | .exception e => e.toFault.toJson
  | .task _ | .closure _ => .null

/-- Reads a value. -/
def decode : Json → Decoder Value
  | .null => pure .unit
  | .bool b => pure (.bool b)
  | .number (.int i) =>
    pure (if i ≤ Int64.maxValue.toInt then .int (Int64.ofInt i) else .float (Float.ofInt i))
  | .number (.float x) => pure (.float x)
  | .string s => pure (.str s)
  | j => .exception <$> Exception.decode j

end Value

end Coroutine
