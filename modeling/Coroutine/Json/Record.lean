import Coroutine.Json.Basic
import Coroutine.Number.Power

/-!
# Records and choices in documents

How a document holds a record: as an object, in which unknown names are ignored and no known name
may be repeated, or as the array of its fields in order, from which trailing fields may be
missing. How it holds one of several names: as a string, or as an object with that one name and
`null`.

A `Decoder` also counts the exception objects it makes, so that each one gets an identity of its
own.
-/

namespace Coroutine

/-- A reader of documents; the state is the number of exception objects made so far. -/
abbrev Decoder := StateT Nat Option

namespace Json

/-- The document of a field, if it is there; a repeated field is an error. -/
def field? (fields : List (String × Json)) (name : String) : Option (Option Json) :=
  match fields.filter (·.1 == name) with
  | [] => some none
  | [(_, j)] => some (some j)
  | _ => none

/-- The fields of a record with the given names, in their order; an absent one is `none`. -/
def record? (names : List String) : Json → Option (List (Option Json))
  | .object fields => names.mapM (field? fields)
  | .array items =>
    if items.length ≤ names.length then
      some (items.map some ++ List.replicate (names.length - items.length) none)
    else none
  | _ => none

/-- One of several named things. -/
def choice? {α : Type} (table : List (String × α)) (j : Json) : Option α :=
  match j with
  | .string s => table.lookup s
  | .object [(s, .null)] => table.lookup s
  | _ => none

/-- A string. -/
def string? : Json → Option String
  | .string s => some s
  | _ => none

/-- A truth value. -/
def bool? : Json → Option Bool
  | .bool b => some b
  | _ => none

/-- A natural number below `2 ^ width`. -/
def nat? (width : Nat) : Json → Option Nat
  | .number (.int i) => if 0 ≤ i ∧ i.toNat < twoPow width then some i.toNat else none
  | _ => none

/-- A signed 64-bit integer. -/
def int? : Json → Option Int
  | .number (.int i) => if i ≤ Int64.maxValue.toInt then some i else none
  | _ => none

/-- The items of an array. -/
def array? : Json → Option (List Json)
  | .array items => some items
  | _ => none

/-- An item of an array. -/
def item? (j : Json) (i : Nat) : Option Json := j.array?.bind (·[i]?)

/-- A field of an object. -/
def get? (j : Json) (name : String) : Option Json :=
  match j with
  | .object fields => fields.lookup name
  | _ => none

/-- Something that may be `null`. -/
def orNull? {α : Type} (read : Json → Option α) : Json → Option (Option α)
  | .null => some none
  | j => (read j).map some

end Json

namespace Decoder

/-- A reader that makes no exceptions. -/
def lift {α : Type} (o : Option α) : Decoder α := StateT.lift o

/-- A field that must be there. -/
def required {α : Type} (read : Json → Decoder α) : Option Json → Decoder α
  | some j => read j
  | none => failure

/-- A field that has a default when it is missing. -/
def withDefault {α : Type} (d : α) (read : Json → Decoder α) : Option Json → Decoder α
  | some j => read j
  | none => pure d

/-- A field that may be missing or `null`. -/
def optional {α : Type} (read : Json → Decoder α) : Option Json → Decoder (Option α)
  | none | some .null => pure none
  | some j => some <$> read j

/-- A document that must be there, and may be `null`. -/
def nullable {α : Type} (read : Json → Decoder α) : Option Json → Decoder (Option α)
  | none => failure
  | some .null => pure none
  | some j => some <$> read j

/-- Every item of an array. -/
def listOf {α : Type} (read : Json → Decoder α) : Json → Decoder (List α)
  | .array items => items.mapM read
  | _ => failure

/-- Runs a reader that has made no exceptions yet. -/
def run? {α : Type} (d : Decoder α) : Option (α × Nat) := StateT.run d 0

end Decoder

end Coroutine
