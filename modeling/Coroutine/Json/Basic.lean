import Coroutine.Number.Numeral

/-!
# JSON documents

A document as a tree. Objects keep the order of their fields and every repetition of a name, so
that a reader of records can tell a repeated field from a single one.
-/

namespace Coroutine

/-- A JSON document. -/
inductive Json where
  | null
  | bool (b : Bool)
  | number (n : Number)
  | string (s : String)
  | array (items : List Json)
  | object (fields : List (String × Json))
deriving Inhabited

namespace Json

/-- An integer as a document. -/
def int (i : Int) : Json := .number (.int i)

/-- A natural number as a document. -/
def nat (n : Nat) : Json := .number (.int n)

/-- The document of an optional value; an absent one is `null`. -/
def ofOption {α : Type} (f : α → Json) : Option α → Json
  | none => .null
  | some a => f a

/-- The documents of a list, as an array. -/
def ofList {α : Type} (f : α → Json) (as : List α) : Json := .array (as.map f)

mutual

/-- How deep arrays and objects nest. -/
def depth : Json → Nat
  | .array items => 1 + listDepth items
  | .object fields => 1 + fieldsDepth fields
  | _ => 0

/-- The depth of the deepest document of a list. -/
def listDepth : List Json → Nat
  | [] => 0
  | j :: js => max (depth j) (listDepth js)

/-- The depth of the deepest field. -/
def fieldsDepth : List (String × Json) → Nat
  | [] => 0
  | (_, j) :: fs => max (depth j) (fieldsDepth fs)

end

end Json

end Coroutine
