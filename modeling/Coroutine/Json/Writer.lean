import Coroutine.Json.Basic
import Coroutine.Number.Decimal

/-!
# Writing JSON text

`Json.compress` writes a document on one line without blanks. Doubles are written with the fewest
digits that read back, in a form that never reads as an integer; a double that is no number is
`null`.
-/

namespace Coroutine.Json

/-- One character of a string. -/
def charText (c : Char) : String :=
  match c with
  | '"' => "\\\""
  | '\\' => "\\\\"
  | '\n' => "\\n"
  | '\r' => "\\r"
  | '\t' => "\\t"
  | c =>
    if c.toNat < 0x20 then
      let ds := Nat.toDigits 16 c.toNat
      "\\u" ++ String.ofList (List.replicate (4 - ds.length) '0' ++ ds)
    else c.toString

/-- A string between quotes. -/
def stringText (s : String) : String :=
  "\"" ++ String.join (s.toList.map charText) ++ "\""

/-- A number. -/
def numberText : Number → String
  | .int i => toString i
  | .float x =>
    match Binary.ofFloat? x with
    | some b => (if b.negative then "-" else "") ++ b.shortest.scientific
    | none => "null"

mutual

/-- A document on one line. -/
def compress : Json → String
  | .null => "null"
  | .bool b => if b then "true" else "false"
  | .number n => numberText n
  | .string s => stringText s
  | .array items => "[" ++ compressItems "" items ++ "]"
  | .object fields => "\x7b" ++ compressFields "" fields ++ "\x7d"

/-- The items of an array, each after a separator; the first one after `before`. -/
def compressItems (before : String) : List Json → String
  | [] => ""
  | j :: js => before ++ compress j ++ compressItems "," js

/-- The fields of an object, each after a separator; the first one after `before`. -/
def compressFields (before : String) : List (String × Json) → String
  | [] => ""
  | (name, j) :: fs => before ++ stringText name ++ ":" ++ compress j ++ compressFields "," fs

end

end Coroutine.Json
