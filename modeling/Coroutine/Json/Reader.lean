import Coroutine.Json.Basic

/-!
# Reading JSON text

`Json.parse room text` reads a whole text as one document in which arrays and objects nest at most
`room` deep. The readers below take the characters still to be read and return what they found
with the rest; those that recurse take fuel, and one unit per character suffices because every
call reads at least one.
-/

namespace Coroutine.Json

/-- The characters that may stand between tokens. -/
def isBlank (c : Char) : Bool := c = ' ' || c = '\n' || c = '\t' || c = '\r'

/-- Drops leading blanks. -/
def skipBlanks (cs : List Char) : List Char := cs.dropWhile isBlank

/-- The value of a hexadecimal digit. -/
def hexDigit? (c : Char) : Option Nat :=
  if '0' ≤ c ∧ c ≤ '9' then some (c.toNat - '0'.toNat)
  else if 'a' ≤ c ∧ c ≤ 'f' then some (c.toNat - 'a'.toNat + 10)
  else if 'A' ≤ c ∧ c ≤ 'F' then some (c.toNat - 'A'.toNat + 10)
  else none

/-- The value of four hexadecimal digits. -/
def hexUnit? (a b c d : Char) : Option Nat := do
  return ((← hexDigit? a) * 16 + (← hexDigit? b)) * 256 + (← hexDigit? c) * 16 + (← hexDigit? d)

/-- The character that a backslash and `c` stand for. -/
def shortEscape? (c : Char) : Option Char :=
  match c with
  | '"' => some '"'
  | '\\' => some '\\'
  | '/' => some '/'
  | 'b' => some '\x08'
  | 'f' => some '\x0c'
  | 'n' => some '\n'
  | 'r' => some '\r'
  | 't' => some '\t'
  | _ => none

/-- The character of a code unit that is no half of a pair. -/
def unitChar? (u : Nat) : Option Char :=
  if 0xd800 ≤ u ∧ u < 0xe000 then none else some (Char.ofNat u)

/-- The character of a pair of code units. -/
def pairChar? (u v : Nat) : Option Char :=
  if 0xd800 ≤ u ∧ u < 0xdc00 ∧ 0xdc00 ≤ v ∧ v < 0xe000 then
    some (Char.ofNat (0x10000 + (u - 0xd800) * 0x400 + (v - 0xdc00)))
  else none

/-- Reads the rest of a string after its opening quote; `acc` holds the characters so far, last
first. Characters outside the basic plane are written as two escaped code units, and half a pair
is no character. -/
def readString (acc : List Char) : List Char → Option (String × List Char)
  | [] => none
  | '"' :: cs => some (String.ofList acc.reverse, cs)
  | '\\' :: 'u' :: a :: b :: c :: d :: cs =>
    match hexUnit? a b c d with
    | none => none
    | some u =>
      match unitChar? u with
      | some x => readString (x :: acc) cs
      | none =>
        match cs with
        | '\\' :: 'u' :: e :: f :: g :: h :: cs =>
          match (hexUnit? e f g h).bind (pairChar? u) with
          | some x => readString (x :: acc) cs
          | none => none
        | _ => none
  | '\\' :: c :: cs =>
    match shortEscape? c with
    | some x => readString (x :: acc) cs
    | none => none
  | c :: cs => if c.toNat < 0x20 then none else readString (c :: acc) cs

/-- Splits off a run of digits. -/
def readDigits (cs : List Char) : List Nat × List Char :=
  ((cs.takeWhile Char.isDigit).map fun c => c.toNat - '0'.toNat, cs.dropWhile Char.isDigit)

/-- Reads the digits before the point: a zero alone or digits that do not begin with one. -/
def readWhole (cs : List Char) : Option (List Nat × List Char) :=
  match readDigits cs with
  | ([], _) => none
  | (0 :: _ :: _, _) => none
  | found => some found

/-- Reads a point with its digits, if there is one. -/
def readFraction (cs : List Char) : Option (Option (List Nat) × List Char) :=
  match cs with
  | '.' :: cs =>
    match readDigits cs with
    | ([], _) => none
    | (ds, cs) => some (some ds, cs)
  | cs => some (none, cs)

/-- Reads the digits of an exponent. -/
def readPower (negative : Bool) (cs : List Char) : Option (Option Int × List Char) :=
  match readDigits cs with
  | ([], _) => none
  | (ds, cs) =>
    let e : Int := Numeral.digitsValue ds
    some (some (if negative then -e else e), cs)

/-- Reads an exponent, if there is one. -/
def readExponent (cs : List Char) : Option (Option Int × List Char) :=
  match cs with
  | c :: cs' =>
    if c = 'e' ∨ c = 'E' then
      match cs' with
      | '+' :: cs => readPower false cs
      | '-' :: cs => readPower true cs
      | cs => readPower false cs
    else some (none, cs)
  | [] => some (none, [])

/-- Reads a number. -/
def readNumber (cs : List Char) : Option (Json × List Char) := do
  let (negative, cs) := match cs with
    | '-' :: cs => (true, cs)
    | cs => (false, cs)
  let (whole, cs) ← readWhole cs
  let (fraction, cs) ← readFraction cs
  let (exponent, cs) ← readExponent cs
  let n ← Numeral.value? ⟨negative, whole, fraction, exponent⟩
  return (.number n, cs)

mutual

/-- Reads a document. -/
def readValue : Nat → Nat → List Char → Option (Json × List Char)
  | 0, _, _ => none
  | fuel + 1, room, cs =>
    match skipBlanks cs with
    | 'n' :: 'u' :: 'l' :: 'l' :: cs => some (.null, cs)
    | 't' :: 'r' :: 'u' :: 'e' :: cs => some (.bool true, cs)
    | 'f' :: 'a' :: 'l' :: 's' :: 'e' :: cs => some (.bool false, cs)
    | '"' :: cs => (readString [] cs).map fun (s, cs) => (.string s, cs)
    | '[' :: cs =>
      match room with
      | 0 => none
      | room + 1 =>
        match skipBlanks cs with
        | ']' :: cs => some (.array [], cs)
        | cs => (readItems fuel room cs).map fun (js, cs) => (.array js, cs)
    | '\x7b' :: cs =>
      match room with
      | 0 => none
      | room + 1 =>
        match skipBlanks cs with
        | '\x7d' :: cs => some (.object [], cs)
        | cs => (readFields fuel room cs).map fun (fs, cs) => (.object fs, cs)
    | cs => readNumber cs

/-- Reads the items of an array that has at least one more, and the closing bracket. -/
def readItems : Nat → Nat → List Char → Option (List Json × List Char)
  | 0, _, _ => none
  | fuel + 1, room, cs =>
    match readValue fuel room cs with
    | none => none
    | some (j, cs) =>
      match skipBlanks cs with
      | ']' :: cs => some ([j], cs)
      | ',' :: cs => (readItems fuel room cs).map fun (js, cs) => (j :: js, cs)
      | _ => none

/-- Reads the fields of an object that has at least one more, and the closing brace. -/
def readFields : Nat → Nat → List Char → Option (List (String × Json) × List Char)
  | 0, _, _ => none
  | fuel + 1, room, cs =>
    match skipBlanks cs with
    | '"' :: cs =>
      match readString [] cs with
      | none => none
      | some (name, cs) =>
        match skipBlanks cs with
        | ':' :: cs =>
          match readValue fuel room cs with
          | none => none
          | some (j, cs) =>
            match skipBlanks cs with
            | '\x7d' :: cs => some ([(name, j)], cs)
            | ',' :: cs => (readFields fuel room cs).map fun (fs, cs) => ((name, j) :: fs, cs)
            | _ => none
        | _ => none
    | _ => none

end

/-- Reads a whole text as one document nested at most `room` deep. -/
def parse (room : Nat) (text : String) : Option Json :=
  let cs := text.toList
  match readValue (cs.length + 1) room cs with
  | some (j, rest) => if (skipBlanks rest).isEmpty then some j else none
  | none => none

/-- How deep documents may nest. -/
def nesting : Nat := 127

/-- Reads a whole text as one document. -/
def read (text : String) : Option Json := parse nesting text

end Coroutine.Json
