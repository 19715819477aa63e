import Coroutine.Json.Reader

/-!
# Settings files

The part of TOML that settings need: comments, tables, and one `key = value` per line, where a
value is a truth value, an integer or a string. Keys may be quoted or dotted. `Toml.parse` gives the
tables as a document; nothing may be defined twice.

The readers of parts of a line take the characters still to be read and return what they found with
the rest.
-/

namespace Coroutine.Toml

/-! ## Parts of a line -/

/-- Whether a character may stand between the parts of a line. -/
def isGap (c : Char) : Bool := c = ' ' || c = '\t'

/-- Drops leading gaps. -/
def skipGaps (cs : List Char) : List Char := cs.dropWhile isGap

/-- Whether a character may stand in a string or a comment. -/
def isPlain (c : Char) : Bool := c = '\t' || (0x20 ≤ c.toNat && c.toNat ≠ 0x7f)

/-- Whether a line ends here, but for a comment. -/
def isEnd (cs : List Char) : Bool :=
  match skipGaps cs with
  | [] => true
  | '#' :: comment => comment.all isPlain
  | _ => false

/-- Whether a character may stand in a key without quotes. -/
def isBare (c : Char) : Bool := c.isAlphanum || c = '_' || c = '-'

/-- The character that a backslash and `c` stand for. -/
def shortEscape? (c : Char) : Option Char :=
  if c = '/' then none else Json.shortEscape? c

/-- The character of a code point. -/
def scalar? (n : Nat) : Option Char :=
  if h : n.isValidChar then some (Char.ofNatAux n h) else none

/-- Reads the rest of a string in double quotes; `acc` holds the characters so far, last first. -/
def readBasic (acc : List Char) : List Char → Option (String × List Char)
  | [] => none
  | '"' :: cs => some (String.ofList acc.reverse, cs)
  | '\\' :: 'u' :: a :: b :: c :: d :: cs =>
    match (Json.hexUnit? a b c d).bind scalar? with
    | some x => readBasic (x :: acc) cs
    | none => none
  | '\\' :: 'U' :: a :: b :: c :: d :: e :: f :: g :: h :: cs =>
    match Json.hexUnit? a b c d, Json.hexUnit? e f g h with
    | some hi, some lo =>
      match scalar? (hi * 0x10000 + lo) with
      | some x => readBasic (x :: acc) cs
      | none => none
    | _, _ => none
  | '\\' :: c :: cs =>
    match shortEscape? c with
    | some x => readBasic (x :: acc) cs
    | none => none
  | c :: cs => if isPlain c then readBasic (c :: acc) cs else none

/-- Reads the rest of a string in single quotes, in which no escapes stand. -/
def readLiteral (cs : List Char) : Option (String × List Char) :=
  match cs.span (fun c => c != '\x27' && isPlain c) with
  | (found, '\x27' :: rest) => some (String.ofList found, rest)
  | _ => none

/-- Reads a key. -/
def readKey (cs : List Char) : Option (String × List Char) :=
  match cs with
  | '"' :: cs => readBasic [] cs
  | '\x27' :: cs => readLiteral cs
  | cs =>
    match cs.span isBare with
    | ([], _) => none
    | (key, rest) => some (String.ofList key, rest)

/-- Reads keys with dots between them; every key takes one unit of fuel. -/
def readPath : Nat → List Char → Option (List String × List Char)
  | 0, _ => none
  | fuel + 1, cs =>
    match readKey (skipGaps cs) with
    | none => none
    | some (key, cs) =>
      match skipGaps cs with
      | '.' :: cs => (readPath fuel cs).map fun (keys, cs) => (key :: keys, cs)
      | cs => some ([key], cs)

/-! ## Values -/

/-- The value of a digit below some base. -/
def digit? (base : Nat) (c : Char) : Option Nat :=
  (Json.hexDigit? c).filter (· < base)

/-- The digits of a number, between which single underscores may stand. -/
def digits? (base : Nat) : List Char → Option (List Nat)
  | [] => none
  | [c] => (digit? base c).map ([·])
  | c :: '_' :: cs => do return (← digit? base c) :: (← digits? base cs)
  | c :: cs => do return (← digit? base c) :: (← digits? base cs)

/-- The number that digits denote. -/
def digitsValue (base : Nat) (ds : List Nat) : Nat := ds.foldl (fun n d => n * base + d) 0

/-- A decimal number; it does not begin with a zero, unless it is zero. -/
def decimal? (cs : List Char) : Option Nat :=
  match digits? 10 cs with
  | none | some (0 :: _ :: _) => none
  | some ds => some (digitsValue 10 ds)

/-- An integer: decimal with an optional sign, or with the mark of another base. -/
def integer? : List Char → Option Int
  | '0' :: 'x' :: cs => (digits? 16 cs).map fun ds => digitsValue 16 ds
  | '0' :: 'o' :: cs => (digits? 8 cs).map fun ds => digitsValue 8 ds
  | '0' :: 'b' :: cs => (digits? 2 cs).map fun ds => digitsValue 2 ds
  | '+' :: cs => (decimal? cs).map Int.ofNat
  | '-' :: cs => (decimal? cs).map fun n => -n
  | cs => (decimal? cs).map Int.ofNat

/-- A value without quotes. Integers have 64 bits. -/
def word? (cs : List Char) : Option Json :=
  match String.ofList cs with
  | "true" => some (.bool true)
  | "false" => some (.bool false)
  | _ =>
    let fits (i : Int) : Bool := Int64.minValue.toInt ≤ i && i ≤ Int64.maxValue.toInt
    ((integer? cs).filter fits).map .int

/-- Reads a value. -/
def readValue (cs : List Char) : Option (Json × List Char) :=
  match cs with
  | '"' :: cs => (readBasic [] cs).map fun (s, cs) => (.string s, cs)
  | '\x27' :: cs => (readLiteral cs).map fun (s, cs) => (.string s, cs)
  | cs =>
    let (word, rest) := cs.span fun c => !isGap c && c != '#'
    (word? word).map fun j => (j, rest)

/-! ## Lines -/

/-- What a line says. -/
inductive Line where
  | blank
  /-- The settings that follow belong to a table. -/
  | table (path : List String)
  | setting (path : List String) (value : Json)

/-- Reads a line. -/
def readLine (cs : List Char) : Option Line := do
  if isEnd cs then return .blank
  match skipGaps cs with
  | '[' :: cs =>
    let (path, cs) ← readPath (cs.length + 1) cs
    match cs with
    | ']' :: cs => if isEnd cs then return .table path else none
    | _ => none
  | cs =>
    let (path, cs) ← readPath (cs.length + 1) cs
    match cs with
    | '=' :: cs =>
      let (value, cs) ← readValue (skipGaps cs)
      if isEnd cs then return .setting path value else none
    | _ => none

/-- The lines of a text, without their ends. -/
def lines (text : String) : List (List Char) :=
  (text.splitOn "\n").map fun line =>
    match line.toList.reverse with
    | '\r' :: cs => cs.reverse
    | cs => cs.reverse

/-! ## Tables -/

/-- A table: its entries in order. -/
abbrev Table := List (String × Json)

/-- Puts an entry in place of another one of its name, or behind all others. -/
def Table.put (t : Table) (key : String) (j : Json) : Table :=
  if (t.lookup key).isSome then t.map fun e => if e.1 == key then (key, j) else e
  else t ++ [(key, j)]

/-- The table of a name inside another; a missing one is empty. -/
def Table.inner? (t : Table) (key : String) : Option Table :=
  match t.lookup key with
  | none => some []
  | some (.object inner) => some inner
  | some _ => none

/-- Adds an entry, which must not be there yet. -/
def Table.define (t : Table) (value : Json) : List String → Option Table
  | [] => none
  | [key] => if (t.lookup key).isSome then none else some (t ++ [(key, value)])
  | key :: path => do
    let inner ← t.inner? key
    return t.put key (.object (← define inner value path))

/-- Makes sure that a table is there. -/
def Table.ensure (t : Table) : List String → Option Table
  | [] => some t
  | key :: path => do
    let inner ← t.inner? key
    return t.put key (.object (← Table.ensure inner path))

/-- What has been read: the tables opened so far, the current one, and all entries. -/
structure Progress where
  opened : List (List String) := []
  current : List String := []
  root : Table := []

/-- Takes in a line. A table is opened only once. -/
def Progress.take (p : Progress) : Line → Option Progress
  | .blank => some p
  | .table path =>
    if p.opened.contains path then none
    else do return { opened := path :: p.opened, current := path, root := ← p.root.ensure path }
  | .setting path value => do
    return { p with root := ← p.root.define value (p.current ++ path) }

/-- Reads a text of settings. -/
def parse (text : String) : Option Json := do
  let read ← (lines text).mapM readLine
  let p ← read.foldlM Progress.take {}
  return .object p.root

end Coroutine.Toml
