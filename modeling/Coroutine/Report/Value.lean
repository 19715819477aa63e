import Coroutine.Value.Document

/-!
# Reports of values

A report is a document for whoever observes a program. Unlike the document of a value it shows
doubles exactly, by their bits, tasks and closures, and the identity of exceptions: distinct
exceptions are numbered in the order in which a session first reports them.
-/

namespace Coroutine

/-- The last `width` hexadecimal digits of a number. -/
def hexDigits : Nat → Nat → List Char
  | 0, _ => []
  | width + 1, n => hexDigits width (n / 16) ++ [Nat.digitChar (n % 16)]

/-- A double by its bits; every NaN is alike. -/
def floatReport (x : Float) : Json :=
  .object [("float", .string
    (if x == x then String.ofList (hexDigits 16 x.toBits.toNat) else "NaN"))]

namespace Json

mutual

/-- A document with its doubles shown by their bits. -/
def exact : Json → Json
  | .number (.float x) => floatReport x
  | .array items => .array (exactList items)
  | .object fields => .object (exactFields fields)
  | j@.null | j@(.bool _) | j@(.number (.int _)) | j@(.string _) => j

/-- Documents with their doubles shown by their bits. -/
def exactList : List Json → List Json
  | [] => []
  | j :: js => j.exact :: exactList js

/-- Fields with their doubles shown by their bits. -/
def exactFields : List (String × Json) → List (String × Json)
  | [] => []
  | (name, j) :: fs => (name, j.exact) :: exactFields fs

end

end Json

/-- A computation that reports; the state holds the exceptions reported so far, in order. -/
abbrev Reporting := StateM (List Nat)

/-- The number of an exception within the session. -/
def exceptionNumber (id : Nat) : Reporting Nat := do
  let seen ← get
  match seen.idxOf? id with
  | some n => return n
  | none =>
    set (seen ++ [id])
    return seen.length

/-- The report of an exception. -/
def Exception.report (e : Exception) : Reporting Json := do
  let n ← exceptionNumber e.id
  return .object [("kind", .string e.kind), ("message", .string e.message), ("id", .nat n)]

/-- The report of a value. -/
def Value.report : Value → Reporting Json
  | .unit => return .null
  | .bool b => return .bool b
  | .int i => return .int i.toInt
  | .float x => return floatReport x
  | .str s => return .string s
  | .exception e => return .object [("exception", ← e.report)]
  | .task index => return .object [("task", .nat (index + 1))]
  | .closure c => return .object [("closure", .string c.name)]

/-- The report of an outcome. -/
def reportOutcome : Outcome → Reporting Json
  | .ok v => return .object [("ok", ← v.report)]
  | .error e => return .object [("thrown", ← e.report)]

end Coroutine
