import Coroutine.Tree.Document

/-!
# Trees in compact form

A second form of trees in documents, for trees that are written by hand: an expression is a list of
its constructor's name and the parts, a variable is a pair of number and name, a label a number or
such a pair, and a handler a triple of kind, variable and body. Shorthands stand for common shapes:
`seq` for a block without variables, `if_then` for a condition without alternative, `rethrow`, and
so on.
-/

namespace Coroutine

open Decoder

/-- Reads a variable, given as a pair. -/
def Var.ofPair? (j : Json) : Option Var := do
  return ⟨← (← j.item? 0).nat? 32, ← (← j.item? 1).string?⟩

/-- Reads a label, given as a number or a pair. -/
def Label.ofCompact? (j : Json) : Option Label :=
  match j with
  | .array _ => do return ⟨← (← j.item? 0).nat? 32, some (← (← j.item? 1).string?)⟩
  | j => do return ⟨← j.nat? 32, none⟩

namespace Compact

/-- Reads a handler, given as a triple. -/
def handler (expr : Json → Decoder Expr) (j : Json) : Decoder Handler := do
  let kind ← nullable (fun j => lift j.string?) (j.item? 0)
  let x ← nullable (fun j => lift (Var.ofPair? j)) (j.item? 1)
  return ⟨kind.elim .any .kind, x, ← required expr (j.item? 2)⟩

/-- Reads a case of a switch, given as a pair. -/
def switchCase (expr : Json → Decoder Expr) (j : Json) : Decoder SwitchCase := do
  return ⟨← required (listOf expr) (j.item? 0), ← required expr (j.item? 1)⟩

/-- Reads an expression, given a reader for its parts. -/
def node (expr : Json → Decoder Expr) (j : Json) : Decoder Expr := do
  let e (i : Nat) : Decoder Expr := required expr (j.item? i)
  let maybe (i : Nat) : Decoder (Option Expr) := nullable expr (j.item? i)
  let list (i : Nat) : Decoder (List Expr) := required (listOf expr) (j.item? i)
  let s (i : Nat) : Decoder String := lift ((j.item? i).bind Json.string?)
  let v (i : Nat) : Decoder Var := lift ((j.item? i).bind Var.ofPair?)
  let vs (i : Nat) : Decoder (List Var) :=
    required (listOf fun j => lift (Var.ofPair? j)) (j.item? i)
  let l (i : Nat) : Decoder Label := lift ((j.item? i).bind Label.ofCompact?)
  let maybeL (i : Nat) : Decoder (Option Label) :=
    nullable (fun j => lift (Label.ofCompact? j)) (j.item? i)
  let hs (i : Nat) : Decoder (List Handler) := required (listOf (handler expr)) (j.item? i)
  match ← s 0 with
  | "constant" => return .constant (← required Value.decode (j.item? 1))
  | "unit" => return .unit
  | "var" => return .var (← v 1)
  | "assign" => return .assign (← v 1) (← e 2)
  | "binary" => return .binary (← lift (BinaryOp.table.lookup (← s 1))) (← e 2) (← e 3)
  | "unary" => return .unary (← lift (UnaryOp.table.lookup (← s 1))) (← e 2)
  | "call" => return .call (← s 1) (← list 2)
  | "invoke" => return .invoke (← e 1) (← list 2)
  | "lambda" =>
    let name ← nullable (fun j => lift j.string?) (j.item? 4)
    return .lambda ⟨name, ← lift (LambdaKind.table.lookup (← s 1)), ← vs 2, ← e 3⟩
  | "block" => return .block (← vs 1) (← list 2)
  | "seq" => return .block [] (← list 1)
  | "condition" => return .condition (← e 1) (← e 2) (some (← e 3))
  | "if_then" => return .condition (← e 1) (← e 2) none
  | "switch" =>
    return .switch (← e 1) (← required (listOf (switchCase expr)) (j.item? 2)) (← maybe 3)
  | "loop" => return .loop (← e 1) (← maybeL 2) (← maybeL 3)
  | "goto" => return .goto .toLabel (← l 1) none
  | "break_to" => return .goto .toBreak (← l 1) none
  | "continue_to" => return .goto .toContinue (← l 1) none
  | "return_to" => return .goto .toReturn (← l 1) (some (← e 2))
  | "label" => return .label (← l 1) (← maybe 2)
  | "try_catch" => return .tryCatch (← e 1) (← hs 2) none
  | "try_finally" => return .tryCatch (← e 1) [] (some (← e 2))
  | "try_catch_finally" => return .tryCatch (← e 1) (← hs 2) (some (← e 3))
  | "throw" => return .throw (some (← e 1))
  | "rethrow" => return .throw none
  | "await_task" => return .await (← e 1) "Task" true
  | "await_value" => return .await (← e 1) "Value" true
  | "await_of" => return .await (← e 1) (← s 2) true
  | "yield_return" => return .yieldReturn (← e 1)
  | "yield_break" => return .yieldBreak
  | _ => failure

/-- Reads an expression nested at most `fuel` levels deep. -/
def within : Nat → Json → Decoder Expr
  | 0, _ => failure
  | fuel + 1, j => node (within fuel) j

end Compact

/-- Reads an expression in compact form. -/
def Expr.decodeCompact (j : Json) : Decoder Expr := Compact.within (j.depth + 1) j

end Coroutine
