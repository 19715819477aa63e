import Coroutine.Code.Build
import Coroutine.Graph.Transition
import Coroutine.Tree.Document

/-!
# Transitions in documents

A transition is an object whose one field names its kind, for graphs that are written by hand.
-/

namespace Coroutine

open Decoder

namespace Transition

/-- Reads the number of a state or a region. -/
def decodeIndex (j : Json) : Decoder Nat := lift (j.nat? 32)

/-- Reads the binder of an awaitable type. -/
def decodeBinder (resolve : Expr.Resolver) (j : Json) : Decoder Binder := do
  match resolve (← lift j.string?) with
  | .ok b => return b
  | .error _ => failure

/-- Reads an arm of a switch, given as a pair of tests and state. -/
def decodeArm (j : Json) : Decoder SwitchArm := do
  return ⟨← required (listOf Expr.decode) (j.item? 0), ← required decodeIndex (j.item? 1)⟩

/-- Reads a handler, given as a triple of filter, state and code. -/
def decodeHandler (j : Json) : Decoder HandlerEntry := do
  return ⟨← lift ((j.item? 0).bind Filter.ofJson?), ← required decodeIndex (j.item? 1),
    ← lift ((j.item? 2).bind Json.int?)⟩

/-- Reads a transition of some kind. -/
def decodeKind (resolve : Expr.Resolver) (kind : String) (j : Json) : Decoder Transition := do
  let index (name : String) : Decoder Nat := required decodeIndex (j.get? name)
  let expr (name : String) : Decoder Expr := required Expr.decode (j.get? name)
  let var (name : String) : Decoder Var := required Expr.decodeVar (j.get? name)
  let binder : Decoder Binder := required (decodeBinder resolve) (j.get? "type")
  match kind with
  | "goto" => return .goto (← decodeIndex j)
  | "loop" => return .loop (← decodeIndex j)
  | "conditional" =>
    return .conditional (← expr "test") (← index "if_true") (← index "if_false")
  | "switch" =>
    return .switch (← expr "value") (← required (listOf decodeArm) (j.get? "cases"))
      (← index "default")
  | "try" =>
    return .tryCatch ⟨← index "region", ← index "body", ← var "try_state", ← var "exception",
      ← required (listOf decodeHandler) (j.get? "handlers"),
      ← optional decodeIndex (j.get? "finally"), ← index "join"⟩
  | "finally_exit" =>
    return .cleanupExit ⟨← index "region", ← var "try_state", ← var "exception", ← index "join"⟩
  | "await" =>
    return .await ⟨← expr "awaitable", ← var "awaiter", ← binder, true, ← index "completion"⟩
  | "await_result" =>
    return .awaitResult ⟨← var "awaiter", ← optional Expr.decodeVar (j.get? "result"), ← binder,
      ← index "target"⟩
  | "yield" => return .yieldReturn (← expr "value") (← index "resume")
  | "final" => return .finish (← optional Expr.decode (some j))
  | _ => failure

/-- Reads a transition. -/
def decode (resolve : Expr.Resolver) : Json → Decoder Transition
  | .string "yield_break" => pure .yieldBreak
  | .object [(kind, j)] => decodeKind resolve kind j
  | _ => failure

end Transition

end Coroutine
