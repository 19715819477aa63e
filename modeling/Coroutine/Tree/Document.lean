import Coroutine.Tree.Basic
import Coroutine.Value.Document

/-!
# Trees in documents

`Expr.toJson` writes a tree with every field; `Expr.decode` reads one back, filling in the
defaults of fields that are missing. A node is an object with one field, named for its kind;
`yield break`, which has nothing to say, is a string.

The reader takes the depth of the document as fuel: every nested expression lies at least one
level deeper.
-/

namespace Coroutine

/-! ## Names -/

/-- The kinds of jumps and their names. -/
def JumpKind.table : List (String × JumpKind) :=
  [("goto", .toLabel), ("break", .toBreak), ("continue", .toContinue), ("return", .toReturn)]

/-- The kinds of lambdas and their names. -/
def LambdaKind.table : List (String × LambdaKind) :=
  [("sync", .sync), ("async", .async), ("generator", .generator)]

/-- The binary operators and their names. -/
def BinaryOp.table : List (String × BinaryOp) := BinaryOp.all.map fun op => (op.name, op)

/-- The unary operators and their names. -/
def UnaryOp.table : List (String × UnaryOp) := UnaryOp.all.map fun op => (op.name, op)

/-- The awaitable type that is meant when none is given. -/
def defaultAwaitable : String := "Task"

/-! ## Writing -/

/-- A variable as a document. -/
def Var.toJson (x : Var) : Json := .object [("id", .nat x.id), ("name", .string x.name)]

/-- A label as a document. -/
def Label.toJson (l : Label) : Json :=
  .object [("id", .nat l.id), ("name", .ofOption .string l.name)]

/-- A filter as a document. -/
def Filter.toJson : Filter → Json
  | .any => .string "any"
  | .kind k => .object [("kind", .string k)]

namespace Expr

mutual

/-- An expression as a document. -/
def toJson : Expr → Json
  | .constant v => .object [("constant", v.toJson)]
  | .var x => .object [("variable", x.toJson)]
  | .assign x value => .object [("assign", .object [("target", x.toJson), ("value", value.toJson)])]
  | .binary op left right =>
    .object [("binary", .object
      [("op", .string op.name), ("left", left.toJson), ("right", right.toJson)])]
  | .unary op operand =>
    .object [("unary", .object [("op", .string op.name), ("operand", operand.toJson)])]
  | .call function args =>
    .object [("call", .object [("function", .string function), ("args", .array (listJson args))])]
  | .invoke target args =>
    .object [("invoke", .object [("target", target.toJson), ("args", .array (listJson args))])]
  | .lambda ⟨name, kind, params, body⟩ =>
    .object [("lambda", .object
      [("name", .ofOption .string name), ("kind", .string kind.name),
       ("params", .ofList Var.toJson params), ("body", body.toJson)])]
  | .block vars body =>
    .object [("block", .object
      [("variables", .ofList Var.toJson vars), ("body", .array (listJson body))])]
  | .condition test ifTrue none =>
    .object [("condition", .object
      [("test", test.toJson), ("if_true", ifTrue.toJson), ("if_false", .null)])]
  | .condition test ifTrue (some ifFalse) =>
    .object [("condition", .object
      [("test", test.toJson), ("if_true", ifTrue.toJson), ("if_false", ifFalse.toJson)])]
  | .switch value cases none =>
    .object [("switch", .object
      [("value", value.toJson), ("cases", .array (casesJson cases)), ("default", .null)])]
  | .switch value cases (some fallback) =>
    .object [("switch", .object
      [("value", value.toJson), ("cases", .array (casesJson cases)),
       ("default", fallback.toJson)])]
  | .loop body breakLabel continueLabel =>
    .object [("loop", .object
      [("body", body.toJson), ("break_label", .ofOption Label.toJson breakLabel),
       ("continue_label", .ofOption Label.toJson continueLabel)])]
  | .goto kind target none =>
    .object [("goto", .object
      [("kind", .string kind.name), ("target", target.toJson), ("value", .null)])]
  | .goto kind target (some value) =>
    .object [("goto", .object
      [("kind", .string kind.name), ("target", target.toJson), ("value", value.toJson)])]
  | .label target none =>
    .object [("label", .object [("target", target.toJson), ("default", .null)])]
  | .label target (some fallback) =>
    .object [("label", .object [("target", target.toJson), ("default", fallback.toJson)])]
  | .tryCatch body handlers none =>
    .object [("try", .object
      [("body", body.toJson), ("handlers", .array (handlersJson handlers)), ("finally", .null)])]
  | .tryCatch body handlers (some cleanup) =>
    .object [("try", .object
      [("body", body.toJson), ("handlers", .array (handlersJson handlers)),
       ("finally", cleanup.toJson)])]
  | .throw none => .object [("throw", .null)]
  | .throw (some value) => .object [("throw", value.toJson)]
  | .await awaitable type configure =>
    .object [("await", .object
      [("awaitable", awaitable.toJson), ("awaitable_type", .string type),
       ("configure_await", .bool configure)])]
  | .yieldReturn value => .object [("yield_return", value.toJson)]
  | .yieldBreak => .string "yield_break"

/-- Several expressions as documents. -/
def listJson : List Expr → List Json
  | [] => []
  | e :: es => e.toJson :: listJson es

/-- The arms of a switch as documents. -/
def casesJson : List SwitchCase → List Json
  | [] => []
  | ⟨tests, body⟩ :: cs =>
    .object [("test_values", .array (listJson tests)), ("body", body.toJson)] :: casesJson cs

/-- The handlers of a try as documents. -/
def handlersJson : List Handler → List Json
  | [] => []
  | ⟨filter, x, body⟩ :: hs =>
    .object [("filter", filter.toJson), ("variable", .ofOption Var.toJson x),
      ("body", body.toJson)] :: handlersJson hs

end

end Expr

/-- A lambda as a document. -/
def Lambda.toJson (l : Lambda) : Json :=
  .object [("name", .ofOption .string l.name), ("kind", .string l.kind.name),
    ("params", .ofList Var.toJson l.params), ("body", l.body.toJson)]

/-! ## Reading -/

/-- Reads a variable. -/
def Var.ofJson? (j : Json) : Option Var := do
  let [some id, some name] ← j.record? ["id", "name"] | none
  return ⟨← id.nat? 32, ← name.string?⟩

/-- Reads a label. -/
def Label.ofJson? (j : Json) : Option Label := do
  let [some id, name] ← j.record? ["id", "name"] | none
  return ⟨← id.nat? 32, ← (name.getD .null).orNull? Json.string?⟩

/-- Reads a filter. -/
def Filter.ofJson? (j : Json) : Option Filter :=
  match j with
  | .object [("kind", .string k)] => some (.kind k)
  | j => j.choice? [("any", .any)]

namespace Expr

open Decoder

/-- Reads a variable as part of a tree. -/
def decodeVar (j : Json) : Decoder Var := lift (Var.ofJson? j)

/-- Reads a label as part of a tree. -/
def decodeLabel (j : Json) : Decoder Label := lift (Label.ofJson? j)

/-- Reads a string as part of a tree. -/
def decodeString (j : Json) : Decoder String := lift j.string?

/-- Reads an arm of a switch, given a reader of expressions. -/
def decodeCase (expr : Json → Decoder Expr) (j : Json) : Decoder SwitchCase := do
  let [tests, body] ← lift (j.record? ["test_values", "body"]) | failure
  return ⟨← required (listOf expr) tests, ← required expr body⟩

/-- Reads a handler, given a reader of expressions. -/
def decodeHandler (expr : Json → Decoder Expr) (j : Json) : Decoder Handler := do
  let [filter, x, body] ← lift (j.record? ["filter", "variable", "body"]) | failure
  let filter ← withDefault .any (fun j => lift (Filter.ofJson? j)) filter
  return ⟨filter, ← optional decodeVar x, ← required expr body⟩

/-- Reads a lambda, given a reader of expressions. -/
def decodeLambda (expr : Json → Decoder Expr) (j : Json) : Decoder Lambda := do
  let [name, kind, params, body] ← lift (j.record? ["name", "kind", "params", "body"]) | failure
  let name ← optional decodeString name
  let kind ← withDefault .sync (fun j => lift (j.choice? LambdaKind.table)) kind
  return ⟨name, kind, ← withDefault [] (listOf decodeVar) params, ← required expr body⟩

/-- Reads a node of the named kind, given a reader of expressions. -/
def decodeNode (expr : Json → Decoder Expr) (kind : String) (j : Json) : Decoder Expr :=
  match kind with
  | "constant" => .constant <$> Value.decode j
  | "variable" => .var <$> decodeVar j
  | "assign" => do
    let [target, value] ← lift (j.record? ["target", "value"]) | failure
    return .assign (← required decodeVar target) (← required expr value)
  | "binary" => do
    let [op, left, right] ← lift (j.record? ["op", "left", "right"]) | failure
    let op ← required (fun j => lift (j.choice? BinaryOp.table)) op
    return .binary op (← required expr left) (← required expr right)
  | "unary" => do
    let [op, operand] ← lift (j.record? ["op", "operand"]) | failure
    let op ← required (fun j => lift (j.choice? UnaryOp.table)) op
    return .unary op (← required expr operand)
  | "call" => do
    let [function, args] ← lift (j.record? ["function", "args"]) | failure
    return .call (← required decodeString function) (← withDefault [] (listOf expr) args)
  | "invoke" => do
    let [target, args] ← lift (j.record? ["target", "args"]) | failure
    return .invoke (← required expr target) (← withDefault [] (listOf expr) args)
  | "lambda" => .lambda <$> decodeLambda expr j
  | "block" => do
    let [vars, body] ← lift (j.record? ["variables", "body"]) | failure
    return .block (← withDefault [] (listOf decodeVar) vars) (← required (listOf expr) body)
  | "condition" => do
    let [test, ifTrue, ifFalse] ← lift (j.record? ["test", "if_true", "if_false"]) | failure
    return .condition (← required expr test) (← required expr ifTrue) (← optional expr ifFalse)
  | "switch" => do
    let [value, cases, fallback] ← lift (j.record? ["value", "cases", "default"]) | failure
    return .switch (← required expr value) (← required (listOf (decodeCase expr)) cases)
      (← optional expr fallback)
  | "loop" => do
    let [body, breakLabel, continueLabel] ←
      lift (j.record? ["body", "break_label", "continue_label"]) | failure
    return .loop (← required expr body) (← optional decodeLabel breakLabel)
      (← optional decodeLabel continueLabel)
  | "goto" => do
    let [kind, target, value] ← lift (j.record? ["kind", "target", "value"]) | failure
    let kind ← withDefault .toLabel (fun j => lift (j.choice? JumpKind.table)) kind
    return .goto kind (← required decodeLabel target) (← optional expr value)
  | "label" => do
    let [target, fallback] ← lift (j.record? ["target", "default"]) | failure
    return .label (← required decodeLabel target) (← optional expr fallback)
  | "try" => do
    let [body, handlers, cleanup] ← lift (j.record? ["body", "handlers", "finally"]) | failure
    return .tryCatch (← required expr body)
      (← withDefault [] (listOf (decodeHandler expr)) handlers) (← optional expr cleanup)
  | "throw" => .throw <$> optional expr (some j)
  | "await" => do
    let [awaitable, type, configure] ←
      lift (j.record? ["awaitable", "awaitable_type", "configure_await"]) | failure
    return .await (← required expr awaitable) (← withDefault defaultAwaitable decodeString type)
      (← withDefault true (fun j => lift j.bool?) configure)
  | "yield_return" => .yieldReturn <$> expr j
  | "yield_break" =>
    match j with
    | .null => pure .yieldBreak
    | _ => failure
  | _ => failure

/-- Reads an expression nested at most `fuel` levels deep. -/
def decodeWithin : Nat → Json → Decoder Expr
  | 0, _ => failure
  | fuel + 1, j =>
    match j with
    | .string "yield_break" => pure .yieldBreak
    | .object [(kind, j)] => decodeNode (decodeWithin fuel) kind j
    | _ => failure

/-- Reads an expression. -/
def decode (j : Json) : Decoder Expr := decodeWithin (j.depth + 1) j

end Expr

/-- Reads a lambda. -/
def Lambda.decode (j : Json) : Decoder Lambda :=
  Expr.decodeLambda (Expr.decodeWithin (j.depth + 1)) j

end Coroutine
