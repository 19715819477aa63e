import Coroutine.Code.Basic
import Coroutine.Report.Value
import Coroutine.Tree.Document

/-!
# Reports of code

The nodes of code in order: what each does, its details, and its place in the tree.
-/

namespace Coroutine

/-- A variable as number and name. -/
def Var.report (x : Var) : Json := .array [.nat x.word, .string x.name]

/-- The name of a kind of route. -/
def RouteKind.name : RouteKind → String
  | .toLabel => "label"
  | .toBreak => "break"
  | .toContinue => "continue"

/-- The report of a route. -/
def Route.report : Route → Json
  | .escape => .string "escape"
  | .within ancestor path kind =>
    .object [("ancestor", .nat ancestor), ("path", .ofList .nat path), ("kind", .string kind.name)]

/-- The report of an arm's slots. -/
def CaseSlots.report (c : CaseSlots) : Json := .array [.ofList .nat c.tests, .nat c.body]

/-- The report of a handler's slots. -/
def HandlerSlots.report (h : HandlerSlots) : Json :=
  .array [h.filter.toJson, .ofOption (fun x => .nat x.word) h.var, .nat h.body]

mutual

/-- The details of what a node does. -/
def Op.report : Op → Reporting Json
  | .constant v => v.report
  | .var x | .assign x => return x.report
  | .binary op => return .string op.symbol
  | .unary op => return .string op.symbol
  | .call function => return .string function
  | .lambda ⟨name, params, code⟩ =>
    return .object [("name", .string name), ("params", .ofList Var.report params),
      ("tree", ← code.report)]
  | .block vars => return .ofList Var.report vars
  | .condition hasElse => return .bool hasElse
  | .switch cases fallback =>
    return .object [("cases", .ofList CaseSlots.report cases), ("default", .ofOption .nat fallback)]
  | .goto label hasValue route =>
    return .object [("label", .nat label), ("has_value", .bool hasValue), ("route", route.report)]
  | .label label => return .nat label
  | .tryCatch handlers cleanup =>
    return .object [("handlers", .ofList HandlerSlots.report handlers),
      ("finally", .ofOption .nat cleanup)]
  | .await binder configure => return .array [.string binder.typeName, .bool configure]
  | .invoke | .loop | .throw | .rethrow | .yieldReturn | .yieldBreak => return .null

/-- The report of nodes. -/
def Code.reportNodes : List Node → Reporting (List Json)
  | [] => return []
  | ⟨parent, slot, children, op⟩ :: ns => do
    let detail ← op.report
    let n := .array [.string op.name, detail, .ofOption .nat parent, .nat slot,
      .ofList .nat children]
    return n :: (← Code.reportNodes ns)

/-- The report of code. -/
def Code.report : Code → Reporting Json
  | ⟨⟨nodes⟩, escapes⟩ => do
    let nodes ← Code.reportNodes nodes
    return .object [("root", .nat Code.root), ("escapes", .ofList .nat escapes),
      ("nodes", .array nodes)]

end

end Coroutine
