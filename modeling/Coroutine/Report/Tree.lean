import Coroutine.Tree.Check
import Coroutine.Tree.Labels
import Coroutine.Report.Code

/-!
# Reports of trees

What the analyses say about an expression, and what the checks found out about a lambda.
-/

namespace Coroutine

/-- The items in increasing order, each once. -/
def ascending (ns : List Nat) : List Nat := (ns.mergeSort (· ≤ ·)).eraseReps

/-- The report of an expression. -/
def Expr.inspect (e : Expr) : Json :=
  .object
    [("display", .string e.text), ("describe", .string e.describe), ("kind", .string e.kindName),
     ("pure_leaf", .bool e.isPureLeaf), ("jump", .bool e.isJump),
     ("requires_lowering", .bool e.suspends),
     ("first_suspend", .ofOption (fun s => .string s.describe) e.firstSuspend?),
     ("suspend_points", .nat e.suspendCount),
     ("labels", .ofList .nat (ascending e.definedLabels)),
     ("escaping", .ofList (fun l => .string l.text) e.escapingTargets),
     ("children", .ofList (fun c => .string c.text) e.children),
     ("mapped", .string (e.mapChildren (.unary .not)).text),
     ("walk", .ofList (fun n => .string n.kindName) e.walk),
     ("lambdas", .nat (e.walk.countP Expr.isLambda)),
     ("json", e.toJson.exact)]

/-- The report of a lambda that passed the checks. -/
def Lambda.reportFacts (l : Lambda) (f : Facts) : Json :=
  .object
    [("name", .string l.displayName), ("suspend_points", .nat f.suspendPoints),
     ("max_var_id", .nat f.maxVar), ("max_label_id", .nat f.maxLabel),
     ("captured", .ofList Var.report f.captured)]

end Coroutine
