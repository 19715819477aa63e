import Coroutine.Tree.Basic

/-!
# Throwing again through a variable

`Expr.rethrowing` makes every throw without an operand that belongs to the handler around the
expression throw what a variable holds. Handlers and lambdas inside the expression keep theirs.
-/

namespace Coroutine.Expr

mutual

/-- An expression of a handler whose exception is held by `x`. -/
def rethrowing (x : Var) : Expr → Expr
  | .throw none => .throw (some (.var x))
  | .throw (some value) => .throw (some (value.rethrowing x))
  | e@(.constant _) | e@(.var _) | e@(.lambda _) | e@.yieldBreak => e
  | .assign target value => .assign target (value.rethrowing x)
  | .binary op left right => .binary op (left.rethrowing x) (right.rethrowing x)
  | .unary op operand => .unary op (operand.rethrowing x)
  | .call function args => .call function (rethrowingList x args)
  | .invoke target args => .invoke (target.rethrowing x) (rethrowingList x args)
  | .block vars body => .block vars (rethrowingList x body)
  | .condition test ifTrue none => .condition (test.rethrowing x) (ifTrue.rethrowing x) none
  | .condition test ifTrue (some ifFalse) =>
    .condition (test.rethrowing x) (ifTrue.rethrowing x) (some (ifFalse.rethrowing x))
  | .switch value cases none => .switch (value.rethrowing x) (rethrowingCases x cases) none
  | .switch value cases (some fallback) =>
    .switch (value.rethrowing x) (rethrowingCases x cases) (some (fallback.rethrowing x))
  | .loop body breakLabel continueLabel => .loop (body.rethrowing x) breakLabel continueLabel
  | e@(.goto _ _ none) => e
  | .goto kind target (some value) => .goto kind target (some (value.rethrowing x))
  | e@(.label _ none) => e
  | .label target (some fallback) => .label target (some (fallback.rethrowing x))
  | .tryCatch body handlers none => .tryCatch (body.rethrowing x) handlers none
  | .tryCatch body handlers (some cleanup) =>
    .tryCatch (body.rethrowing x) handlers (some (cleanup.rethrowing x))
  | .await awaitable type configure => .await (awaitable.rethrowing x) type configure
  | .yieldReturn value => .yieldReturn (value.rethrowing x)

/-- Several expressions of a handler. -/
def rethrowingList (x : Var) : List Expr → List Expr
  | [] => []
  | e :: es => e.rethrowing x :: rethrowingList x es

/-- The arms of a switch in a handler. -/
def rethrowingCases (x : Var) : List SwitchCase → List SwitchCase
  | [] => []
  | ⟨tests, body⟩ :: cs => ⟨rethrowingList x tests, body.rethrowing x⟩ :: rethrowingCases x cs

end

end Coroutine.Expr
