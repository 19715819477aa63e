import Coroutine.Tree.Basic

/-!
# Where a tree suspends

The suspend points of an expression are its `await`, `yield return` and `yield break` nodes, those
in nested lambdas not counted: a nested lambda is another activation.
-/

namespace Coroutine.Expr

mutual

/-- Whether an expression contains a suspend point. -/
def suspends : Expr → Bool
  | .await .. | .yieldReturn _ | .yieldBreak => true
  | .constant _ | .var _ | .lambda _ => false
  | .assign _ value => value.suspends
  | .binary _ left right => left.suspends || right.suspends
  | .unary _ operand => operand.suspends
  | .call _ args => anySuspends args
  | .invoke target args => target.suspends || anySuspends args
  | .block _ body => anySuspends body
  | .condition test ifTrue none => test.suspends || ifTrue.suspends
  | .condition test ifTrue (some ifFalse) =>
    test.suspends || ifTrue.suspends || ifFalse.suspends
  | .switch value cases none => value.suspends || casesSuspend cases
  | .switch value cases (some fallback) =>
    value.suspends || casesSuspend cases || fallback.suspends
  | .loop body _ _ => body.suspends
  | .goto _ _ none => false
  | .goto _ _ (some value) => value.suspends
  | .label _ none => false
  | .label _ (some fallback) => fallback.suspends
  | .tryCatch body handlers none => body.suspends || handlersSuspend handlers
  | .tryCatch body handlers (some cleanup) =>
    body.suspends || handlersSuspend handlers || cleanup.suspends
  | .throw none => false
  | .throw (some value) => value.suspends

/-- Whether one of several expressions contains a suspend point. -/
def anySuspends : List Expr → Bool
  | [] => false
  | e :: es => e.suspends || anySuspends es

/-- Whether an arm of a switch contains a suspend point. -/
def casesSuspend : List SwitchCase → Bool
  | [] => false
  | ⟨tests, body⟩ :: cs => anySuspends tests || body.suspends || casesSuspend cs

/-- Whether a handler contains a suspend point. -/
def handlersSuspend : List Handler → Bool
  | [] => false
  | ⟨_, _, body⟩ :: hs => body.suspends || handlersSuspend hs

end

mutual

/-- The first suspend point, a node coming before its children. -/
def firstSuspend? : Expr → Option Expr
  | e@(.await ..) | e@(.yieldReturn _) | e@.yieldBreak => some e
  | .constant _ | .var _ | .lambda _ => none
  | .assign _ value => value.firstSuspend?
  | .binary _ left right => left.firstSuspend? <|> right.firstSuspend?
  | .unary _ operand => operand.firstSuspend?
  | .call _ args => firstSuspendIn? args
  | .invoke target args => target.firstSuspend? <|> firstSuspendIn? args
  | .block _ body => firstSuspendIn? body
  | .condition test ifTrue none => test.firstSuspend? <|> ifTrue.firstSuspend?
  | .condition test ifTrue (some ifFalse) =>
    test.firstSuspend? <|> ifTrue.firstSuspend? <|> ifFalse.firstSuspend?
  | .switch value cases none => value.firstSuspend? <|> firstSuspendInCases? cases
  | .switch value cases (some fallback) =>
    value.firstSuspend? <|> firstSuspendInCases? cases <|> fallback.firstSuspend?
  | .loop body _ _ => body.firstSuspend?
  | .goto _ _ none => none
  | .goto _ _ (some value) => value.firstSuspend?
  | .label _ none => none
  | .label _ (some fallback) => fallback.firstSuspend?
  | .tryCatch body handlers none => body.firstSuspend? <|> firstSuspendInHandlers? handlers
  | .tryCatch body handlers (some cleanup) =>
    body.firstSuspend? <|> firstSuspendInHandlers? handlers <|> cleanup.firstSuspend?
  | .throw none => none
  | .throw (some value) => value.firstSuspend?

/-- The first suspend point of several expressions. -/
def firstSuspendIn? : List Expr → Option Expr
  | [] => none
  | e :: es => e.firstSuspend? <|> firstSuspendIn? es

/-- The first suspend point of the arms of a switch. -/
def firstSuspendInCases? : List SwitchCase → Option Expr
  | [] => none
  | ⟨tests, body⟩ :: cs =>
    firstSuspendIn? tests <|> body.firstSuspend? <|> firstSuspendInCases? cs

/-- The first suspend point of the handlers of a try. -/
def firstSuspendInHandlers? : List Handler → Option Expr
  | [] => none
  | ⟨_, _, body⟩ :: hs => body.firstSuspend? <|> firstSuspendInHandlers? hs

end

mutual

/-- The number of suspend points. -/
def suspendCount : Expr → Nat
  | .await awaitable _ _ => 1 + awaitable.suspendCount
  | .yieldReturn value => 1 + value.suspendCount
  | .yieldBreak => 1
  | .constant _ | .var _ | .lambda _ => 0
  | .assign _ value => value.suspendCount
  | .binary _ left right => left.suspendCount + right.suspendCount
  | .unary _ operand => operand.suspendCount
  | .call _ args => suspendCountList args
  | .invoke target args => target.suspendCount + suspendCountList args
  | .block _ body => suspendCountList body
  | .condition test ifTrue none => test.suspendCount + ifTrue.suspendCount
  | .condition test ifTrue (some ifFalse) =>
    test.suspendCount + ifTrue.suspendCount + ifFalse.suspendCount
  | .switch value cases none => value.suspendCount + suspendCountCases cases
  | .switch value cases (some fallback) =>
    value.suspendCount + suspendCountCases cases + fallback.suspendCount
  | .loop body _ _ => body.suspendCount
  | .goto _ _ none => 0
  | .goto _ _ (some value) => value.suspendCount
  | .label _ none => 0
  | .label _ (some fallback) => fallback.suspendCount
  | .tryCatch body handlers none => body.suspendCount + suspendCountHandlers handlers
  | .tryCatch body handlers (some cleanup) =>
    body.suspendCount + suspendCountHandlers handlers + cleanup.suspendCount
  | .throw none => 0
  | .throw (some value) => value.suspendCount

/-- The number of suspend points of several expressions. -/
def suspendCountList : List Expr → Nat
  | [] => 0
  | e :: es => e.suspendCount + suspendCountList es

/-- The number of suspend points of the arms of a switch. -/
def suspendCountCases : List SwitchCase → Nat
  | [] => 0
  | ⟨tests, body⟩ :: cs => suspendCountList tests + body.suspendCount + suspendCountCases cs

/-- The number of suspend points of the handlers of a try. -/
def suspendCountHandlers : List Handler → Nat
  | [] => 0
  | ⟨_, _, body⟩ :: hs => body.suspendCount + suspendCountHandlers hs

end

end Coroutine.Expr
