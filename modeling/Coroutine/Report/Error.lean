import Coroutine.Report.Value
import Coroutine.RunError

/-!
# Reports of errors

An error is reported by its kind and its message; an uncaught exception also shows itself.
-/

namespace Coroutine

/-- An error by its kind and its message. -/
def errorReport (kind message : String) : Json :=
  .object [("error", .string kind), ("message", .string message)]

namespace BuildError

/-- The name of a kind of construction error. -/
def kindName : BuildError → String
  | .unresolvedLabel _ => "UnresolvedLabel"
  | .duplicateLabel _ => "DuplicateLabel"
  | .unsupportedSuspend .. => "UnsupportedSuspend"
  | .notAwaitable _ => "NotAwaitable"
  | .unboundVariable _ => "UnboundVariable"
  | .rethrowOutsideCatch => "RethrowOutsideCatch"
  | .jumpIntoTry _ => "JumpIntoTry"
  | .jumpIntoExpression _ => "JumpIntoExpression"
  | .danglingTarget .. => "DanglingTarget"
  | .noChild .. => "ChildIndex"

/-- The report of a construction error. -/
def report (e : BuildError) : Json := errorReport e.kindName e.message

end BuildError

namespace RunError

/-- The name of a kind of run error. -/
def kindName : RunError → String
  | .thrown _ => "Thrown"
  | .invalidTransition _ => "InvalidTransition"
  | .alreadyCompleted => "AlreadyCompleted"
  | .cannotSuspend _ => "CannotSuspend"
  | .unboundVariable _ => "UnboundVariable"
  | .arity .. => "Arity"
  | .stepLimitExceeded _ => "StepLimitExceeded"
  | .build e => "Lower:" ++ e.kindName

/-- The report of a run error. -/
def report (e : RunError) : Reporting Json := do
  match e with
  | .thrown x =>
    return .object [("error", .string e.kindName), ("message", .string e.message),
      ("exception", ← x.report)]
  | _ => return errorReport e.kindName e.message

end RunError

/-- The report of a check that gives nothing when it succeeds. -/
def reportCheck : Except BuildError Unit → Json
  | .ok () => .string "ok"
  | .error e => e.report

/-- The report of the result of a run. -/
def reportResult : Except RunError Value → Reporting Json
  | .ok v => return .object [("ok", ← v.report)]
  | .error e => e.report

end Coroutine
