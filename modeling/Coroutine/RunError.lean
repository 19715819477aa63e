import Coroutine.BuildError

/-!
# Run errors

How a run can fail other than by completing: an exception that nothing caught, a limit, a use that
the machine does not support, or bookkeeping gone wrong. `RunError.message` has the wording.
-/

namespace Coroutine

/-- What went wrong in a machine's own bookkeeping. -/
inductive Breakdown where
  | rethrowOutsideHandler
  | frameMismatch (node : String)
  | jumpLost (label : Nat)
  | jumpRefused (label : Nat)
  | jumpWithoutRoute (label : Nat)
  | jumpLeftLambda (label : Nat)
  | jumpWithoutState (label : Nat)
  | noResumePoint (state : Int)
  | resumeLabelMissing (label : String)
  | ranPastEnd
  | leftMachine (label : String)
  | noAwaiter
  | neverWoken
deriving DecidableEq, Repr

/-- The words for a breakdown. -/
def Breakdown.text : Breakdown → String
  | .rethrowOutsideHandler => "rethrow outside a catch handler"
  | .frameMismatch node => "frame does not match its " ++ node ++ " node"
  | .jumpLost label => "goto " ++ labelText label ++ " never reached its target"
  | .jumpRefused label => "goto " ++ labelText label ++ " reached a node that cannot receive it"
  | .jumpWithoutRoute label => "goto " ++ labelText label ++ " has an empty route"
  | .jumpLeftLambda label => "goto " ++ labelText label ++ " left the lambda"
  | .jumpWithoutState label => "goto " ++ labelText label ++ " has no target state"
  | .noResumePoint state => "no resume point for state " ++ toString state
  | .resumeLabelMissing label => "resume label " ++ label ++ " is not in its block"
  | .ranPastEnd => "control ran past the end of a block"
  | .leftMachine label => "jump to " ++ label ++ " left the machine"
  | .noAwaiter => "suspended without an awaiter"
  | .neverWoken => "continuation was dropped"

/-- Why a machine cannot suspend. -/
inductive Unsuspendable where
  | yieldBreakOutsideGenerator
  | yieldReturnOutsideGenerator
  | awaitOutsideAsync
  | passThrough
  | blockedOnGenerator
  | generatorAwaits
deriving DecidableEq, Repr

/-- The words for why a machine cannot suspend. -/
def Unsuspendable.text : Unsuspendable → String
  | .yieldBreakOutsideGenerator => "yield break outside a generator"
  | .yieldReturnOutsideGenerator => "yield return outside a generator"
  | .awaitOutsideAsync => "await on an incomplete awaiter outside an async lambda"
  | .passThrough => "pass-through expression suspended"
  | .blockedOnGenerator => "block_on cannot drive a generator"
  | .generatorAwaits => "generator suspended on an awaiter"

/-- How a run fails. -/
inductive RunError where
  /-- An exception that nothing caught. -/
  | thrown (e : Exception)
  | invalidTransition (cause : Breakdown)
  | alreadyCompleted
  | cannotSuspend (cause : Unsuspendable)
  | unboundVariable (name : String)
  | arity (expected found : Nat)
  | stepLimitExceeded (limit : Nat)
  /-- The program cannot be built. -/
  | build (e : BuildError)
deriving DecidableEq, Repr

/-- The wording of a run error. -/
def RunError.message : RunError → String
  | .thrown e => "uncaught exception: " ++ e.toFault.text
  | .invalidTransition cause => "interpreter failed to transition: " ++ cause.text
  | .alreadyCompleted => "machine has already completed"
  | .cannotSuspend cause => "cannot suspend: " ++ cause.text
  | .unboundVariable name => "variable `" ++ name ++ "` is not bound in any scope"
  | .arity expected found =>
    "expected " ++ toString expected ++ " argument(s), got " ++ toString found
  | .stepLimitExceeded limit => "step limit of " ++ toString limit ++ " exceeded"
  | .build e => e.message

end Coroutine
