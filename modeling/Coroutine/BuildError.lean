import Coroutine.Tree.Text

/-!
# Construction errors

What can be wrong with a program before it runs: `BuildError` has one constructor per cause, and
`BuildError.message` its wording.
-/

namespace Coroutine

/-- Where a suspend point cannot stand. -/
inductive Restriction where
  | nestedBody
  | nestedCoroutine
  | syncLambda
  | asyncLambda
  | generator
  | outsideGenerator
  | switchTest
  | guardedBody
  | handler
  | cleanup
deriving DecidableEq, Repr

/-- The words for a restricted place. -/
def Restriction.text : Restriction → String
  | .nestedBody => "inside a nested lambda body"
  | .nestedCoroutine => "as a nested async or generator lambda"
  | .syncLambda => "in a synchronous lambda"
  | .asyncLambda => "in an async lambda"
  | .generator => "in a generator"
  | .outsideGenerator => "outside a generator"
  | .switchTest => "in a switch case test value"
  | .guardedBody => "inside the body of a try with catch handlers"
  | .handler => "inside a catch handler"
  | .cleanup => "inside a finally body"

/-- Why a program cannot be built. -/
inductive BuildError where
  | unresolvedLabel (label : String)
  | duplicateLabel (label : String)
  | unsupportedSuspend (place : Restriction) (node : String)
  | notAwaitable (typeName : String)
  | unboundVariable (name : String)
  | rethrowOutsideCatch
  | jumpIntoTry (label : String)
  | jumpIntoExpression (label : String)
  | danglingTarget (source target : String)
  | noChild (node : String) (index : Nat)
deriving DecidableEq, Repr

namespace BuildError

/-- A suspend point in a place that does not support it. -/
def unsupported (place : Restriction) (node : Expr) : BuildError :=
  .unsupportedSuspend place node.describe

/-- The wording of a construction error. -/
def message : BuildError → String
  | .unresolvedLabel label =>
    "goto targets label `" ++ label ++ "` which is not defined in a reachable scope"
  | .duplicateLabel label => "label `" ++ label ++ "` is defined more than once"
  | .unsupportedSuspend place node =>
    "suspend point `" ++ node ++ "` is not supported " ++ place.text
  | .notAwaitable typeName =>
    "type `" ++ typeName ++ "` is not awaitable: no await binder is registered"
  | .unboundVariable name => "variable `" ++ name ++ "` is referenced but never declared"
  | .rethrowOutsideCatch => "rethrow is only valid inside a catch handler"
  | .jumpIntoTry label => "jump to `" ++ label ++ "` enters a try region from outside"
  | .jumpIntoExpression label => "jump to `" ++ label ++ "` enters the middle of an expression"
  | .danglingTarget source target =>
    "transition of " ++ source ++ " references " ++ target ++ " which is not in the graph"
  | .noChild node index => "no child at index " ++ toString index ++ " of " ++ node

end BuildError

end Coroutine
