import Coroutine.Tree.Basic

/-!
# Direct subexpressions

`Expr.children` lists the direct subexpressions in the order of evaluation. A nested lambda has
none: its body belongs to another activation. `Expr.mapChildrenM` replaces each of them, one after
the other.
`Expr.preorder` is the whole expression without nested lambda bodies, each node before its
children, and `Expr.walk` goes into those bodies too.
-/

namespace Coroutine

namespace SwitchCase

/-- The subexpressions of an arm: its test values, then its body. -/
def children (c : SwitchCase) : List Expr := c.tests ++ [c.body]

/-- Replaces the subexpressions of an arm. -/
def mapChildren (f : Expr → Expr) (c : SwitchCase) : SwitchCase := ⟨c.tests.map f, f c.body⟩

/-- Replaces the subexpressions of an arm one after the other. -/
def mapChildrenM {m : Type → Type} [Monad m] (f : Expr → m Expr) (c : SwitchCase) :
    m SwitchCase := do
  let tests ← c.tests.mapM f
  return ⟨tests, ← f c.body⟩

end SwitchCase

/-- Replaces the body of a handler. -/
def Handler.mapBodyM {m : Type → Type} [Monad m] (f : Expr → m Expr) (h : Handler) : m Handler :=
  return { h with body := ← f h.body }

namespace Expr

/-- The direct subexpressions in the order of evaluation. -/
def children : Expr → List Expr
  | .constant _ | .var _ | .lambda _ | .yieldBreak => []
  | .assign _ value => [value]
  | .binary _ left right => [left, right]
  | .unary _ operand => [operand]
  | .call _ args => args
  | .invoke target args => target :: args
  | .block _ body => body
  | .condition test ifTrue ifFalse => test :: ifTrue :: ifFalse.toList
  | .switch value cases fallback => value :: (cases.flatMap SwitchCase.children ++ fallback.toList)
  | .loop body _ _ => [body]
  | .goto _ _ value => value.toList
  | .label _ fallback => fallback.toList
  | .tryCatch body handlers cleanup => body :: (handlers.map Handler.body ++ cleanup.toList)
  | .throw value => value.toList
  | .await awaitable _ _ => [awaitable]
  | .yieldReturn value => [value]

/-- Replaces every direct subexpression, one after the other. -/
def mapChildrenM {m : Type → Type} [Monad m] (f : Expr → m Expr) : Expr → m Expr
  | .assign x value => return .assign x (← f value)
  | .binary op left right => return .binary op (← f left) (← f right)
  | .unary op operand => return .unary op (← f operand)
  | .call function args => return .call function (← args.mapM f)
  | .invoke target args => return .invoke (← f target) (← args.mapM f)
  | .block vars body => return .block vars (← body.mapM f)
  | .condition test ifTrue ifFalse =>
    return .condition (← f test) (← f ifTrue) (← ifFalse.mapM f)
  | .switch value cases fallback =>
    return .switch (← f value) (← cases.mapM (SwitchCase.mapChildrenM f)) (← fallback.mapM f)
  | .loop body b c => return .loop (← f body) b c
  | .goto kind target value => return .goto kind target (← value.mapM f)
  | .label target fallback => return .label target (← fallback.mapM f)
  | .tryCatch body handlers cleanup =>
    return .tryCatch (← f body) (← handlers.mapM (Handler.mapBodyM f)) (← cleanup.mapM f)
  | .throw value => return .throw (← value.mapM f)
  | .await awaitable type configure => return .await (← f awaitable) type configure
  | .yieldReturn value => return .yieldReturn (← f value)
  | e@(.constant _) | e@(.var _) | e@(.lambda _) | e@.yieldBreak => return e

/-- Replaces every direct subexpression. -/
def mapChildren (f : Expr → Expr) (e : Expr) : Expr := Id.run (e.mapChildrenM fun c => pure (f c))

mutual

/-- The nodes of an expression, each before its children. With `deep`, the bodies of nested
lambdas belong to it. -/
def nodes (deep : Bool) : Expr → List Expr
  | e@(.constant _) | e@(.var _) | e@.yieldBreak => [e]
  | e@(.lambda ⟨_, _, _, body⟩) => e :: if deep then body.nodes deep else []
  | e@(.assign _ value) => e :: value.nodes deep
  | e@(.binary _ left right) => e :: (left.nodes deep ++ right.nodes deep)
  | e@(.unary _ operand) => e :: operand.nodes deep
  | e@(.call _ args) => e :: nodesList deep args
  | e@(.invoke target args) => e :: (target.nodes deep ++ nodesList deep args)
  | e@(.block _ body) => e :: nodesList deep body
  | e@(.condition test ifTrue none) => e :: (test.nodes deep ++ ifTrue.nodes deep)
  | e@(.condition test ifTrue (some ifFalse)) =>
    e :: (test.nodes deep ++ ifTrue.nodes deep ++ ifFalse.nodes deep)
  | e@(.switch value cases none) => e :: (value.nodes deep ++ nodesCases deep cases)
  | e@(.switch value cases (some fallback)) =>
    e :: (value.nodes deep ++ nodesCases deep cases ++ fallback.nodes deep)
  | e@(.loop body _ _) => e :: body.nodes deep
  | e@(.goto _ _ none) => [e]
  | e@(.goto _ _ (some value)) => e :: value.nodes deep
  | e@(.label _ none) => [e]
  | e@(.label _ (some fallback)) => e :: fallback.nodes deep
  | e@(.tryCatch body handlers none) => e :: (body.nodes deep ++ nodesHandlers deep handlers)
  | e@(.tryCatch body handlers (some cleanup)) =>
    e :: (body.nodes deep ++ nodesHandlers deep handlers ++ cleanup.nodes deep)
  | e@(.throw none) => [e]
  | e@(.throw (some value)) => e :: value.nodes deep
  | e@(.await awaitable _ _) => e :: awaitable.nodes deep
  | e@(.yieldReturn value) => e :: value.nodes deep

/-- The nodes of a list of expressions. -/
def nodesList (deep : Bool) : List Expr → List Expr
  | [] => []
  | e :: es => e.nodes deep ++ nodesList deep es

/-- The nodes of the arms of a switch. -/
def nodesCases (deep : Bool) : List SwitchCase → List Expr
  | [] => []
  | ⟨tests, body⟩ :: cs => nodesList deep tests ++ body.nodes deep ++ nodesCases deep cs

/-- The nodes of the handlers of a try. -/
def nodesHandlers (deep : Bool) : List Handler → List Expr
  | [] => []
  | ⟨_, _, body⟩ :: hs => body.nodes deep ++ nodesHandlers deep hs

end

/-- The nodes of an expression without the bodies of nested lambdas, each before its children. -/
def preorder (e : Expr) : List Expr := e.nodes false

/-- The nodes of an expression and of all lambdas nested in it, each before its children. -/
def walk (e : Expr) : List Expr := e.nodes true

/-- Whether an expression is a nested lambda. -/
def isLambda : Expr → Bool
  | .lambda _ => true
  | _ => false

end Expr

end Coroutine
