import Coroutine.BuildError
import Coroutine.Tree.Suspension

/-!
# Construction checks

`Lambda.check` accepts a lambda whose variables are all declared around their uses, whose labels
are each defined once and all found, whose suspend points suit its kind and lie in its own body,
and which throws again only inside handlers. It reports facts about the lambda on the way:
`Facts`.

The scope is an argument of the traversal, so leaving a block needs no undoing. The facts and the
labels of the current lambda are its state.
-/

namespace Coroutine

/-- What the checks find out about a lambda. -/
structure Facts where
  /-- The number of suspend points. -/
  suspendPoints : Nat := 0
  /-- The largest variable number anywhere in the tree. -/
  maxVar : Nat := 0
  /-- The largest label number anywhere in the tree. -/
  maxLabel : Nat := 0
  /-- The variables a nested lambda refers to and does not declare, in the order of their first
  such use. -/
  captured : List Var := []
deriving Repr, Inhabited

namespace Check

/-- Where in the tree a node stands. -/
structure Place where
  /-- The kind of the outermost lambda. -/
  kind : LambdaKind
  /-- The variables in scope that the current lambda declares. -/
  own : List Nat := []
  /-- The variables in scope that enclosing lambdas declare. -/
  outer : List Nat := []
  /-- Whether the current lambda is a nested one. -/
  nested : Bool := false
  /-- Whether a handler of the current lambda encloses the node. -/
  handling : Bool := false

/-- Enters a scope with variables of its own. -/
def Place.declaring (p : Place) (xs : List Var) : Place := { p with own := xs.map Var.id ++ p.own }

/-- Enters a nested lambda. -/
def Place.entering (p : Place) (params : List Var) : Place :=
  { p with own := params.map Var.id, outer := p.own ++ p.outer, nested := true, handling := false }

/-- What the traversal has gathered: facts on the whole tree, labels of the current lambda. -/
structure Survey where
  facts : Facts := {}
  defined : List Nat := []
  targeted : List Label := []

/-- A traversal that may find an error. -/
abbrev Checker := StateT Survey (Except BuildError)

/-- Notes that a variable number is in use. -/
def useVar (id : Nat) : Checker Unit :=
  modify fun s => { s with facts := { s.facts with maxVar := max s.facts.maxVar id } }

/-- Notes that a label number is in use. -/
def useLabel (id : Nat) : Checker Unit :=
  modify fun s => { s with facts := { s.facts with maxLabel := max s.facts.maxLabel id } }

/-- A reference to a variable, which must be in scope. -/
def reference (p : Place) (x : Var) : Checker Unit := do
  useVar x.id
  if p.own.contains x.id then
    pure ()
  else if p.outer.contains x.id then
    modify fun s =>
      if s.facts.captured.any (·.id == x.id) then s
      else { s with facts := { s.facts with captured := s.facts.captured ++ [x] } }
  else
    throw (.unboundVariable x.name)

/-- The definition of a label, which must be its only one. -/
def define (l : Label) : Checker Unit := do
  useLabel l.id
  if (← get).defined.contains l.id then
    throw (.duplicateLabel l.text)
  else
    modify fun s => { s with defined := l.id :: s.defined }

/-- The definition of a label that a loop may leave out. -/
def defineOptional : Option Label → Checker Unit
  | none => pure ()
  | some l => define l

/-- A jump to a label. -/
def target (l : Label) : Checker Unit := do
  useLabel l.id
  modify fun s => { s with targeted := s.targeted ++ [l] }

/-- The restriction that a kind of lambda puts on suspend points that do not suit it. -/
def kindRestriction : LambdaKind → Restriction
  | .sync => .syncLambda
  | .async => .asyncLambda
  | .generator => .generator

/-- Whether a suspend point suits the kind of the lambda around it. -/
def suits (kind : LambdaKind) : Expr → Bool
  | .await .. => kind == .async
  | _ => kind == .generator

/-- A suspend point, which must lie in the outermost lambda and suit its kind. -/
def suspendPoint (p : Place) (e : Expr) : Checker Unit :=
  if p.nested then
    throw (.unsupported .nestedBody e)
  else if suits p.kind e then
    modify fun s => { s with facts := { s.facts with suspendPoints := s.facts.suspendPoints + 1 } }
  else
    throw (.unsupported (kindRestriction p.kind) e)

/-- Checks the body of a lambda with labels of its own, every one of which must be found. -/
def withLabels (body : Checker Unit) : Checker Unit := do
  let outside ← get
  set { outside with defined := [], targeted := [] }
  body
  let inside ← get
  match inside.targeted.find? fun l => !inside.defined.contains l.id with
  | some missing => throw (.unresolvedLabel missing.text)
  | none => set { outside with facts := inside.facts }

/-- Notes the variables that a scope declares. -/
def declare : List Var → Checker Unit
  | [] => pure ()
  | x :: xs => do
    useVar x.id
    declare xs

mutual

/-- Checks an expression. -/
def check (p : Place) : Expr → Checker Unit
  | .constant _ => pure ()
  | .var x => reference p x
  | .assign x value => do
    reference p x
    check p value
  | .binary _ left right => do
    check p left
    check p right
  | .unary _ operand => check p operand
  | .call _ args => checkList p args
  | .invoke target args => do
    check p target
    checkList p args
  | e@(.lambda ⟨_, kind, params, body⟩) =>
    if kind ≠ .sync then
      throw (.unsupported .nestedCoroutine e)
    else
      match body.firstSuspend? with
      | some node => throw (.unsupported .nestedBody node)
      | none => withLabels do
        declare params
        check (p.entering params) body
  | .block vars body => do
    declare vars
    checkList (p.declaring vars) body
  | .condition test ifTrue none => do
    check p test
    check p ifTrue
  | .condition test ifTrue (some ifFalse) => do
    check p test
    check p ifTrue
    check p ifFalse
  | .switch value cases none => do
    check p value
    checkCases p cases
  | .switch value cases (some fallback) => do
    check p value
    checkCases p cases
    check p fallback
  | .loop body breakLabel continueLabel => do
    defineOptional breakLabel
    defineOptional continueLabel
    check p body
  | .goto _ l none => target l
  | .goto _ l (some value) => do
    target l
    check p value
  | .label l none => define l
  | .label l (some fallback) => do
    define l
    check p fallback
  | .tryCatch body handlers none => do
    check p body
    checkHandlers p handlers
  | .tryCatch body handlers (some cleanup) => do
    check p body
    checkHandlers p handlers
    check p cleanup
  | .throw none => if p.handling then pure () else throw .rethrowOutsideCatch
  | .throw (some value) => check p value
  | e@(.await awaitable _ _) => do
    suspendPoint p e
    check p awaitable
  | e@(.yieldReturn value) => do
    suspendPoint p e
    check p value
  | e@.yieldBreak => suspendPoint p e

/-- Checks several expressions. -/
def checkList (p : Place) : List Expr → Checker Unit
  | [] => pure ()
  | e :: es => do
    check p e
    checkList p es

/-- Checks the arms of a switch. -/
def checkCases (p : Place) : List SwitchCase → Checker Unit
  | [] => pure ()
  | ⟨tests, body⟩ :: cs => do
    checkList p tests
    check p body
    checkCases p cs

/-- Checks the handlers of a try. -/
def checkHandlers (p : Place) : List Handler → Checker Unit
  | [] => pure ()
  | ⟨_, x, body⟩ :: hs => do
    declare x.toList
    check { p.declaring x.toList with handling := true } body
    checkHandlers p hs

end

end Check

/-- Checks a lambda. -/
def Lambda.check (l : Lambda) : Except BuildError Facts := do
  let place : Check.Place := { kind := l.kind, own := l.params.map Var.id }
  let body : Check.Checker Unit := do
    Check.declare l.params
    Check.check place l.body
  let ((), survey) ← (Check.withLabels body).run {}
  return survey.facts

end Coroutine
