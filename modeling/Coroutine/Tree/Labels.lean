import Coroutine.Tree.Children

/-!
# Labels of a tree

The labels an expression defines, by label nodes and by loops, and the targets of its jumps.
Nested lambdas have labels of their own and do not count.
-/

namespace Coroutine.Expr

/-- The labels that a node itself defines. -/
def ownLabels : Expr → List Nat
  | .label target _ => [target.id]
  | .loop _ breakLabel continueLabel =>
    (breakLabel.toList ++ continueLabel.toList).map Label.id
  | _ => []

/-- The target of a jump. -/
def jumpTarget? : Expr → Option Label
  | .goto _ target _ => some target
  | _ => none

/-- The labels defined in an expression. -/
def definedLabels (e : Expr) : List Nat := e.preorder.flatMap ownLabels

/-- The targets of the jumps in an expression, the first mention of each. -/
def jumpTargets (e : Expr) : List Label :=
  (e.preorder.filterMap jumpTarget?).foldl
    (fun seen l => if seen.any (·.id == l.id) then seen else seen ++ [l]) []

/-- The jump targets of an expression that it does not define. -/
def escapingTargets (e : Expr) : List Label :=
  let defined := e.definedLabels
  e.jumpTargets.filter fun l => !defined.contains l.id

end Coroutine.Expr
