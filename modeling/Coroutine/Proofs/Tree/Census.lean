import Mathlib
import Coroutine.Tree.Children
import Coroutine.Graph.Transition
import Coroutine.Proofs.Tree.Settings

/-!
# Counting suspend points

A `Tally` counts three kinds of things at once: suspensions on an awaiter, retrievals of its result,
and yielded values. The nodes of an expression are counted by what lowering makes of them, an
`await` being both a suspension and a retrieval; the transitions of a graph by what they are.
-/

namespace Coroutine

/-- The numbers of awaits, of retrieved results and of yielded values. -/
abbrev Tally := ℕ × ℕ × ℕ

namespace Expr

/-- Whether a node waits for an awaitable. -/
def isAwait : Expr → Bool
  | .await .. => true
  | _ => false

/-- Whether a node yields a value. -/
def isYieldReturn : Expr → Bool
  | .yieldReturn _ => true
  | _ => false

/-- What lowering a node adds to the transitions. -/
def weight : Expr → Tally
  | .await .. => (1, 1, 0)
  | .yieldReturn _ => (0, 0, 1)
  | _ => 0

/-- What lowering several nodes adds to the transitions. -/
def tally (l : List Expr) : Tally :=
  (l.countP isAwait, l.countP isAwait, l.countP isYieldReturn)

@[simp] theorem tally_nil : tally [] = 0 := rfl

/-- Nodes are counted one by one. -/
theorem tally_cons (e : Expr) (l : List Expr) : tally (e :: l) = e.weight + tally l := by
  cases e <;> simp [tally, weight, isAwait, isYieldReturn, List.countP_cons, add_comm]

/-- Nodes are counted part by part. -/
theorem tally_append (l l' : List Expr) : tally (l ++ l') = tally l + tally l' := by
  simp [tally, List.countP_append]

/-- Nodes that do not suspend count nothing. -/
theorem tally_eq_zero {l : List Expr} (h : ∀ e ∈ l, e.suspends = false) : tally l = 0 := by
  induction l with
  | nil => rfl
  | cons e l ih =>
    obtain ⟨he, hl⟩ := List.forall_mem_cons.1 h
    rw [tally_cons, ih hl, add_zero]
    cases e <;> first | rfl | cases he

/-- Expressions without suspend points count for nothing. -/
theorem tally_of_plainParts {l : List Expr} (h : l.any suspends = false) :
    tally (l.flatMap (nodes false)) = 0 := by
  refine tally_eq_zero fun x hx => ?_
  obtain ⟨e, he, hx⟩ := List.mem_flatMap.1 hx
  exact plain_nodes (by simpa using List.any_eq_false.1 h e he) x hx

/-- An expression that does not suspend counts nothing. -/
theorem tally_of_plain {e : Expr} (h : e.suspends = false) : tally (e.nodes false) = 0 :=
  tally_eq_zero (plain_nodes h)

/-- Expressions that do not suspend count nothing. -/
theorem tally_of_allPlain {l : List Expr} (h : anySuspends l = false) :
    tally (nodesList false l) = 0 := by
  rw [nodesList_eq, tally_of_plainParts (anySuspends_eq l ▸ h)]

end Expr

namespace Transition

/-- Whether a transition suspends on an awaiter. -/
def isAwait : Transition → Bool
  | .await _ => true
  | _ => false

/-- Whether a transition retrieves an awaiter's result. -/
def isAwaitResult : Transition → Bool
  | .awaitResult _ => true
  | _ => false

/-- Whether a transition yields a value. -/
def isYieldReturn : Transition → Bool
  | .yieldReturn .. => true
  | _ => false

/-- What a transition counts for. -/
def weight : Transition → Tally
  | .await _ => (1, 0, 0)
  | .awaitResult _ => (0, 1, 0)
  | .yieldReturn .. => (0, 0, 1)
  | _ => 0

/-- The suspend points among several transitions. -/
def tally (l : List Transition) : Tally :=
  (l.countP isAwait, l.countP isAwaitResult, l.countP isYieldReturn)

/-- Transitions are counted one by one. -/
theorem tally_cons (t : Transition) (l : List Transition) :
    tally (t :: l) = t.weight + tally l := by
  cases t <;>
    simp [tally, weight, isAwait, isAwaitResult, isYieldReturn, List.countP_cons, add_comm]

/-- Machines resume after the transitions that suspend or yield. -/
theorem length_resumeTargets (l : List Transition) :
    (l.filterMap resumeTarget?).length = l.countP isAwait + l.countP isYieldReturn := by
  induction l with
  | nil => rfl
  | cons t l ih =>
    cases t <;>
      simp [resumeTarget?, isAwait, isYieldReturn, List.filterMap_cons, List.countP_cons, ih] <;>
      omega

end Transition

end Coroutine
