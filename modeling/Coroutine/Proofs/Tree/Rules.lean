import Mathlib
import Coroutine.Proofs.Tree.Checked

/-!
# What an expression may do

`Rules` say which variables an expression may declare and assign and how it may suspend.
`Expr.Obeys` asks this of every part of an expression, the bodies of nested lambdas included. Unlike
`Expr.Fits` it has nothing to do with scopes: rules hold wherever the expression stands.

A lambda that passes its checks suspends the way its kind allows, and nowhere else.
-/

namespace Coroutine

variable {e : Expr}

/-- What the parts of an expression may do. -/
structure Rules where
  /-- The variables that may be declared and assigned. -/
  assigns : Nat → Prop
  /-- Whether there may be awaits. -/
  awaits : Prop
  /-- Whether there may be yields. -/
  yields : Prop

namespace Expr

mutual

/-- Whether an expression keeps to rules. -/
def Obeys (r : Rules) : Expr → Prop
  | .constant _ => True
  | .var _ => True
  | .assign x value => r.assigns x.id ∧ value.Obeys r
  | .binary _ left right => left.Obeys r ∧ right.Obeys r
  | .unary _ operand => operand.Obeys r
  | .call _ args => ObeyAll r args
  | .invoke target args => target.Obeys r ∧ ObeyAll r args
  | .lambda ⟨_, _, _, body⟩ => body.Obeys r
  | .block vars body => (∀ x ∈ vars, r.assigns x.id) ∧ ObeyAll r body
  | .condition test ifTrue none => test.Obeys r ∧ ifTrue.Obeys r
  | .condition test ifTrue (some ifFalse) => test.Obeys r ∧ ifTrue.Obeys r ∧ ifFalse.Obeys r
  | .switch value cases none => value.Obeys r ∧ CasesObey r cases
  | .switch value cases (some fallback) => value.Obeys r ∧ CasesObey r cases ∧ fallback.Obeys r
  | .loop body _ _ => body.Obeys r
  | .goto _ _ none => True
  | .goto _ _ (some value) => value.Obeys r
  | .label _ none => True
  | .label _ (some fallback) => fallback.Obeys r
  | .tryCatch body handlers none => body.Obeys r ∧ HandlersObey r handlers
  | .tryCatch body handlers (some cleanup) =>
    body.Obeys r ∧ HandlersObey r handlers ∧ cleanup.Obeys r
  | .throw none => True
  | .throw (some value) => value.Obeys r
  | .await awaitable _ _ => r.awaits ∧ awaitable.Obeys r
  | .yieldReturn value => r.yields ∧ value.Obeys r
  | .yieldBreak => r.yields

/-- Whether several expressions keep to rules. -/
def ObeyAll (r : Rules) : List Expr → Prop
  | [] => True
  | e :: es => e.Obeys r ∧ ObeyAll r es

/-- Whether the arms of a switch keep to rules. -/
def CasesObey (r : Rules) : List SwitchCase → Prop
  | [] => True
  | ⟨tests, body⟩ :: cs => ObeyAll r tests ∧ body.Obeys r ∧ CasesObey r cs

/-- Whether the handlers of a try keep to rules. -/
def HandlersObey (r : Rules) : List Handler → Prop
  | [] => True
  | ⟨_, x, body⟩ :: hs =>
    (∀ y ∈ x.toList, r.assigns y.id) ∧ body.Obeys r ∧ HandlersObey r hs

end

end Expr

/-- Rules that allow no more than others. -/
structure Rules.Within (r r' : Rules) : Prop where
  assigns : ∀ i, r.assigns i → r'.assigns i
  awaits : r.awaits → r'.awaits
  yields : r.yields → r'.yields

namespace Expr

variable {r r' : Rules}

theorem obeyAll_iff : ∀ {l : List Expr}, ObeyAll r l ↔ ∀ e ∈ l, e.Obeys r
  | [] => by simp [ObeyAll]
  | e :: es => by rw [ObeyAll, obeyAll_iff, List.forall_mem_cons]

theorem casesObey_iff : ∀ {l : List SwitchCase},
    CasesObey r l ↔ ∀ c ∈ l, ObeyAll r c.tests ∧ c.body.Obeys r
  | [] => by simp [CasesObey]
  | ⟨tests, body⟩ :: cs => by rw [CasesObey, casesObey_iff, List.forall_mem_cons, and_assoc]

theorem handlersObey_iff : ∀ {l : List Handler},
    HandlersObey r l ↔ ∀ h ∈ l, (∀ y ∈ h.var.toList, r.assigns y.id) ∧ h.body.Obeys r
  | [] => by simp [HandlersObey]
  | ⟨_, _, _⟩ :: hs => by rw [HandlersObey, handlersObey_iff, List.forall_mem_cons, and_assoc]

/-- What rules ask of a node. -/
def ObeysAt (r : Rules) : Expr → Prop
  | .assign x _ => r.assigns x.id
  | .block vars _ => ∀ x ∈ vars, r.assigns x.id
  | .tryCatch _ handlers _ => ∀ h ∈ handlers, ∀ x ∈ h.var.toList, r.assigns x.id
  | .await .. => r.awaits
  | .yieldReturn _ | .yieldBreak => r.yields
  | _ => True

/-- An expression keeps to rules if its node does and its parts do. -/
theorem obeys_iff : e.Obeys r ↔ e.ObeysAt r ∧ ∀ p ∈ e.parts, p.2.Obeys r := by
  fun_cases Obeys r e <;>
    simp [ObeysAt, parts, Expr.children, SwitchCase.children, obeyAll_iff, casesObey_iff,
      handlersObey_iff, or_imp, forall_and] <;>
    grind

/-- The children of an expression keep to its rules. -/
theorem Obeys.children (h : e.Obeys r) : ∀ c ∈ e.children, c.Obeys r := fun _ hc =>
  (exists_mem_parts hc).elim fun _ hl => (obeys_iff.1 h).2 _ hl.1

/-- What keeps to rules keeps to those that allow more. -/
theorem Obeys.mono (h : r.Within r') (he : e.Obeys r) : e.Obeys r' := by
  induction e using parts_induction with
  | step e ih =>
    obtain ⟨hnode, hparts⟩ := obeys_iff.1 he
    refine obeys_iff.2 ⟨?_, fun p hp => ih p hp (hparts p hp)⟩
    cases e <;> grind [ObeysAt, Rules.Within]

/-- What fits a setting keeps to rules that allow all suspend points and what the setting lets be
declared and assigned. -/
theorem Fits.obeys {s : Setting} (hr : ∀ i, s.inner i ∨ s.assigned i → r.assigns i)
    (hs : r.awaits ∧ r.yields) (he : e.Fits s) : e.Obeys r := by
  induction e using parts_induction generalizing s with
  | step e ih =>
    obtain ⟨hnode, hparts⟩ := fits_iff.1 he
    refine obeys_iff.2 ⟨?_, fun p hp => ih p hp (fun i hi => hr i ?_) (hparts p hp)⟩
    · cases e <;> grind [ObeysAt, FitsAt]
    · obtain ⟨l, c⟩ := p
      cases l <;> exact hi

end Expr

/-- The rules for lambdas of a kind whose variables have numbers up to `n`. -/
def LambdaKind.rules (kind : LambdaKind) (n : Nat) : Rules where
  assigns i := i ≤ n
  awaits := kind = .async
  yields := kind = .generator

namespace Check

theorem Place.Admits.obeysAt {p : Place} {n : Nat} (h : p.Admits e)
    (hn : ∀ y ∈ e.ownVars, y.id ≤ n) : e.ObeysAt (p.kind.rules n) := by
  have hsuits (he : e.isSuspendPoint = true) : suits p.kind e = true := (h.suspends he).2
  cases e with
  | assign x value => exact hn x (.head _)
  | block vars body => exact hn
  | tryCatch body handlers cleanup =>
    exact fun c hc x hx => hn x (List.mem_flatMap.2 ⟨c, hc, hx⟩)
  | await awaitable type configure | yieldReturn value | yieldBreak =>
    exact eq_of_beq (hsuits rfl)
  | _ => trivial

/-- An expression that passes the checks keeps to the rules of the lambda's kind. -/
theorem Passes.obeys {p : Place} {n : Nat} (h : Passes p e)
    (hn : ∀ x ∈ e.walk, ∀ y ∈ x.ownVars, y.id ≤ n) : e.Obeys (p.kind.rules n) := by
  induction e using Expr.parts_induction generalizing p with
  | step e ih =>
    obtain ⟨hnode, hparts⟩ := passes_iff.1 h
    rw [Expr.walk, Expr.walk_eq, List.forall_mem_cons, List.forall_mem_flatMap] at hn
    refine Expr.obeys_iff.2 ⟨hnode.obeysAt hn.1, fun q hq => ?_⟩
    have hkind : (p.through q.1).kind = p.kind := by
      obtain ⟨l, c⟩ := q
      cases l <;> rfl
    rw [← hkind]
    exact ih q hq (hparts q hq).1 (hn.2 q hq)

end Check

/-- The body of a lambda that passes its checks keeps to the rules of its kind. -/
theorem Lambda.check_obeys {l : Lambda} {facts : Facts} (h : l.check = .ok facts) :
    l.body.Obeys (l.kind.rules facts.maxVar) :=
  (check_eq_ok_iff.1 h).1.1.obeys (le_maxVar h).2

end Coroutine
