import Mathlib
import Coroutine.Tree.Rethrow
import Coroutine.Proofs.Tree.Parts

/-!
# Expressions that fit their setting

A `Setting` says what surrounds an expression: the variables that exist, the ones that scopes inside
it may declare and the ones that it may assign, whether a handler is running and whether suspend
points are allowed. `Expr.Fits` follows the scoping of the language: an expression fits a setting if
all it refers to is there.

An expression without suspend points fits a setting that allows none, and throwing again through a
variable needs no running handler.
-/

namespace Coroutine

variable {s : Setting} {e : Expr}

/-- What surrounds an expression. -/
structure Setting where
  /-- The variables that scopes inside may declare. -/
  inner : Nat → Prop
  /-- The variables that exist. -/
  bound : Nat → Prop
  /-- The variables that may be assigned where they exist. -/
  assigned : Nat → Prop
  /-- Whether a handler is running. -/
  handling : Bool
  /-- Whether suspend points are allowed. -/
  waits : Bool

namespace Setting

/-- Inside a scope with variables of its own. -/
def declaring (s : Setting) (xs : List Var) : Setting :=
  { s with bound := fun i => i ∈ xs.map Var.id ∨ s.bound i }

/-- Inside a nested lambda. -/
def entering (s : Setting) (params : List Var) : Setting :=
  { s.declaring params with handling := false, waits := false }

/-- Inside a handler. -/
def catching (s : Setting) (x : Option Var) : Setting :=
  { s.declaring x.toList with handling := true }

/-- Whether one setting offers all that another does. -/
structure Within (s t : Setting) : Prop where
  inner : ∀ i, s.inner i → t.inner i
  bound : ∀ i, s.bound i → t.bound i
  assigned : ∀ i, s.assigned i → t.assigned i
  handling : s.handling = true → t.handling = true
  waits : s.waits = true → t.waits = true

/-- Inside a part of the expression. -/
def through (s : Setting) : Link → Setting
  | .plain => s
  | .scope vars => s.declaring vars
  | .handler x => s.catching x
  | .body params => s.entering params

/-- A larger setting is larger in all parts. -/
theorem Within.through {t : Setting} (h : s.Within t) (l : Link) :
    (s.through l).Within (t.through l) := by
  have hbound (xs : List Var) : ∀ i, (s.declaring xs).bound i → (t.declaring xs).bound i :=
    fun i hi => hi.imp_right (h.bound i)
  cases l with
  | plain => exact h
  | scope vars => exact ⟨h.inner, hbound vars, h.assigned, h.handling, h.waits⟩
  | handler x => exact ⟨h.inner, hbound x.toList, h.assigned, id, h.waits⟩
  | body params => exact ⟨h.inner, hbound params, h.assigned, id, id⟩

end Setting

namespace Expr

mutual

/-- Whether an expression fits a setting. -/
def Fits (s : Setting) : Expr → Prop
  | .constant _ => True
  | .var x => s.bound x.id
  | .assign x value => (s.bound x.id ∧ s.assigned x.id) ∧ value.Fits s
  | .binary _ left right => left.Fits s ∧ right.Fits s
  | .unary _ operand => operand.Fits s
  | .call _ args => FitAll s args
  | .invoke target args => target.Fits s ∧ FitAll s args
  | .lambda ⟨_, _, params, body⟩ => (∀ x ∈ params, s.inner x.id) ∧ body.Fits (s.entering params)
  | .block vars body => (∀ x ∈ vars, s.inner x.id) ∧ FitAll (s.declaring vars) body
  | .condition test ifTrue none => test.Fits s ∧ ifTrue.Fits s
  | .condition test ifTrue (some ifFalse) => test.Fits s ∧ ifTrue.Fits s ∧ ifFalse.Fits s
  | .switch value cases none => value.Fits s ∧ CasesFit s cases
  | .switch value cases (some fallback) => value.Fits s ∧ CasesFit s cases ∧ fallback.Fits s
  | .loop body _ _ => body.Fits s
  | .goto _ _ none => True
  | .goto _ _ (some value) => value.Fits s
  | .label _ none => True
  | .label _ (some fallback) => fallback.Fits s
  | .tryCatch body handlers none => body.Fits s ∧ HandlersFit s handlers
  | .tryCatch body handlers (some cleanup) =>
    body.Fits s ∧ HandlersFit s handlers ∧ cleanup.Fits s
  | .throw none => s.handling = true
  | .throw (some value) => value.Fits s
  | .await awaitable _ _ => s.waits = true ∧ awaitable.Fits s
  | .yieldReturn value => s.waits = true ∧ value.Fits s
  | .yieldBreak => s.waits = true

/-- Whether several expressions fit a setting. -/
def FitAll (s : Setting) : List Expr → Prop
  | [] => True
  | e :: es => e.Fits s ∧ FitAll s es

/-- Whether the arms of a switch fit a setting. -/
def CasesFit (s : Setting) : List SwitchCase → Prop
  | [] => True
  | ⟨tests, body⟩ :: cs => FitAll s tests ∧ body.Fits s ∧ CasesFit s cs

/-- Whether the handlers of a try fit a setting. -/
def HandlersFit (s : Setting) : List Handler → Prop
  | [] => True
  | ⟨_, x, body⟩ :: hs =>
    (∀ y ∈ x.toList, s.inner y.id) ∧ body.Fits (s.catching x) ∧ HandlersFit s hs

end

/-- A list fits if all its expressions do. -/
theorem fitAll_iff {l : List Expr} : FitAll s l ↔ ∀ e ∈ l, e.Fits s := by
  induction l with
  | nil => simp [FitAll]
  | cons e es ih => simp [FitAll, ih]

/-- Arms fit if all their expressions do. -/
theorem casesFit_iff {l : List SwitchCase} :
    CasesFit s l ↔ ∀ c ∈ l, FitAll s c.tests ∧ c.body.Fits s := by
  induction l with
  | nil => simp [CasesFit]
  | cons c cs ih =>
    obtain ⟨tests, body⟩ := c
    simp [CasesFit, ih, and_assoc]

/-- Handlers fit if their bodies do where the variable is bound. -/
theorem handlersFit_iff {l : List Handler} :
    HandlersFit s l ↔
    ∀ h ∈ l, (∀ y ∈ h.var.toList, s.inner y.id) ∧ h.body.Fits (s.catching h.var) := by
  induction l with
  | nil => simp [HandlersFit]
  | cons h hs ih =>
    obtain ⟨filter, x, body⟩ := h
    simp [HandlersFit, ih, and_assoc]

/-- What a node itself asks of its setting. -/
def FitsAt (s : Setting) : Expr → Prop
  | .var x => s.bound x.id
  | .assign x _ => s.bound x.id ∧ s.assigned x.id
  | .lambda l => ∀ x ∈ l.params, s.inner x.id
  | .block vars _ => ∀ x ∈ vars, s.inner x.id
  | .tryCatch _ handlers _ => ∀ h ∈ handlers, ∀ x ∈ h.var.toList, s.inner x.id
  | .throw value => value = none → s.handling = true
  | .await .. | .yieldReturn _ | .yieldBreak => s.waits = true
  | _ => True

/-- An expression fits if its node does and its parts do. -/
theorem fits_iff : e.Fits s ↔ e.FitsAt s ∧ ∀ p ∈ e.parts, p.2.Fits (s.through p.1) := by
  fun_cases Fits s e <;>
    simp [FitsAt, parts, children, SwitchCase.children, Setting.through, fitAll_iff,
      casesFit_iff, handlersFit_iff, or_imp, forall_and] <;>
    grind

/-- What fits a setting fits a larger one. -/
theorem Fits.mono {t : Setting} (h : s.Within t) (he : e.Fits s) : e.Fits t := by
  induction e using parts_induction generalizing s t with
  | step e ih =>
    rw [fits_iff] at he ⊢
    refine ⟨?_, fun p hp => ih p hp (h.through p.1) (he.2 p hp)⟩
    obtain ⟨hnode, -⟩ := he
    cases e <;> grind [FitsAt, Setting.Within]

/-- A list that fits also fits a larger setting. -/
theorem FitAll.mono {t : Setting} (h : s.Within t) {l : List Expr} (hl : FitAll s l) : FitAll t l :=
  fitAll_iff.2 fun e he => (fitAll_iff.1 hl e he).mono h

/-- An expression without suspend points fits where none are allowed. -/
theorem Fits.plain (he : e.Fits s) (h : e.suspends = false) : e.Fits { s with waits := false } := by
  induction e using parts_induction generalizing s with
  | step e ih =>
    rw [suspends_eq, Bool.or_eq_false_iff, List.any_eq_false] at h
    rw [fits_iff] at he ⊢
    refine ⟨?_, fun p hp => ?_⟩
    · obtain ⟨hnode, -⟩ := he
      cases e <;> first | exact hnode | cases h.1
    · -- a nested lambda allows no suspend points anyway
      obtain ⟨params, hl⟩ | hc := mem_children_of_mem_parts hp
      · have hp := he.2 p hp
        rw [hl] at hp ⊢
        exact hp
      · have hp := ih p hp (he.2 p hp) (by simpa using h.2 p.2 hc)
        obtain ⟨l, c⟩ := p
        cases l <;> exact hp

/-- Where no suspend points are allowed, an expression that fits has none. -/
theorem Fits.suspends_eq_false (hs : s.waits = false) (he : e.Fits s) : e.suspends = false := by
  induction e using parts_induction generalizing s with
  | step e ih =>
    rw [fits_iff] at he
    rw [suspends_eq, Bool.or_eq_false_iff, List.any_eq_false]
    constructor
    · obtain ⟨hnode, -⟩ := he
      cases e <;> first | rfl | exact absurd (hs.symm.trans hnode) Bool.false_ne_true
    · intro c hc
      obtain ⟨l, hl, -⟩ := exists_mem_parts hc
      have hwaits : (s.through l).waits = false := by cases l <;> first | exact hs | rfl
      simpa using ih _ hl hwaits (he.2 _ hl)

/-! ## Throwing again -/

/-- Handlers fit whether or not a handler runs around them. -/
theorem HandlersFit.anywhere {s : Setting} (b : Bool) :
    ∀ {l : List Handler}, HandlersFit s l → HandlersFit { s with handling := b } l
  | [], _ => trivial
  | ⟨_, _, _⟩ :: _, hl => ⟨hl.1, hl.2.1, HandlersFit.anywhere b hl.2.2⟩

mutual

/-- An expression of a handler that throws again through a variable needs no running handler. -/
theorem Fits.rethrowing {s : Setting} {x : Var} (hx : s.bound x.id) :
    ∀ {e : Expr}, e.Fits { s with handling := true } →
      (e.rethrowing x).Fits { s with handling := false }
  | .constant _, _ => trivial
  | .var _, he => he
  | .assign _ _, he => ⟨he.1, he.2.rethrowing hx⟩
  | .binary _ _ _, he => ⟨he.1.rethrowing hx, he.2.rethrowing hx⟩
  | .unary _ operand, he => Fits.rethrowing (e := operand) hx he
  | .call _ args, he => FitAll.rethrowing (l := args) hx he
  | .invoke _ _, he => ⟨he.1.rethrowing hx, he.2.rethrowing hx⟩
  | .lambda ⟨_, _, _, _⟩, he => he
  | .block vars _, he => ⟨he.1, FitAll.rethrowing (s := s.declaring vars) (.inr hx) he.2⟩
  | .condition _ _ none, he => ⟨he.1.rethrowing hx, he.2.rethrowing hx⟩
  | .condition _ _ (some _), he =>
    ⟨he.1.rethrowing hx, he.2.1.rethrowing hx, he.2.2.rethrowing hx⟩
  | .switch _ _ none, he => ⟨he.1.rethrowing hx, he.2.rethrowing hx⟩
  | .switch _ _ (some _), he => ⟨he.1.rethrowing hx, he.2.1.rethrowing hx, he.2.2.rethrowing hx⟩
  | .loop body _ _, he => Fits.rethrowing (e := body) hx he
  | .goto _ _ none, _ => trivial
  | .goto _ _ (some value), he => Fits.rethrowing (e := value) hx he
  | .label _ none, _ => trivial
  | .label _ (some fallback), he => Fits.rethrowing (e := fallback) hx he
  | .tryCatch _ _ none, he => ⟨he.1.rethrowing hx, he.2.anywhere false⟩
  | .tryCatch _ _ (some _), he =>
    ⟨he.1.rethrowing hx, he.2.1.anywhere false, he.2.2.rethrowing hx⟩
  | .throw none, _ => hx
  | .throw (some value), he => Fits.rethrowing (e := value) hx he
  | .await _ _ _, he => ⟨he.1, he.2.rethrowing hx⟩
  | .yieldReturn _, he => ⟨he.1, he.2.rethrowing hx⟩
  | .yieldBreak, he => he

/-- Expressions that throw again through a variable need no running handler. -/
theorem FitAll.rethrowing {s : Setting} {x : Var} (hx : s.bound x.id) :
    ∀ {l : List Expr}, FitAll { s with handling := true } l →
      FitAll { s with handling := false } (rethrowingList x l)
  | [], _ => trivial
  | _ :: _, hl => ⟨hl.1.rethrowing hx, hl.2.rethrowing hx⟩

/-- Arms that throw again through a variable need no running handler. -/
theorem CasesFit.rethrowing {s : Setting} {x : Var} (hx : s.bound x.id) :
    ∀ {l : List SwitchCase}, CasesFit { s with handling := true } l →
      CasesFit { s with handling := false } (rethrowingCases x l)
  | [], _ => trivial
  | ⟨_, _⟩ :: _, hl => ⟨hl.1.rethrowing hx, hl.2.1.rethrowing hx, hl.2.2.rethrowing hx⟩

end

end Expr

end Coroutine
