import Mathlib
import Coroutine.Proofs.Code.Built
import Coroutine.Proofs.Tree.Rules

/-!
# What code may do

Code keeps to the rules that its expression keeps to: a node assigns a variable, awaits or yields
only where the expression does. The bodies of nested lambdas are code of their own and keep to the
same rules.
-/

namespace Coroutine

/-- Whether a node keeps to rules. -/
def Op.Obeys (r : Rules) : Op → Prop
  | .assign x => r.assigns x.id
  | .await .. => r.awaits
  | .yieldReturn | .yieldBreak => r.yields
  | _ => True

/-- All nodes of code keep to rules, and so do the bodies of nested lambdas. -/
inductive Code.Obeys (r : Rules) : Code → Prop
  | mk {c : Code} (op : ∀ id, (c.node id).op.Obeys r)
      (body : ∀ id t, (c.node id).op = .lambda t → Obeys r t.code) : Obeys r c

theorem Code.Obeys.op {r : Rules} {c : Code} (id : Nat) : c.Obeys r → (c.node id).op.Obeys r
  | .mk h _ => h id

theorem Code.Obeys.body {r : Rules} {c : Code} {id : Nat} {t : Template} :
    c.Obeys r → (c.node id).op = .lambda t → t.code.Obeys r
  | .mk _ h => h id t

/-! ## Expressions -/

namespace Expr

variable {resolve : Resolver} {r : Rules} {e : Expr}

/-- The node of an expression keeps to the rules that the expression keeps to. -/
theorem ObeysAt.op {op : Op} (h : e.ObeysAt r) (hop : e.Does resolve op) : op.Obeys r := by
  cases e with
  | lambda l | await a type configure =>
    obtain ⟨_, -, hop⟩ := bind_eq_ok.1 hop
    cases hop
    exact h
  | goto kind t v =>
    obtain ⟨q, rfl⟩ := hop
    trivial
  | throw value => cases value <;> cases hop <;> trivial
  | _ =>
    cases hop
    first | exact h | trivial

/-- All nodes of an expression that keeps to rules keep to them, and so does its code. -/
theorem Obeys.code (he : e.Obeys r) :
    (∀ c parent slot id, Code.Mirrors resolve c parent slot id e → ∀ path i,
      c.follow id path = some i →
        (c.node i).op.Obeys r ∧ ∀ t, (c.node i).op = .lambda t → t.code.Obeys r) ∧
      ∀ allow code, Code.build resolve allow e = .ok code → code.Obeys r := by
  induction e using parts_induction with
  | step e ih =>
    obtain ⟨hnode, hparts⟩ := obeys_iff.1 he
    -- nodes first, along their paths: a lambda brings the code of its body
    have hnodes c parent slot id (h : Code.Mirrors resolve c parent slot id e) (path : List Nat)
        (i : Nat) (hi : c.follow id path = some i) :
        (c.node i).op.Obeys r ∧ ∀ t, (c.node i).op = .lambda t → t.code.Obeys r := by
      cases path with
      | nil =>
        cases hi
        refine ⟨hnode.op h.does, fun t ht => ?_⟩
        obtain ⟨l, rfl, -, hcode⟩ := (ht ▸ h.does).lambda
        have hmem : (Link.body l.params, l.body) ∈ (Expr.lambda l).parts := List.mem_singleton.2 rfl
        exact (ih _ hmem (hparts _ hmem)).2 false t.code hcode
      | cons k path =>
        obtain ⟨j, hj, hi⟩ := Option.bind_eq_some_iff.1 hi
        obtain ⟨x, hx, hm⟩ := h.child hj
        obtain ⟨l, hl, -⟩ := exists_mem_parts (List.mem_of_getElem? hx)
        exact (ih _ hl (hparts _ hl)).1 c _ _ j hm path i hi
    refine ⟨hnodes, fun allow code h => ?_⟩
    have hrenders := Code.build_renders h
    have hall (id : Nat) : (code.node id).op.Obeys r ∧
        ∀ t, (code.node id).op = .lambda t → t.code.Obeys r := by
      -- where no path leads, there is only the default node
      rcases hrenders.reach id with ⟨path, hpath⟩ | hid
      · exact hnodes code _ _ _ hrenders.mirrors path id hpath
      · rw [hid]
        exact ⟨trivial, nofun⟩
    exact .mk (fun id => (hall id).1) fun id => (hall id).2

end Expr

/-- The code of an expression keeps to the rules that the expression keeps to. -/
theorem Code.build_obeys {resolve : Expr.Resolver} {allow : Bool} {e : Expr} {code : Code}
    {r : Rules} (he : e.Obeys r) (h : Code.build resolve allow e = .ok code) : code.Obeys r :=
  he.code.2 allow code h

end Coroutine
