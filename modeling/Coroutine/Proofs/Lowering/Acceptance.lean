import Mathlib
import Coroutine.Proofs.Lowering.Result

/-!
# What lowering accepts

`Lambda.lower_accepts_supported`: a lambda that passes its checks has a state graph if all nodes of
its body are supported, and is refused otherwise. Lowering the body decides whether they are
(`Lambda.lowerBody_decides`); what comes after it always succeeds.
-/

namespace Coroutine

/-- A registry refuses types that it does not know. -/
theorem Registry.binder_refuses {r : Registry} {e : BuildError} (h : Expr.Resolver.Refuses r.binder e) :
    (∃ type, e = .notAwaitable type) ∨ ∃ place node, e = .unsupportedSuspend place node := by
  refine h.imp_left ?_
  rintro ⟨type, h⟩
  unfold Registry.binder at h
  split at h
  · cases h
  · exact ⟨type, (Except.error.inj h).symm⟩

/-- A regular graph is valid. -/
theorem Graph.Regular.validate {n : Nat} {g : Graph} (hg : g.Regular n) : g.validate = .ok () := by
  have hall : ∀ l : List (Nat × State), (∀ x ∈ l, g.validateState x.1 x.2 = .ok ()) →
      (l.forM fun x => g.validateState x.1 x.2) = .ok () := by
    intro l hl
    induction l with
    | nil => rfl
    | cons x l ih =>
      change (g.validateState x.1 x.2 >>= fun _ => l.forM fun x => g.validateState x.1 x.2) = _
      rw [hl x List.mem_cons_self]
      exact ih fun y hy => hl y (List.mem_cons_of_mem _ hy)
  refine hall _ fun ⟨s, x⟩ hx => ?_
  obtain ⟨hs, rfl⟩ := mem_liveStates.1 hx
  obtain ⟨t, ht, hrefs⟩ := hg.leads s hs
  have hfind : (t.references.find? fun r => !g.isLive r) = none :=
    List.find?_eq_none.2 fun r hr => by simp [hrefs r hr]
  simp [Graph.validateState, ht, hfind]

/-- Lowering a lambda that passes its checks decides whether its nodes are supported: closing and
validating its graph always succeed. -/
theorem Lambda.lower_decides (resolve : Expr.Resolver) {l : Lambda} {facts : Facts}
    (hcheck : l.check = .ok facts) :
    (∃ g, l.lower resolve = .ok g ∧ ∀ x ∈ l.body.preorder, x.Supported resolve) ∨
      ∃ e, l.lower resolve = .error e ∧ ¬ (∀ x ∈ l.body.preorder, x.Supported resolve) ∧
        resolve.Refuses e := by
  have hlower : l.lower resolve = ((Lowering.lowerBody resolve l.kind l.body).run (l.first facts) >>=
      fun x => x.2.graph.close.1 >>= fun _ => x.2.graph.close.2.validate >>= fun _ =>
        .ok x.2.graph.close.2) := by
    rw [Lambda.lower, hcheck]
    rfl
  rcases Lambda.lowerBody_decides resolve hcheck with
    ⟨⟨⟩, d, hrun, hsupported, hleads, c, hd⟩ | ⟨e, hrun, hrefused⟩
  · obtain ⟨hregular, -⟩ := Lambda.lowerBody_regular hcheck hrun
    refine .inl ⟨d.graph, ?_, hsupported⟩
    rw [hlower, StateT.run, hrun]
    change (d.graph.close.1 >>= fun _ => d.graph.close.2.validate >>= fun _ =>
      .ok d.graph.close.2) = _
    rw [hd.close_eq hleads.sound]
    change (d.graph.validate >>= fun _ => .ok d.graph) = _
    rw [hregular.validate]
    rfl
  · refine .inr ⟨e, ?_, hrefused⟩
    rw [hlower, StateT.run, hrun]
    rfl

/-- A lambda has a state graph if it passes its checks and all nodes of its body are supported. If it
only passes its checks, it is refused. -/
theorem Lambda.lower_accepts_supported (r : Registry) (l : Lambda) :
    ((∃ g, l.lower r.binder = .ok g) ↔
      (∃ facts, l.check = .ok facts) ∧ ∀ x ∈ l.body.preorder, x.Supported r.binder) ∧
    ∀ facts e, l.check = .ok facts → l.lower r.binder = .error e →
      (∃ type, e = .notAwaitable type) ∨ ∃ place node, e = .unsupportedSuspend place node := by
  refine ⟨⟨?_, ?_⟩, fun facts e hcheck he => ?_⟩
  · rintro ⟨g, hg⟩
    obtain ⟨facts, hcheck, -⟩ := bind_eq_ok.1 hg
    rcases Lambda.lower_decides r.binder hcheck with ⟨-, -, h⟩ | ⟨e, he, -⟩
    · exact ⟨⟨facts, hcheck⟩, h⟩
    · cases hg.symm.trans he
  · rintro ⟨⟨facts, hcheck⟩, h⟩
    rcases Lambda.lower_decides r.binder hcheck with ⟨g, hg, -⟩ | ⟨-, -, hno, -⟩
    · exact ⟨g, hg⟩
    · exact absurd h hno
  · rcases Lambda.lower_decides r.binder hcheck with ⟨g, hg, -⟩ | ⟨e', he', -, hrefuses⟩
    · cases hg.symm.trans he
    · cases he.symm.trans he'
      exact Registry.binder_refuses hrefuses

/-- A generator that yields inside the body of a try. -/
def Lambda.yieldInside (handlers : List Handler) (cleanup : Option Expr) : Lambda :=
  ⟨some "yields", .generator, [],
    .tryCatch (.yieldReturn (.constant (.int 1))) handlers cleanup⟩

/-- A body with nothing but a cleanup may yield, one with a handler may not. -/
theorem Lambda.yieldInside_judged :
    (∃ g, (Lambda.yieldInside [] (some .unit)).lower Registry.builtin.binder = .ok g) ∧
    (∃ facts, (Lambda.yieldInside [⟨.any, none, .unit⟩] (some .unit)).check = .ok facts) ∧
    ¬ ∃ g, (Lambda.yieldInside [⟨.any, none, .unit⟩] (some .unit)).lower Registry.builtin.binder
      = .ok g := by
  refine ⟨(Lambda.lower_accepts_supported _ _).1.2 ⟨⟨_, rfl⟩, ?_⟩, ⟨_, rfl⟩, fun h => ?_⟩
  · simp [Lambda.yieldInside, Expr.preorder, Expr.nodes, Expr.nodesHandlers, Expr.Supported,
      Expr.unit, Expr.isYieldReturn, Expr.isYieldBreak]
  · have hsupported := ((Lambda.lower_accepts_supported _ _).1.1 h).2 _ List.mem_cons_self
    simp [Expr.preorder, Expr.nodes, Expr.Supported, Expr.isYieldReturn] at hsupported

end Coroutine
