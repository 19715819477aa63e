import Mathlib
import Coroutine.Proofs.Code.Built

/-!
# When code can be built

Reducing an expression fails only where an awaitable type is unknown or a nested lambda has no code.
So an expression whose labels are unique has code exactly if each of its jumps has a way to its label,
and then its jumps take these ways.
-/

namespace Coroutine

namespace Expr

variable {resolve : Resolver}

theorem exists_op_iff {e : Expr} : (∃ op, e.op? resolve = .ok op) ↔
    (∀ l, e = .lambda l → ∃ code, Code.build resolve false l.body = .ok code) ∧
      ∀ a type configure, e = .await a type configure → ∃ b, resolve type = .ok b := by
  cases e with
  | lambda l =>
    simp only [op?, bind_eq_ok, lambda.injEq, forall_eq']
    constructor
    · rintro ⟨op, code, hcode, -⟩
      exact ⟨⟨code, hcode⟩, by simp⟩
    · rintro ⟨⟨code, hcode⟩, -⟩
      exact ⟨_, code, hcode, rfl⟩
  | await a type configure =>
    simp only [op?, bind_eq_ok]
    constructor
    · rintro ⟨op, b, hb, -⟩
      exact ⟨by simp, fun _ _ _ heq => ⟨b, (await.inj heq).2.1 ▸ hb⟩⟩
    · rintro ⟨-, h⟩
      obtain ⟨b, hb⟩ := h a type configure rfl
      exact ⟨_, b, hb, rfl⟩
  | throw value => cases value <;> simp [op?, pure, Except.pure]
  | _ => simp [op?, pure, Except.pure]

/-- Expressions can be reduced if every node can. -/
theorem exists_reduceList {es : List Expr} (h : ∀ e ∈ es, ∀ x ∈ e.preorder, ∃ op, x.op? resolve = .ok op)
    (s : Spot) : ∃ f, reduceList resolve s es = .ok f := by
  have hlist : ∀ es : List Expr, (∀ e ∈ es, ∀ s, ∃ f, e.reduce resolve s = .ok f) →
      ∀ s, ∃ f, reduceList resolve s es = .ok f := by
    intro es hes
    induction es with
    | nil => exact fun s => ⟨{}, rfl⟩
    | cons e es ih =>
      intro s
      obtain ⟨he, hes⟩ := List.forall_mem_cons.1 hes
      obtain ⟨a, ha⟩ := he s
      obtain ⟨b, hb⟩ := ih hes (s.after a)
      exact ⟨a ++ b, bind_eq_ok.2 ⟨a, ha, bind_eq_ok.2 ⟨b, hb, rfl⟩⟩⟩
  refine hlist es (fun e he => ?_) s
  replace h := h e he
  clear he
  induction e using children_induction with
  | step e ih =>
    intro s
    rw [preorder, nodes_eq, List.forall_mem_cons, List.forall_mem_flatMap] at h
    obtain ⟨⟨op, hop⟩, hchildren⟩ := h
    obtain ⟨f, hf⟩ := hlist e.children (fun c hc => ih c hc (hchildren c hc)) s.first
    exact ⟨_, (reduce_eq s e).trans (bind_eq_ok.2 ⟨f, hf, bind_eq_ok.2 ⟨op, hop, rfl⟩⟩)⟩

end Expr

namespace Code

/-- All jumps of code take ways of its expression. -/
structure Exact (code : Code) (allow : Bool) (e : Expr) : Prop where
  /-- Every jump has a route that is a way to its label. -/
  routes : ∀ {p : List Nat} {kind : JumpKind} {t : Label} {v : Option Expr},
    e.at? p = some (.goto kind t v) → ∃ i r way, code.follow root p = some i ∧
      (code.node i).op = .goto t.id v.isSome r ∧ e.Way allow p t.id way ∧ code.Realises r way
  /-- A route to a label leads down to its node from the nearest common ancestor of label and jump. -/
  arrives : ∀ {p : List Nat} {kind : JumpKind} {t : Label} {v : Option Expr} {i a : Nat}
    {hasValue : Bool} {path : List Nat}, e.at? p = some (.goto kind t v) →
    code.follow root p = some i →
    (code.node i).op = .goto t.id hasValue (.within a path .toLabel) →
    ∃ q l fallback target, e.at? q = some (.label l fallback) ∧ l.id = t.id ∧
      code.follow root q = some target ∧ code.follow root (commonPath p q) = some a ∧
      code.follow a path = some target
  nodup : code.escapes.Nodup
  /-- Jumps escape to the labels that the expression does not define. -/
  escapes : ∀ l, l ∈ code.escapes ↔ l ∉ e.definedLabels ∧
    ∃ p kind t v, e.at? p = some (.goto kind t v) ∧ t.id = l

variable {resolve : Expr.Resolver} {allow : Bool} {e : Expr} {code : Code}

theorem exact_build (h : build resolve allow e = .ok code) : code.Exact allow e := by
  refine ⟨build_goto h, fun {p kind t v i a hasValue path} hp hi hop => ?_, nodup_escapes_build h,
    fun l => mem_escapes_build_iff h⟩
  obtain ⟨i', r, way, hi', hop', hway, hr⟩ := build_goto h hp
  cases hi.symm.trans hi'
  cases hop.symm.trans hop'
  cases hway with
  | ends | restarts => cases hr.2.2
  | escapes => cases hr
  | @arrives q l fallback hlabel htarget =>
    obtain ⟨ha, hq, -⟩ := hr
    obtain ⟨target, hj⟩ := (build_renders h).mirrors.exists_follow hlabel
    refine ⟨q, l, fallback, target, hlabel, htarget, hj, ha, ?_⟩
    rw [← hq, follow_append, ha, Option.bind_some] at hj
    exact hj

/-- An expression whose labels are unique and whose awaitable types are known has code exactly if
every jump has a way to its label and every nested lambda has code that no jump leaves. All jumps
of the code then take such ways. -/
theorem exists_build_iff (resolve : Expr.Resolver) (allow : Bool) (e : Expr)
    (hlabels : e.definedLabels.Nodup)
    (htypes : ∀ a type configure, .await a type configure ∈ e.preorder →
      ∃ b, resolve type = .ok b) :
    ((∃ code, build resolve allow e = .ok code) ↔
      (∀ p kind t v, e.at? p = some (.goto kind t v) → ∃ way, e.Way allow p t.id way) ∧
        ∀ l, .lambda l ∈ e.preorder → ∃ code, build resolve false l.body = .ok code) ∧
    ∀ code, build resolve allow e = .ok code → code.Exact allow e := by
  refine ⟨⟨?_, ?_⟩, fun code => exact_build⟩
  · rintro ⟨code, h⟩
    refine ⟨fun p kind t v hp => ?_, fun l hl => ?_⟩
    · obtain ⟨i, r, way, -, -, hway, -⟩ := build_goto h hp
      exact ⟨way, hway⟩
    · obtain ⟨p, hp⟩ := Expr.mem_preorder_iff.1 hl
      have hm := (build_renders h).mirrors
      obtain ⟨i, hi⟩ := hm.exists_follow hp
      obtain ⟨x, parent, slot, hx, hmx⟩ := hm.of_follow hi
      cases hx.symm.trans hp
      exact (Expr.exists_op_iff.1 ⟨_, hmx.does⟩).1 l rfl
  · rintro ⟨hways, hbodies⟩
    -- operations are made for all nodes, since types are found and bodies build
    have hops : ∀ x ∈ e.preorder, ∃ op, x.op? resolve = .ok op := by
      intro x hx
      refine Expr.exists_op_iff.2 ⟨?_, ?_⟩
      · rintro l rfl
        exact hbodies l hx
      · rintro a type configure rfl
        exact htypes a type configure hx
    obtain ⟨f, hf⟩ : ∃ f, Expr.reduceList resolve ⟨0, none, 0⟩ [e] = .ok f :=
      Expr.exists_reduceList (List.forall_mem_singleton.2 hops) _
    have hrenders := Expr.renders_of_reduceList hf
    rw [Expr.reduceList_singleton] at hf
    have hcode := hrenders.code
    -- and every jump has a way, so it has a route
    have hfound : ∀ j ∈ f.jumps,
        ∃ r, Code.find ⟨f.nodes.toArray, []⟩ allow f.sites j = .ok r := by
      intro j hj
      obtain ⟨p, kind, t, v, hp, hi, ht⟩ := (mem_jumps_iff hcode.mirrors hrenders.jumps).1 hj
      obtain ⟨way, hway⟩ := hways p kind t v hp
      exact exists_route hcode.mirrors hcode.first hrenders.sites hlabels hi (ht ▸ hway)
    obtain ⟨code, h⟩ := exists_routeJumps hfound
    exact ⟨code, bind_eq_ok.2 ⟨f, hf, h⟩⟩

/-- A loop, a jump forward into nested blocks, an awaitable and a jump out. -/
def tangled : Expr :=
  .block [] [
    .goto .toLabel ⟨3, none⟩ none,
    .loop (.block [] [
      .await (.constant .unit) "Task" false,
      .goto .toBreak ⟨1, none⟩ none,
      .goto .toContinue ⟨2, none⟩ none]) (some ⟨1, none⟩) (some ⟨2, none⟩),
    .block [] [.block [] [.label ⟨3, none⟩ none]],
    .lambda ⟨none, .sync, [], .block [] [.goto .toReturn ⟨4, none⟩ none, .label ⟨4, none⟩ none]⟩,
    .goto .toReturn ⟨9, none⟩ (some (.constant .unit))]

theorem exists_build_tangled : tangled.definedLabels.Nodup ∧
    ∃ code, build (.ok ∘ Binder.task) true tangled = .ok code ∧ code.Exact true tangled ∧
      code.escapes = [9] := by
  have hlabels : tangled.definedLabels.Nodup := by decide
  have hescapes : (build (.ok ∘ Binder.task) true tangled).toOption.map Code.escapes = some [9] := by
    rfl
  refine ⟨hlabels, ?_⟩
  cases h : build (.ok ∘ Binder.task) true tangled with
  | error err => rw [h] at hescapes; cases hescapes
  | ok code =>
    rw [h] at hescapes
    exact ⟨code, rfl, (exists_build_iff (.ok ∘ Binder.task) true tangled hlabels
      fun _ type _ _ => ⟨.task type, rfl⟩).2 code h, Option.some.inj hescapes⟩

end Code

end Coroutine
