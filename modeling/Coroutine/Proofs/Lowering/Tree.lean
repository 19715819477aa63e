import Mathlib
import Coroutine.Tree.Labels
import Coroutine.Proofs.Lowering.Constructs
import Coroutine.Proofs.Tree.Checked

/-!
# Lowering a tree

`lower_judges`: lowering an expression that fits its setting succeeds if its place allows all its
nodes. It then gives an expression that can be evaluated, and spends what the nodes cost. The
recursion is that of `lower`, with one case per construct; each is the lemma on its combinator. The
guards around a node (`Place.guards`) say in which parts of which try constructs it stands; in the
condition it is the node of the try that asks something of its parts.
-/

namespace Coroutine

variable {e : Expr}

namespace Expr

/-- Whether a node ends a generator. -/
def isYieldBreak : Expr → Bool
  | .yieldBreak => true
  | _ => false

/-- What lowering asks of a node: types can be awaited, test values do not suspend, and generators
yield only where no handler and no cleanup would have to be entered again. -/
def Supported (resolve : Resolver) : Expr → Prop
  | .await _ type _ => ∃ binder, resolve type = .ok binder
  | .switch _ cases _ => ∀ c ∈ cases, ∀ test ∈ c.tests, test.suspends = false
  | .tryCatch body handlers cleanup =>
    (∀ h ∈ handlers, ∀ x ∈ h.body.preorder, x.isYieldReturn = false) ∧
    (∀ c ∈ cleanup, ∀ x ∈ c.preorder, x.isYieldReturn = false ∧ x.isYieldBreak = false) ∧
    (handlers ≠ [] ∨ cleanup = none → ∀ x ∈ body.preorder, x.isYieldReturn = false)
  | _ => True

/-- What lowering a node spends. -/
def cost (e : Expr) : Lowering.Budget := (e.weight, e.ownLabels)

/-- What lowering several nodes spends. -/
def costs (ns : List Expr) : Lowering.Budget := (tally ns, ns.flatMap ownLabels)

/-- The cost of nodes is added up node by node. -/
theorem costs_cons (e : Expr) (ns : List Expr) : costs (e :: ns) = e.cost + costs ns := by
  simp [costs, cost, tally_cons, List.flatMap_cons]

/-- The cost of nodes is added up part by part. -/
theorem costs_append (ns ns' : List Expr) : costs (ns ++ ns') = costs ns + costs ns' := by
  simp [costs, tally_append, List.flatMap_append]

end Expr

/-- What is asked of the nodes inside a part of a try. -/
def GuardPart.Allows (part : GuardPart) (x : Expr) : Prop :=
  (part ≠ .cleaned → x.isYieldReturn = false) ∧ (part = .cleanup → x.isYieldBreak = false)

namespace Lowering

/-! ## Places in their setting -/

namespace Suits

variable {n : Nat} {p : Place} {s : Setting} {d : Draft}

/-- A place inside a guarded expression suits the same setting. -/
theorem inside (h : Suits n p s d) (part : GuardPart) (x : Var) : Suits n (p.inside part x) s d :=
  ⟨h.inner, h.bound, h.assigned, h.handling, h.rethrow, h.exit⟩

/-- The variables of a block are usable in it. -/
theorem declaring (h : Suits n p s d) {xs : List Var} (hxs : ∀ x ∈ xs, d.graph.Usable n x.id) :
    Suits n p (s.declaring xs) d := by
  refine ⟨h.inner, fun i hi => ?_, h.assigned, h.handling, h.rethrow, h.exit⟩
  rcases hi with hi | hi
  · obtain ⟨x, hx, rfl⟩ := List.mem_map.1 hi
    exact hxs x hx
  · exact h.bound i hi

/-- The variable of a handler is usable in it. -/
theorem catching (h : Suits n p s d) {x : Option Var}
    (hx : ∀ y ∈ x.toList, d.graph.Usable n y.id) {exception : Var}
    (hexc : d.graph.Usable n exception.id) : Suits n (p.handling exception) (s.catching x) d := by
  have hdecl := h.declaring hx
  refine ⟨hdecl.inner, hdecl.bound, hdecl.assigned, fun _ => rfl, fun y hy => ?_, hdecl.exit⟩
  cases hy
  exact hexc

/-- An expression that stays whole fits the draft. -/
theorem whole (h : Suits n p s d) (he : e.Fits s) (hplain : e.suspends = false) :
    (p.whole e).Fits (d.graph.setting n) := by
  have hplain := he.plain hplain
  have hassigned : ∀ i, s.assigned i → d.graph.Assignable n i := fun i hi => .inl (h.assigned i hi)
  unfold Place.whole
  cases hr : p.rethrow with
  | none =>
    have hin : Setting.Within { s with waits := false } (d.graph.setting n) := by
      refine ⟨h.inner, h.bound, hassigned, fun hh => ?_, id⟩
      have hsome := h.handling hh
      rw [hr] at hsome
      cases hsome
    exact hplain.mono hin
  | some x =>
    have hx := h.rethrow x hr
    have hin : Setting.Within { s with waits := false }
        { d.graph.setting n with handling := true } :=
      ⟨h.inner, h.bound, hassigned, fun _ => rfl, id⟩
    exact Expr.Fits.rethrowing (s := d.graph.setting n) hx (hplain.mono hin)

variable {cases : List SwitchCase} (htests : ∀ c ∈ cases, ∀ test ∈ c.tests, test.suspends = false)
include htests

/-- The arms of a switch that are kept whole fit. -/
theorem wholeCases (h : Suits n p s d) (hc : Expr.CasesFit s cases)
    (hbodies : cases.any (·.body.suspends) = false) :
    Expr.CasesFit (d.graph.setting n) (cases.map (·.mapChildren p.whole)) := by
  refine Expr.casesFit_iff.2 fun c' hc' => ?_
  obtain ⟨c, hmem, rfl⟩ := List.mem_map.1 hc'
  obtain ⟨hfit, hbody⟩ := Expr.casesFit_iff.1 hc c hmem
  refine ⟨Expr.fitAll_iff.2 fun e' he' => ?_,
    h.whole hbody (by simpa using List.any_eq_false.1 hbodies c hmem)⟩
  obtain ⟨e, he, rfl⟩ := List.mem_map.1 he'
  exact h.whole (Expr.fitAll_iff.1 hfit e he) (htests c hmem e he)

/-- The test values of a switch are kept whole. -/
theorem wholeTests (h : Suits n p s d) (hc : Expr.CasesFit s cases) :
    ∀ l ∈ cases.map (fun c => c.tests.map p.whole), ∀ e ∈ l, e.Fits (d.graph.setting n) := by
  intro l hl e' he'
  obtain ⟨c, hmem, rfl⟩ := List.mem_map.1 hl
  obtain ⟨e, he, rfl⟩ := List.mem_map.1 he'
  obtain ⟨hfit, -⟩ := Expr.casesFit_iff.1 hc c hmem
  exact h.whole (Expr.fitAll_iff.1 hfit e he) (htests c hmem e he)

end Suits

/-! ## What a place asks of a node -/

/-- What a place asks of a node. -/
def Place.Allows (p : Place) (x : Expr) : Prop :=
  x.Supported p.resolve ∧ (x.isYieldReturn = true → p.guards.yieldRestriction? = none) ∧
    (x.isYieldBreak = true → p.guards.inCleanup = false ∧ p.exit.isSome = true)

section Places

variable {p : Place} {x : Expr}

/-- Expressions that do not yield are allowed wherever they are supported. -/
theorem allows_iff (hreturn : x.isYieldReturn = false) (hbreak : x.isYieldBreak = false) :
    p.Allows x ↔ x.Supported p.resolve := by
  simp [Place.Allows, hreturn, hbreak]

/-- Each guarded part around may forbid a yield. -/
theorem allows_inside {part : GuardPart} {exception : Var} :
    (p.inside part exception).Allows x ↔ p.Allows x ∧ part.Allows x := by
  have hyield : (p.inside part exception).guards.yieldRestriction? =
      (Guards.partRestriction? part).or p.guards.yieldRestriction? :=
    Expr.findSome?_cons_eq_or _ _ _
  have hcleanup : (p.inside part exception).guards.inCleanup =
      (part == .cleanup || p.guards.inCleanup) := rfl
  simp only [Place.Allows, GuardPart.Allows, hyield, hcleanup]
  cases part <;> cases x.isYieldReturn <;> cases x.isYieldBreak <;>
    simp [Place.inside, Guards.partRestriction?]

/-- Without suspend points nothing is asked. -/
theorem allows_of_plain (h : e.suspends = false) : ∀ x ∈ e.nodes false, p.Allows x := by
  have hyield : ∀ x : Expr, x.suspends = false → x.isYieldReturn = false ∧ x.isYieldBreak = false :=
    fun x hx => by cases x <;> first | exact ⟨rfl, rfl⟩ | cases hx
  intro x hx
  have hplain := Expr.plain_nodes h x hx
  obtain ⟨hreturn, hbreak⟩ := hyield x hplain
  refine ⟨?_, by simp [hreturn], by simp [hbreak]⟩
  have hpart : ∀ c ∈ x.children, c.suspends = false := fun c hc => by
    rw [Expr.suspends_eq, Bool.or_eq_false_iff, List.any_eq_false] at hplain
    simpa using hplain.2 c hc
  cases x with
  | await => cases hplain
  | switch value cases fallback =>
    intro c hc test htest
    refine hpart test (List.mem_cons_of_mem _ (List.mem_append_left _ (List.mem_flatMap.2 ?_)))
    exact ⟨c, hc, List.mem_append_left _ htest⟩
  | tryCatch body handlers cleanup =>
    refine ⟨fun h hh y hy => ?_, fun c hc y hy => ?_, fun _ y hy => ?_⟩
    · have hmem := List.mem_append_left cleanup.toList (List.mem_map_of_mem (f := Handler.body) hh)
      exact (hyield y (Expr.plain_nodes (hpart h.body (List.mem_cons_of_mem _ hmem)) y hy)).1
    · have hmem := List.mem_append_right (handlers.map Handler.body) (Option.mem_toList.2 hc)
      exact hyield y (Expr.plain_nodes (hpart c (List.mem_cons_of_mem _ hmem)) y hy)
    · exact (hyield y (Expr.plain_nodes (hpart body List.mem_cons_self) y hy)).1
  | _ => trivial

/-- Arms without suspend points spend no suspend points, and nothing is asked of them. -/
theorem plainCases {cases : List SwitchCase}
    (htests : ∀ c ∈ cases, ∀ test ∈ c.tests, test.suspends = false)
    (hbodies : cases.any (·.body.suspends) = false) :
    (∀ x ∈ Expr.nodesCases false cases, p.Allows x) ∧ Expr.tally (Expr.nodesCases false cases) = 0 := by
  have hplain : ∀ e ∈ cases.flatMap fun c => c.tests ++ [c.body], e.suspends = false := by
    intro e he
    obtain ⟨c, hc, he⟩ := List.mem_flatMap.1 he
    rcases List.mem_append.1 he with he | he
    · exact htests c hc e he
    · obtain rfl := List.mem_singleton.1 he
      simpa using List.any_eq_false.1 hbodies c hc
  rw [Expr.nodesCases_eq]
  refine ⟨fun x hx => ?_, Expr.tally_of_plainParts (List.any_eq_false.2 fun e he => by
    simp [hplain e he])⟩
  obtain ⟨e, he, hx⟩ := List.mem_flatMap.1 hx
  exact allows_of_plain (hplain e he) x hx

/-- What a try asks of its parts. -/
theorem allows_tryCatch {body : Expr} {handlers : List Handler} {cleanup : Option Expr} :
    p.Allows (.tryCatch body handlers cleanup) ↔
      (∀ x ∈ Expr.nodesHandlers false handlers, GuardPart.handler.Allows x) ∧
      (∀ c ∈ cleanup, ∀ x ∈ c.nodes false, GuardPart.cleanup.Allows x) ∧
      (handlers ≠ [] ∨ cleanup = none → ∀ x ∈ body.nodes false, GuardPart.caught.Allows x) := by
  have hhandlers : (∀ x ∈ Expr.nodesHandlers false handlers, GuardPart.handler.Allows x) ↔
      ∀ h ∈ handlers, ∀ x ∈ h.body.nodes false, x.isYieldReturn = false := by
    rw [Expr.nodesHandlers_eq, List.forall_mem_flatMap, List.forall_mem_map]
    simp [GuardPart.Allows]
  rw [allows_iff rfl rfl, hhandlers]
  simp [Expr.Supported, GuardPart.Allows, Expr.preorder]

end Places

/-! ## Putting computations together -/

variable {α : Type} {resolve : Expr.Resolver} {n : Nat} {K : Tally} {need : List Mark} {a b : Budget}
  {m : Lower Expr} {f : Expr → Lower Expr} {P Q : Prop} {p : Place} {s : Setting}
  {ns ns' : List Expr} {x : Expr}

namespace Splits

/-- The budget may be written in another way. -/
theorem budget (h : Splits resolve n K need m a P) (hab : a = b) : Splits resolve n K need m b P :=
  hab ▸ h

/-- An expression that can be evaluated as it is. Labels inside it are passed over. -/
theorem pure (hP : P) (ha : a.1 = 0)
    (he : ∀ d, (∀ m ∈ need, m.Holds n d) → e.Fits (d.graph.setting n)) :
    Splits resolve n K need (pure e) a P := fun _ _ _ _ d hneed h =>
  .pure hP ((h.drop ha rfl).add (he d fun _ hm => h.mark (hneed hm)))

/-- Lowering in turn splits the budget. -/
theorem bind (h : Splits resolve n K need m a P)
    (hf : ∀ e, Splits resolve n K (.expr e :: need) (f e) b Q) :
    Splits resolve n K need (m >>= f) (a + b) (P ∧ Q) := by
  intro ms ρ o w d hneed hd
  refine (h hneed (hd.budget (add_assoc a b ρ))).bind fun _ e d₁ h₁ => ?_
  exact (hf e (by grind) h₁).mono fun _ _ h₂ => h₂.sub (by grind)

/-- A computation that is followed by one that always succeeds and spends nothing. -/
theorem andThen (h : Splits resolve n K need m a P)
    (hf : ∀ e, Splits resolve n K (.expr e :: need) (f e) 0 True) :
    Splits resolve n K need (m >>= f) a P :=
  ((h.bind hf).budget (add_zero a)).of_iff (iff_of_eq (and_true P))

/-- A computation that follows one that always succeeds and spends nothing. -/
theorem after (h : Splits resolve n K need m 0 True)
    (hf : ∀ e, Splits resolve n K (.expr e :: need) (f e) b Q) :
    Splits resolve n K need (m >>= f) b Q :=
  ((h.bind hf).budget (zero_add b)).of_iff (iff_of_eq (true_and Q))

/-- A computation that builds its expression from the one of a part. -/
theorem map {f : Expr → Expr} (h : Splits resolve n K need m a P)
    (hf : ∀ e d, (∀ m ∈ Mark.expr e :: need, m.Holds n d) → (f e).Fits (d.graph.setting n)) :
    Splits resolve n K need (do return f (← m)) a P :=
  h.andThen fun e => .pure trivial rfl (hf e)

/-- A computation that follows a check. -/
theorem check {c : Lower α} {f : α → Lower Expr}
    (hc : ∀ d, Decides resolve c d P fun _ d' => d' = d)
    (hf : P → ∀ x, Splits resolve n K need (f x) a Q) :
    Splits resolve n K need (c >>= f) a (P ∧ Q) := by
  intro ms ρ o w d hneed h
  refine (hc d).bind fun hP x d' hd' => ?_
  subst hd'
  exact hf hP x hneed h

end Splits

/-- An operand is kept in a temporary if something is lowered after it. -/
theorem operand_splits (he : .expr e ∈ need) (later : Bool) :
    Splits resolve n K need (operand e later) 0 True :=
  fun _ ρ _ _ _ hneed h => operand_ready (h.budget (zero_add ρ)) (hneed he) later

/-- Only a binder that can be resolved is accepted. -/
theorem resolve_decides (type : String) (d : Draft) :
    Decides resolve (resolve type : Lower Binder) d (∃ binder, resolve type = .ok binder)
      fun _ d' => d' = d := by
  cases h : resolve type with
  | error e => exact .inr ⟨e, rfl, by simp, .inl ⟨type, h⟩⟩
  | ok binder => exact .inl ⟨binder, d, rfl, ⟨binder, rfl⟩, rfl⟩

/-- A computation that decides whether a place allows nodes, and spends what they cost. -/
def Judges (p : Place) (n : Nat) (K : Tally) (need : List Mark) (m : Lower Expr)
    (ns : List Expr) : Prop :=
  Splits p.resolve n K need m (Expr.costs ns) (∀ x ∈ ns, p.Allows x)

namespace Judges

/-- Conditions on two lists of nodes. -/
theorem append (h : Splits p.resolve n K need m (Expr.costs ns + Expr.costs ns')
    ((∀ x ∈ ns, p.Allows x) ∧ ∀ x ∈ ns', p.Allows x)) : Judges p n K need m (ns ++ ns') := by
  rw [Judges, Expr.costs_append]
  exact h.of_iff List.forall_mem_append.symm

/-- Lowering in turn judges the nodes in turn. -/
theorem bind (h : Judges p n K need m ns) (hf : ∀ e, Judges p n K (.expr e :: need) (f e) ns') :
    Judges p n K need (m >>= f) (ns ++ ns') :=
  append (Splits.bind h hf)

/-- A node with a condition of its own. -/
theorem cons (h : Splits p.resolve n K need m (x.cost + Expr.costs ns) (P ∧ ∀ y ∈ ns, p.Allows y))
    (hP : P ↔ p.Allows x) : Judges p n K need m (x :: ns) := by
  rw [Judges, Expr.costs_cons]
  exact h.of_iff ((and_congr_left' hP).trans List.forall_mem_cons.symm)

/-- A node of which nothing is asked. -/
theorem node (h : Splits p.resolve n K need m (x.cost + Expr.costs ns) (∀ y ∈ ns, p.Allows y))
    (hx : p.Allows x) : Judges p n K need m (x :: ns) :=
  cons (h.of_iff (iff_of_eq (true_and _)).symm) (iff_of_true trivial hx)

/-- A node that costs nothing of which nothing is asked. -/
theorem free (h : Judges p n K need m ns) (hcost : x.cost = 0) (hx : p.Allows x) :
    Judges p n K need m (x :: ns) :=
  node (h.budget (by rw [hcost, zero_add])) hx

/-- An expression without suspend points stays whole. -/
theorem whole (hs : .suits p s ∈ need) (he : e.Fits s) (hplain : e.suspends = false) :
    Judges p n K need (pure (p.whole e)) (e.nodes false) :=
  Splits.pure (allows_of_plain hplain) (Expr.tally_of_plain hplain) fun _ hd =>
    Suits.whole (hd _ hs) he hplain

/-- An expression that is split only if it suspends. -/
theorem split (hs : .suits p s ∈ need) (he : e.Fits s) (h : Judges p n K need m (e.nodes false)) :
    Judges p n K need (p.split e m) (e.nodes false) := by
  unfold Place.split
  split
  · exact h
  · rename_i hplain
    exact whole hs he (by simpa using hplain)

/-- Inside a part of a try. -/
theorem inside {part : GuardPart} {y : Var} (hs : .suits p s ∈ need)
    (h : Judges (p.inside part y) n K (.suits (p.inside part y) s :: need) m ns) :
    Splits p.resolve n K need m (Expr.costs ns)
      ((∀ x ∈ ns, p.Allows x) ∧ ∀ x ∈ ns, part.Allows x) := by
  refine Splits.of_iff (Splits.of_need h fun d _ hd => ?_) ?_
  · exact List.forall_mem_cons.2 ⟨Suits.inside (hd _ hs) part y, hd⟩
  · simp only [allows_inside, ← forall₂_and]

end Judges

/-! ## Protected regions -/

/-- Handlers that decide whether a place allows their nodes. -/
def HandlersJudge (p : Place) (n : Nat) (K : Tally) (need : List Mark) (index : Nat)
    (hs : List Handler) : Prop :=
  HandlersSettle p.resolve n K need
    (fun exception result join => lowerHandlers p exception result join index hs) index
    (Expr.costs (Expr.nodesHandlers false hs))
    ((∀ x ∈ Expr.nodesHandlers false hs, p.Allows x) ∧
      ∀ x ∈ Expr.nodesHandlers false hs, GuardPart.handler.Allows x)

section Guards

variable {body : Expr} {handlers : List Handler}

/-- A try without a cleanup, by its parts. -/
theorem caught_judges (hs : .suits p s ∈ need)
    (hbody : ∀ y, Judges (p.inside .caught y) n K (.suits (p.inside .caught y) s :: need)
      (lower (p.inside .caught y) body) (body.nodes false))
    (hhandlers : HandlersJudge p n K need 0 handlers) :
    Judges p n K need (guard .caught p (fun p => lower p body)
      (fun exception result join => lowerHandlers p exception result join 0 handlers) none)
      ((Expr.tryCatch body handlers none).nodes false) := by
  rw [Expr.nodes]
  refine Judges.cons ((Splits.of_iff (guard_splits (fun y => Judges.inside hs (hbody y)) hhandlers)
    ?_).budget ?_) allows_tryCatch.symm
  · rw [List.forall_mem_append]
    constructor
    · rintro ⟨⟨hb, hb'⟩, hh, hh'⟩
      exact ⟨⟨hh', by simp, fun _ => hb'⟩, hb, hh⟩
    · rintro ⟨⟨hh', -, hb'⟩, hb, hh⟩
      exact ⟨⟨hb, hb' (.inr rfl)⟩, hh, hh'⟩
  · rw [← Expr.costs_append]
    exact (zero_add _).symm

/-- What a try with a cleanup protects: the body, with the handlers around it if there are any. -/
theorem protected_splits {y : Var} (hs : .suits p s ∈ need) (hfit : body.Fits s)
    (hfits : Expr.HandlersFit s handlers)
    (hbody : Judges (p.inside .cleaned y) n K (.suits (p.inside .cleaned y) s :: need)
      (lower (p.inside .cleaned y) body) (body.nodes false))
    (hm : Judges (p.inside .cleaned y) n K (.suits (p.inside .cleaned y) s :: need) m
      ((Expr.tryCatch body handlers none).nodes false)) :
    Splits p.resolve n K need (if handlers.isEmpty then lower (p.inside .cleaned y) body
      else (p.inside .cleaned y).split (.tryCatch body handlers none) m)
      (Expr.costs (body.nodes false ++ Expr.nodesHandlers false handlers))
      ((handlers ≠ [] → p.Allows (.tryCatch body handlers none)) ∧
        ∀ x ∈ body.nodes false ++ Expr.nodesHandlers false handlers, p.Allows x) := by
  have hany : ∀ x, GuardPart.cleaned.Allows x := fun x => ⟨fun h => absurd rfl h, nofun⟩
  split
  · rename_i hempty
    obtain rfl := List.isEmpty_iff.1 hempty
    rw [Expr.nodesHandlers, List.append_nil]
    exact (Judges.inside hs hbody).of_iff (by simp [hany])
  · rename_i hempty
    rw [List.isEmpty_iff] at hempty
    have hsplit := Judges.inside hs (Judges.split (e := .tryCatch body handlers none)
      List.mem_cons_self ⟨hfit, hfits⟩ hm)
    refine (hsplit.of_iff ?_).budget ?_
    · simp only [Expr.nodes, List.forall_mem_cons, hany, ne_eq, hempty, not_false_eq_true,
        true_imp_iff, implies_true, and_true]
    · rw [Expr.nodes, Expr.costs_cons]
      exact zero_add _

end Guards

/-! ## The tree -/

mutual

/-- Lowering an expression decides whether its place allows its nodes. -/
theorem lower_judges (p : Place) : ∀ (e : Expr) {s : Setting} {need : List Mark},
    .suits p s ∈ need → e.Fits s → Judges p n K need (lower p e) (e.nodes false)
  | .label target none, s, need, _, _ => by
    rw [lower, Expr.nodes]
    exact Judges.node (landing_splits target (.pure nofun rfl fun _ _ => trivial))
      ⟨trivial, nofun, nofun⟩
  | .label target (some fallback), s, need, hs, he => by
    rw [lower, Expr.nodes]
    exact Judges.node (landing_splits target (lower_judges p fallback hs he)) ⟨trivial, nofun, nofun⟩
  | .constant _, s, need, hs, he | .var _, s, need, hs, he | .lambda _, s, need, hs, he
  | .goto _ _ none, s, need, hs, he | .throw none, s, need, hs, he => by
    rw [lower]
    exact .whole hs he rfl
  | .assign x value, s, need, hs, he => by
    rw [lower]
    refine Judges.split hs he ?_
    rw [Expr.nodes]
    refine Judges.free (Splits.map (lower_judges p value hs he.2) fun e d hd => ?_) rfl
      ⟨trivial, nofun, nofun⟩
    have hsuits : Suits n p s d := hd (.suits p s) (by simp [hs])
    exact ⟨⟨hsuits.bound _ he.1.1, .inl (hsuits.assigned _ he.1.2)⟩, hd (.expr e) (by simp)⟩
  | .unary _ value, s, need, hs, he | .goto _ _ (some value), s, need, hs, he
  | .throw (some value), s, need, hs, he => by
    rw [lower]
    refine Judges.split hs he ?_
    rw [Expr.nodes]
    exact Judges.free (Splits.map (lower_judges p value hs he) fun e d hd => hd (.expr e) (by simp))
      rfl ⟨trivial, nofun, nofun⟩
  | .binary op left right, s, need, hs, he => by
    rw [lower]
    refine Judges.split hs he ?_
    rw [Expr.nodes]
    refine Judges.free ?_ rfl ⟨trivial, nofun, nofun⟩
    split
    · refine Judges.bind (lower_judges p left hs he.1) fun test => ?_
      have hdecided : Judges p n K (.expr test :: need)
          (do return Expr.unary .not (.unary .not (← lower p right))) (right.nodes false) :=
        Splits.map (lower_judges p right (by simp [hs]) he.2) fun e d hd => hd (.expr e) (by simp)
      have hpure : ∀ v : Bool, Splits p.resolve n K (.expr test :: need)
          (pure (.constant (.bool v))) 0 True := fun _ => .pure trivial rfl fun _ _ => trivial
      split
      · exact ((branch_splits (by simp) hdecided (hpure false)).budget (add_zero _)).of_iff (by simp)
      · exact ((branch_splits (by simp) (hpure true) hdecided).budget (zero_add _)).of_iff (by simp)
    · refine Judges.bind (lower_judges p left hs he.1) fun l => ?_
      refine Splits.after (operand_splits (e := l) (by simp) _) fun l' => ?_
      exact Splits.map (lower_judges p right (by simp [hs]) he.2) fun e d hd =>
        ⟨hd (.expr l') (by simp), hd (.expr e) (by simp)⟩
  | .call _ args, s, need, hs, he => by
    rw [lower]
    refine Judges.split hs he ?_
    rw [Expr.nodes]
    refine Judges.free (fun ms ρ o w d hneed h => ?_) rfl ⟨trivial, nofun, nofun⟩
    exact (lowerOperands_judges p args hs he hneed h).andThen fun es d₁ h₁ =>
      .pure trivial ((h₁.sub (by grind)).add (h₁.mark (m := .exprs es) (by simp)))
  | .invoke target args, s, need, hs, he => by
    rw [lower]
    refine Judges.split hs he ?_
    rw [Expr.nodes]
    refine Judges.free (Judges.bind (lower_judges p target hs he.1) fun t => ?_) rfl
      ⟨trivial, nofun, nofun⟩
    refine Splits.after (operand_splits (e := t) (by simp) _) fun t' ms ρ o w d hneed h => ?_
    exact (lowerOperands_judges p args (by simp [hs]) he.2 hneed h).andThen fun es d₁ h₁ =>
      .pure trivial ((h₁.sub (by grind)).add ⟨h₁.mark (m := .expr t') (by
        simp [hneed List.mem_cons_self]), h₁.mark (m := .exprs es) (by simp)⟩)
  | .block vars body, s, need, hs, he => by
    rw [lower]
    refine Judges.split hs he ?_
    rw [Expr.nodes]
    refine Judges.free (fun ms ρ o w d hneed h => ?_) rfl ⟨trivial, nofun, nofun⟩
    have hsuits : Suits n p s d := h.mark (hneed hs)
    refine (declareAll_ready vars h fun x hx => hsuits.inner _ (he.1 x hx)).after fun _ d₁ h₁ => ?_
    -- the variables that were declared can be used in the statements
    have hbody : Judges p n K (vars.map Mark.var ++ need) (lowerStatements p body)
        (Expr.nodesList false body) := by
      refine Splits.of_need (lowerStatements_judges p body (s := s.declaring vars)
        List.mem_cons_self he.2) fun d _ hd => List.forall_mem_cons.2 ⟨?_, hd⟩
      refine Suits.declaring (hd (.suits p s) (by simp [hs])) fun x hx => ?_
      exact (hd (.var x) (List.mem_append_left _ (List.mem_map_of_mem hx))).1
    exact (hbody (List.append_subset.2 ⟨by simp, fun m hm => by simp [hneed hm]⟩) h₁).mono
      fun _ _ h₂ => h₂.sub (by grind)
  | .condition test ifTrue none, s, need, hs, he => by
    rw [lower]
    refine Judges.split hs he ?_
    rw [Expr.nodes]
    refine Judges.free (Judges.bind (lower_judges p test hs he.1) fun t => ?_) rfl
      ⟨trivial, nofun, nofun⟩
    split
    · exact branch_none_splits (by simp) (lower_judges p ifTrue (by simp [hs]) he.2)
    · rename_i hplain
      have hplain : ifTrue.suspends = false := by simpa using hplain
      exact Splits.pure (allows_of_plain hplain) (Expr.tally_of_plain hplain) fun d hd =>
        ⟨hd (.expr t) (by simp), Suits.whole (hd (.suits p s) (by simp [hs])) he.2 hplain⟩
  | .condition test ifTrue (some ifFalse), s, need, hs, he => by
    rw [lower]
    refine Judges.split hs he ?_
    rw [Expr.nodes, List.append_assoc]
    refine Judges.free (Judges.bind (lower_judges p test hs he.1) fun t => .append ?_) rfl
      ⟨trivial, nofun, nofun⟩
    split
    · exact branch_splits (by simp) (lower_judges p ifTrue (by simp [hs]) he.2.1)
        (lower_judges p ifFalse (by simp [hs]) he.2.2)
    · rename_i hplain
      obtain ⟨htrue, hfalse⟩ : ifTrue.suspends = false ∧ ifFalse.suspends = false := by
        simpa using hplain
      refine Splits.pure ⟨allows_of_plain htrue, allows_of_plain hfalse⟩ ?_ fun d hd => ?_
      · rw [← Expr.costs_append]
        simp [Expr.costs, Expr.tally_append, Expr.tally_of_plain htrue, Expr.tally_of_plain hfalse]
      · have hsuits : Suits n p s d := hd (.suits p s) (by simp [hs])
        exact ⟨hd (.expr t) (by simp), hsuits.whole he.2.1 htrue, hsuits.whole he.2.2 hfalse⟩
  | .switch value cases none, s, need, hs, he => by
    rw [lower]
    refine Judges.split hs he ?_
    rw [Expr.nodes]
    refine Judges.cons (Splits.budget (Splits.check (fun d => refuseTests_decides p cases)
      fun htests _ => Judges.bind (lower_judges p value hs he.1) fun v => ?_) (zero_add _).symm)
      (allows_iff (x := .switch value cases none) rfl rfl).symm
    split
    · exact switchOn_none_splits (by simp)
        (fun d hd => Suits.wholeTests htests (hd (.suits p s) (by simp [hs])) he.2)
        (by simpa using lowerArms_judges p cases (by simp [hs]) he.2 htests)
    · rename_i hplain
      obtain ⟨hallows, htally⟩ := plainCases (p := p) htests (by simpa using hplain)
      exact Splits.pure hallows htally fun d hd => ⟨hd (.expr v) (by simp),
        Suits.wholeCases htests (hd (.suits p s) (by simp [hs])) he.2 (by simpa using hplain)⟩
  | .switch value cases (some fallback), s, need, hs, he => by
    rw [lower]
    refine Judges.split hs he ?_
    rw [Expr.nodes, List.append_assoc]
    refine Judges.cons (Splits.budget (Splits.check (fun d => refuseTests_decides p cases)
      fun htests _ => Judges.bind (lower_judges p value hs he.1) fun v => .append ?_)
      (zero_add _).symm) (allows_iff (x := .switch value cases (some fallback)) rfl rfl).symm
    split
    · exact switchOn_splits (by simp)
        (fun d hd => Suits.wholeTests htests (hd (.suits p s) (by simp [hs])) he.2.1)
        (by simpa using lowerArms_judges p cases (by simp [hs]) he.2.1 htests)
        (lower_judges p fallback (by simp [hs]) he.2.2)
    · rename_i hplain
      rw [Bool.or_eq_true, not_or, Bool.not_eq_true, Bool.not_eq_true] at hplain
      obtain ⟨hallows, htally⟩ := plainCases (p := p) htests hplain.1
      refine Splits.pure ⟨hallows, allows_of_plain hplain.2⟩ ?_ fun d hd => ?_
      · rw [← Expr.costs_append]
        simp [Expr.costs, Expr.tally_append, htally, Expr.tally_of_plain hplain.2]
      · have hsuits : Suits n p s d := hd (.suits p s) (by simp [hs])
        exact ⟨hd (.expr v) (by simp), hsuits.wholeCases htests he.2.1 hplain.1,
          hsuits.whole he.2.2 hplain.2⟩
  | .loop body b c, s, need, hs, he => by
    rw [lower]
    refine Judges.split hs he ?_
    rw [Expr.nodes]
    refine Judges.node ((repeated_splits b c (lower_judges p body hs he)).budget ?_)
      ⟨trivial, nofun, nofun⟩
    simp [Expr.cost, Expr.weight, Expr.ownLabels, Budget.ofLabels, ← add_assoc]
  | .tryCatch body handlers none, s, need, hs, he => by
    rw [lower]
    exact Judges.split hs he (caught_judges hs (fun y => lower_judges (p.inside .caught y) body
      List.mem_cons_self he.1) (lowerHandlers_judges p handlers 0 hs he.2))
  | .tryCatch body handlers (some cleanup), s, need, hs, he => by
    rw [lower]
    refine Judges.split hs he ?_
    rw [Expr.nodes]
    have hbody := fun y => protected_splits (n := n) (K := K) (y := y) hs he.1 he.2.1
      (lower_judges (p.inside .cleaned y) body List.mem_cons_self he.1)
      (caught_judges (p := p.inside .cleaned y) List.mem_cons_self
        (fun z => lower_judges ((p.inside .cleaned y).inside .caught z) body List.mem_cons_self he.1)
        (lowerHandlers_judges (p.inside .cleaned y) handlers 0 List.mem_cons_self he.2.1))
    have hnone : HandlersSettle p.resolve n K need (fun _ _ _ => pure []) 0 0 True := by
      intro ms ρ o w exception result join d _ _ _ _ h
      have hstates : (Mark.states [] (Nest.here w)).Holds n d := nofun
      exact .pure trivial ⟨rfl, (h.budget (zero_add ρ)).add hstates⟩
    refine Judges.cons (((guard_cleanup_splits hbody hnone fun y => Judges.inside hs
      (lower_judges (p.inside .cleanup y) cleanup List.mem_cons_self he.2.2)).of_iff ?_).budget ?_)
      allows_tryCatch.symm
    · have hnodes : (∀ x ∈ body.nodes false ++ Expr.nodesHandlers false handlers ++
          cleanup.nodes false, p.Allows x) ↔ (∀ x ∈ body.nodes false ++
            Expr.nodesHandlers false handlers, p.Allows x) ∧ ∀ x ∈ cleanup.nodes false, p.Allows x :=
        List.forall_mem_append
      rw [hnodes]
      simp only [allows_tryCatch]
      constructor
      · rintro ⟨⟨htry, hparts⟩, -, hc, hc'⟩
        refine ⟨⟨fun x hx => (htry ?_).1 x hx, ?_, fun h => ?_⟩, hparts, hc⟩
        · rintro rfl
          cases hx
        · rintro c ⟨⟩
          exact hc'
        · exact (htry (h.resolve_right nofun)).2.2 (.inr trivial)
      · rintro ⟨⟨hh, hc', hb⟩, hparts, hc⟩
        exact ⟨⟨fun h => ⟨hh, nofun, fun _ => hb (.inl h)⟩, hparts⟩, trivial, hc, hc' cleanup rfl⟩
    · rw [zero_add, ← Expr.costs_append]
      exact (zero_add _).symm
  | .await awaitable type configure, s, need, hs, he => by
    rw [lower, Expr.nodes]
    refine Judges.cons ((Splits.check (resolve_decides type) fun _ binder => ?_).budget
      (add_comm _ _)) (by simp [Place.Allows, Expr.Supported, Expr.isYieldReturn, Expr.isYieldBreak])
    exact (Splits.bind (lower_judges p awaitable hs he.2) fun e =>
      suspendOn_splits binder configure (by simp)).of_iff (iff_of_eq (and_true _))
  | .yieldReturn value, s, need, hs, he => by
    rw [lower, Expr.nodes]
    refine Judges.cons ((Splits.check (fun d => refuseYield_decides p _) fun _ _ => ?_).budget
      (add_comm _ _)) (by simp [Place.Allows, Expr.Supported, Expr.isYieldReturn, Expr.isYieldBreak])
    exact (Splits.bind (lower_judges p value hs he.2) fun e =>
      yieldValue_splits (by simp)).of_iff (iff_of_eq (and_true _))
  | .yieldBreak, s, need, hs, he => by
    rw [lower, Expr.nodes]
    refine Judges.cons (P := p.guards.inCleanup = false ∧ p.exit.isSome = true)
      ((endGenerator_splits .yieldBreak fun d hd => (hd (.suits p s) hs).exit).of_iff (by simp)) ?_
    simp [Place.Allows, Expr.Supported, Expr.isYieldReturn, Expr.isYieldBreak]

/-- Lowering operands. -/
theorem lowerOperands_judges (p : Place) : ∀ (l : List Expr) {s : Setting} {need ms : List Mark}
    {ρ : Budget} {o : Multiset Nat} {w : Nest} {d : Draft}, .suits p s ∈ need → Expr.FitAll s l →
    need ⊆ ms → d.Ready n K ms (Expr.costs (Expr.nodesList false l) + ρ) o w →
      Decides p.resolve (lowerOperands p l) d (∀ x ∈ Expr.nodesList false l, p.Allows x)
        fun es d' => d'.Ready n K (.exprs es :: ms) ρ o w
  | [], s, need, ms, ρ, o, w, d, _, _, _, h => by
    rw [lowerOperands]
    have hnone : (Mark.exprs []).Holds n d := trivial
    exact .pure nofun ((h.drop rfl rfl).add hnone)
  | e :: es, s, need, ms, ρ, o, w, d, hs, he, hneed, h => by
    rw [lowerOperands]
    rw [Expr.nodesList, Expr.costs_append, add_assoc] at h
    refine Decides.of_iff ?_ (by rw [Expr.nodesList, List.forall_mem_append])
    refine (lower_judges p e hs he.1 hneed h).bind fun _ v d₁ h₁ => ?_
    refine (operand_ready h₁ (by simp) _).after fun v' d₂ h₂ => ?_
    refine (lowerOperands_judges p es hs he.2 (by grind) h₂).andThen fun vs d₃ h₃ => ?_
    have hall : (Mark.exprs (v' :: vs)).Holds n d₃ :=
      ⟨h₃.mark (m := .expr v') (by simp), h₃.mark (m := .exprs vs) (by simp)⟩
    exact .pure trivial ((h₃.sub (by grind)).add hall)

/-- All statements of a block are judged: by induction on the list. -/
theorem lowerStatements_judges (p : Place) : ∀ (l : List Expr) {s : Setting} {need : List Mark},
    .suits p s ∈ need → Expr.FitAll s l →
      Judges p n K need (lowerStatements p l) (Expr.nodesList false l)
  | [], s, need, _, _ => by
    rw [lowerStatements]
    exact Splits.pure nofun rfl fun _ _ => trivial
  | [e], s, need, hs, he => by
    rw [lowerStatements, Expr.nodesList, Expr.nodesList, List.append_nil]
    exact lower_judges p e hs he.1
  | e :: e' :: es, s, need, hs, he => by
    rw [lowerStatements, Expr.nodesList]
    · refine Judges.bind (lower_judges p e hs he.1) fun v ms ρ o w d hneed h => ?_
      refine (emit_ready h (h.mark (hneed List.mem_cons_self))).after fun _ d₁ h₁ => ?_
      exact lowerStatements_judges p (e' :: es) (by simp [hs]) he.2 hneed h₁
    · exact List.cons_ne_nil _ _

/-- All arms of a switch are judged. -/
theorem lowerArms_judges (p : Place) : ∀ (cs : List SwitchCase) {s : Setting} {need : List Mark},
    .suits p s ∈ need → Expr.CasesFit s cs →
    (∀ c ∈ cs, ∀ test ∈ c.tests, test.suspends = false) →
      ArmsSettle p.resolve n K need cs.length
        (fun result join heads => lowerArms p result join heads cs)
        (Expr.costs (Expr.nodesCases false cs)) (∀ x ∈ Expr.nodesCases false cs, p.Allows x)
  | [], s, need, _, _, _ => by
    intro ms ρ o w result join heads d _ _ _ _ hlen h
    obtain rfl := List.length_eq_zero_iff.1 hlen
    simp only [lowerArms]
    exact .pure nofun ((h.drop rfl rfl).of_eq (zero_add o))
  | ⟨tests, body⟩ :: cs, s, need, hs, he, htests => by
    intro ms ρ o w result join heads d hneed hresult hjoin hheads hlen h
    obtain ⟨head, rest, rfl⟩ : ∃ head rest, heads = head :: rest := by
      cases heads with
      | nil => cases hlen
      | cons head rest => exact ⟨head, rest, rfl⟩
    obtain ⟨htest, hcs⟩ := List.forall_mem_cons.1 htests
    -- tests do not suspend, so nothing is due for them
    have hplain : Expr.anySuspends tests = false := by
      rw [Expr.anySuspends_eq, List.any_eq_false]
      exact fun e he => by simp [htest e he]
    have hall : ∀ x ∈ Expr.nodesList false tests, p.Allows x := by
      intro x hx
      rw [Expr.nodesList_eq, List.mem_flatMap] at hx
      obtain ⟨test, hmem, hx⟩ := hx
      exact allows_of_plain (htest test hmem) x hx
    have hhead := h.marks _ hheads
    have h := (((h.drop (a := Expr.costs (Expr.nodesList false tests)) (r :=
      Expr.costs (body.nodes false) + (Expr.costs (Expr.nodesCases false cs) + ρ))
      (Expr.tally_of_allPlain hplain) (by
        rw [Expr.nodesCases, Expr.costs_append, Expr.costs_append, add_assoc, add_assoc])).of_eq
      (q := {head} + (rest + o)) (by rw [← add_assoc]; rfl)).add
      (m := .state head w.here) (hhead head List.mem_cons_self)).add
      (m := .states rest w.here) fun t ht => hhead t (List.mem_cons_of_mem _ ht)
    refine Decides.of_iff (arm_decides (lower_judges p body hs he.2.1) (by grind) h (by simp)
      (by simp [hresult]) (fun h' => h'.around (by simp [hjoin])) fun d₁ h₁ =>
        (lowerArms_judges p cs hs he.2.2 hcs (by grind) (by simp [hresult]) (by simp [hjoin])
          (by simp) (Nat.succ.inj hlen) h₁).mono fun _ _ h₂ => h₂.sub (by grind)) ?_
    · rw [Expr.nodesCases, List.forall_mem_append, List.forall_mem_append]
      exact ⟨fun h => ⟨⟨hall, h.1⟩, h.2⟩, fun h => ⟨h.1.2, h.2⟩⟩

/-- All handlers are judged. -/
theorem lowerHandlers_judges (p : Place) : ∀ (hs : List Handler) (index : Nat) {s : Setting}
    {need : List Mark}, .suits p s ∈ need → Expr.HandlersFit s hs →
      HandlersJudge p n K need index hs
  | [], index, s, need, _, _ => by
    intro ms ρ o w exception result join d _ _ _ _ h
    simp only [lowerHandlers]
    have hstates : (Mark.states [] (Nest.here w)).Holds n d := nofun
    exact .pure ⟨nofun, nofun⟩ ⟨rfl, (h.drop rfl rfl).add hstates⟩
  | ⟨filter, x, body⟩ :: hs, index, s, need, hsuits, he => by
    intro ms ρ o w exception result join d hneed hexception hresult hjoin h
    simp only [lowerHandlers]
    rw [Expr.nodesHandlers, Expr.costs_append, add_assoc] at h
    -- in the body, the exception is there to be thrown again
    have hbody : Splits p.resolve n K (x.toList.map Mark.var ++ .read exception :: need)
        (lower (p.handling exception) body) (Expr.costs (body.nodes false))
        ((∀ x ∈ body.nodes false, p.Allows x) ∧
          ∀ x ∈ body.nodes false, GuardPart.handler.Allows x) := by
      refine Splits.of_iff (Splits.of_need (lower_judges (p.handling exception) body
        (s := s.catching x) List.mem_cons_self he.2.1) fun d _ hd => List.forall_mem_cons.2
          ⟨Suits.catching (hd (.suits p s) (by simp [hsuits])) (fun y hy => ?_)
            (hd (.read exception) (by simp)), hd⟩) ?_
      · exact (hd (.var y) (List.mem_append_left _ (List.mem_map_of_mem hy))).1
      · exact Iff.trans (forall₂_congr fun _ _ => allows_inside (p := p)) forall₂_and
    have hvars : Suits n p s d := h.marks _ (hneed hsuits)
    refine Decides.of_iff ((handle_decides filter (fun y hy => hvars.inner _
      (he.1 y (Option.mem_toList.2 hy))) index hbody hneed hexception hresult hjoin h).bind
      fun _ entry d₁ ⟨hcode, h₁⟩ => (lowerHandlers_judges p hs (index + 1) hsuits he.2.2 (by grind)
        (by simp [hexception]) (by simp [hresult]) (by simp [hjoin]) h₁).andThen
        fun entries d₂ ⟨hcodes, h₂⟩ => .pure trivial ⟨?_, ?_⟩) ?_
    · rw [List.map_cons, hcode, hcodes]
      rfl
    · have hbodies : (Mark.states ((entry :: entries).map HandlerEntry.body) (Nest.here w)).Holds n d₂ :=
        List.forall_mem_cons.2 ⟨h₂.marks (.state entry.body (Nest.here w)) (by simp),
          h₂.marks (.states (entries.map HandlerEntry.body) (Nest.here w)) (by simp)⟩
      exact (h₂.sub (by grind)).add hbodies
    · rw [Expr.nodesHandlers, List.forall_mem_append, List.forall_mem_append, and_and_and_comm]

end

end Lowering

end Coroutine
