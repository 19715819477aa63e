import Mathlib
import Coroutine.Tree.Children
import Coroutine.Tree.Suspension

/-!
# The parts of an expression

Traversals of a tree are written with one function for each kind of list in it. Here they are brought
to one form: what holds of a node and of its children (`Expr.children`). `children_induction` then
follows the tree in one step.
-/

namespace Coroutine

variable {e : Expr}

/-- The expressions of an arm are smaller than the arm. -/
theorem SwitchCase.sizeOf_lt_of_mem_children {c : SwitchCase} (h : e ∈ c.children) :
    sizeOf e < sizeOf c := by
  obtain ⟨tests, body⟩ := c
  rw [SwitchCase.mk.sizeOf_spec]
  rcases List.mem_append.1 h with h | h
  · have hlt : sizeOf e < sizeOf tests := List.sizeOf_lt_of_mem h
    omega
  · obtain rfl := List.mem_singleton.1 h
    omega

/-- The body of a handler is smaller than the handler. -/
theorem Handler.sizeOf_body_lt (h : Handler) : sizeOf h.body < sizeOf h := by
  obtain ⟨filter, var, body⟩ := h
  simp only [Handler.mk.sizeOf_spec]
  omega

/-- How a part belongs to its node. -/
inductive Link where
  | plain
  /-- A statement of a block with these variables. -/
  | scope (vars : List Var)
  /-- The body of a handler. -/
  | handler (x : Option Var)
  /-- The body of a lambda. -/
  | body (params : List Var)

/-- The variables that exist in a part beside those that exist in its node. -/
def Link.declared : Link → List Var
  | .plain => []
  | .scope vars => vars
  | .handler x => x.toList
  | .body params => params

namespace Expr

/-- The parts of a node: its children, or the body of a lambda. -/
def parts : Expr → List (Link × Expr)
  | .lambda l => [(.body l.params, l.body)]
  | .block vars body => body.map (.scope vars, ·)
  | .tryCatch body handlers cleanup =>
    (.plain, body) :: handlers.map (fun h => (.handler h.var, h.body)) ++ cleanup.toList.map (.plain, ·)
  | e => e.children.map (.plain, ·)

/-- An optional expression is smaller than the option. -/
theorem sizeOf_lt_of_mem_toList {c : Expr} {o : Option Expr} (h : c ∈ o.toList) :
    sizeOf c < sizeOf o := by
  cases o with
  | none => cases h
  | some e =>
    obtain rfl := List.mem_singleton.1 h
    rw [Option.some.sizeOf_spec]
    omega

/-- The parts of an expression are smaller than it. -/
theorem sizeOf_lt_of_mem_parts {p : Link × Expr} (h : p ∈ e.parts) : sizeOf p.2 < sizeOf e := by
  obtain ⟨l, c⟩ := p
  rcases e with _ | _ | _ | _ | _ | _ | _ | ⟨⟨_, _, _, _⟩⟩ | _ | _ | _ | _ | _ | _ | _ | _ | _ | _ | _ <;>
    simp only [parts, children, List.mem_cons, List.mem_append, List.mem_flatMap, List.mem_map,
      List.not_mem_nil, or_false, Prod.mk.injEq] at h <;>
    simp only [assign.sizeOf_spec, binary.sizeOf_spec, unary.sizeOf_spec, call.sizeOf_spec,
      invoke.sizeOf_spec, lambda.sizeOf_spec, Lambda.mk.sizeOf_spec, block.sizeOf_spec,
      condition.sizeOf_spec, switch.sizeOf_spec, loop.sizeOf_spec, goto.sizeOf_spec,
      label.sizeOf_spec, tryCatch.sizeOf_spec, throw.sizeOf_spec, await.sizeOf_spec,
      yieldReturn.sizeOf_spec] <;>
    grind [→ sizeOf_lt_of_mem_toList, → List.sizeOf_lt_of_mem,
      → SwitchCase.sizeOf_lt_of_mem_children, Handler.sizeOf_body_lt]

/-- The parts are the children, except for the body of a lambda. -/
theorem parts_eq_children (e : Expr) : (∃ l, e = .lambda l) ∨
    e.parts.map Prod.snd = e.children ∧ ∀ p ∈ e.parts, ∀ params, p.1 ≠ .body params := by
  cases e <;> simp [parts, children, Function.comp_def] <;> grind

/-- Each child is a part, and not the body of a lambda. -/
theorem exists_mem_parts {c : Expr} (h : c ∈ e.children) :
    ∃ l, (l, c) ∈ e.parts ∧ ∀ params, l ≠ .body params := by
  obtain ⟨l, rfl⟩ | ⟨hparts, hlinks⟩ := e.parts_eq_children
  · cases h
  · rw [← hparts, List.mem_map] at h
    obtain ⟨⟨l, _⟩, hl, rfl⟩ := h
    exact ⟨l, hl, hlinks _ hl⟩

/-- Each part is a child or the body of a lambda. -/
theorem mem_children_of_mem_parts {p : Link × Expr} (h : p ∈ e.parts) :
    (∃ params, p.1 = .body params) ∨ p.2 ∈ e.children := by
  obtain ⟨l, rfl⟩ | ⟨hparts, -⟩ := e.parts_eq_children
  · exact .inl ⟨l.params, by rw [List.mem_singleton.1 h]⟩
  · exact .inr (hparts ▸ List.mem_map_of_mem h)

/-- What holds of a node if it holds of its parts holds of every expression. -/
theorem parts_induction {P : Expr → Prop} (step : ∀ e, (∀ p ∈ e.parts, P p.2) → P e) (e : Expr) :
    P e := step e fun p _ => parts_induction step p.2
termination_by sizeOf e
decreasing_by exact sizeOf_lt_of_mem_parts ‹_›

/-- What holds of a node if it holds of its children holds of every expression. -/
theorem children_induction {P : Expr → Prop} (step : ∀ e, (∀ c ∈ e.children, P c) → P e)
    (e : Expr) : P e :=
  parts_induction (fun e ih => step e fun _ hc => (exists_mem_parts hc).elim fun _ hl => ih _ hl.1) e

/-! ## Nodes -/

/-- The nodes of a list, expression by expression. -/
theorem nodesList_eq (deep : Bool) : ∀ l, nodesList deep l = l.flatMap (nodes deep)
  | [] => rfl
  | e :: es => by rw [nodesList, nodesList_eq deep es, List.flatMap_cons]

/-- The nodes of arms are those of the list of their expressions. -/
theorem nodesCases_eq (deep : Bool) :
    ∀ l, nodesCases deep l = (l.flatMap SwitchCase.children).flatMap (nodes deep)
  | [] => rfl
  | ⟨tests, body⟩ :: cs => by
    simp [nodesCases, nodesCases_eq deep cs, nodesList_eq, SwitchCase.children]

/-- The nodes of handlers are those of the list of their bodies. -/
theorem nodesHandlers_eq (deep : Bool) :
    ∀ l, nodesHandlers deep l = (l.map Handler.body).flatMap (nodes deep)
  | [] => rfl
  | ⟨_, _, body⟩ :: hs => by simp [nodesHandlers, nodesHandlers_eq deep hs]

/-- The nodes of an expression are it and those of its children. -/
theorem nodes_eq (e : Expr) : e.nodes false = e :: e.children.flatMap (nodes false) := by
  rcases e with _ | _ | _ | _ | _ | _ | _ | ⟨⟨_, _, _, _⟩⟩ | _ | ⟨_, _, _ | _⟩ | ⟨_, _, _ | _⟩ | _ |
    ⟨_, _, _ | _⟩ | ⟨_, _ | _⟩ | ⟨_, _, _ | _⟩ | ⟨_ | _⟩ | _ | _ | _ <;>
  simp [nodes, children, nodesList_eq, nodesCases_eq, nodesHandlers_eq]

/-- All nodes of an expression are it and those of its parts. -/
theorem walk_eq (e : Expr) : e.nodes true = e :: e.parts.flatMap (nodes true ·.2) := by
  rcases e with _ | _ | _ | _ | _ | _ | _ | ⟨⟨_, _, _, _⟩⟩ | _ | ⟨_, _, _ | _⟩ | ⟨_, _, _ | _⟩ | _ |
    ⟨_, _, _ | _⟩ | ⟨_, _ | _⟩ | ⟨_, _, _ | _⟩ | ⟨_ | _⟩ | _ | _ | _ <;>
  simp [nodes, parts, children, nodesList_eq, nodesCases_eq, nodesHandlers_eq, List.flatMap_map]

/-- What the children of a node have from it, its nodes have. -/
theorem forall_nodes {P : Expr → Prop} (step : ∀ e, P e → ∀ c ∈ e.children, P c) (he : P e) :
    ∀ x ∈ e.nodes false, P x := by
  induction e using children_induction with
  | step e ih =>
    intro x hx
    rw [nodes_eq, List.mem_cons, List.mem_flatMap] at hx
    rcases hx with rfl | ⟨c, hc, hx⟩
    · exact he
    · exact ih c hc (step e he c hc) x hx

/-! ## Occurrences -/

/-- The nodes of an expression, nested lambdas included, each with the links that lead to it. -/
def occurrences (e : Expr) : List (List Link × Expr) :=
  ([], e) :: e.parts.attach.flatMap fun ⟨p, _⟩ =>
    p.2.occurrences.map fun o => (p.1 :: o.1, o.2)
termination_by sizeOf e
decreasing_by exact sizeOf_lt_of_mem_parts ‹_›

/-- An expression occurs in itself, and then come its parts, one link further. -/
theorem occurrences_eq (e : Expr) : e.occurrences =
    ([], e) :: e.parts.flatMap fun p => p.2.occurrences.map fun o => (p.1 :: o.1, o.2) := by
  rw [occurrences]
  conv_rhs => rw [← List.attach_map_subtype_val e.parts, List.flatMap_map]

/-- What occurs, without the links, are all the nodes. -/
theorem map_occurrences (e : Expr) : e.occurrences.map Prod.snd = e.nodes true := by
  induction e using parts_induction with
  | step e ih =>
    rw [occurrences_eq, walk_eq, List.map_cons, List.map_flatMap]
    simp only [List.map_map]
    exact congrArg (e :: ·) (List.flatMap_congr fun p hp => ih p hp)

/-- What holds along the links of a node and of its parts holds of all occurrences. -/
theorem forall_occurrences {P : List Link → Expr → Prop} :
    (∀ o ∈ e.occurrences, P o.1 o.2) ↔
      P [] e ∧ ∀ p ∈ e.parts, ∀ o ∈ p.2.occurrences, P (p.1 :: o.1) o.2 := by
  rw [occurrences_eq]
  simp only [List.forall_mem_cons, List.forall_mem_flatMap, List.forall_mem_map]

/-! ## Suspend points -/

/-- A list suspends if one of its expressions does. -/
theorem anySuspends_eq : ∀ l, anySuspends l = l.any suspends
  | [] => rfl
  | e :: es => by rw [anySuspends, anySuspends_eq es, List.any_cons]

/-- Arms suspend if one of their expressions does. -/
theorem casesSuspend_eq : ∀ l, casesSuspend l = (l.flatMap SwitchCase.children).any suspends
  | [] => rfl
  | ⟨tests, body⟩ :: cs => by
    simp [casesSuspend, casesSuspend_eq cs, anySuspends_eq, SwitchCase.children, Bool.or_assoc]

/-- Handlers suspend if one of their bodies does. -/
theorem handlersSuspend_eq : ∀ l, handlersSuspend l = (l.map Handler.body).any suspends
  | [] => rfl
  | ⟨_, _, body⟩ :: hs => by simp [handlersSuspend, handlersSuspend_eq hs]

/-- An expression suspends if it is a suspend point or one of its children suspends. -/
theorem suspends_eq (e : Expr) : e.suspends = (e.isSuspendPoint || e.children.any suspends) := by
  fun_cases suspends e <;>
  simp [isSuspendPoint, children, anySuspends_eq, casesSuspend_eq, handlersSuspend_eq,
    Bool.or_assoc]

/-- The nodes of an expression without suspend points have none. -/
theorem plain_nodes (h : e.suspends = false) : ∀ x ∈ e.nodes false, x.suspends = false :=
  forall_nodes (P := fun e => e.suspends = false) (fun e he c hc => by
    rw [suspends_eq, Bool.or_eq_false_iff, List.any_eq_false] at he
    simpa using he.2 c hc) h

/-- The first result of a list is that of its head, or else that of its tail. -/
theorem findSome?_cons_eq_or {α β : Type} (f : α → Option β) (a : α) (l : List α) :
    (a :: l).findSome? f = (f a).or (l.findSome? f) := by
  cases h : f a <;> simp [h]

/-- The first suspend point of a list. -/
theorem firstSuspendIn?_eq : ∀ l, firstSuspendIn? l = l.findSome? firstSuspend?
  | [] => rfl
  | e :: es => by
    rw [firstSuspendIn?, firstSuspendIn?_eq es, findSome?_cons_eq_or, Option.orElse_eq_orElse,
      Option.orElse_eq_or]

/-- The first suspend point of arms is that of the list of their expressions. -/
theorem firstSuspendInCases?_eq :
    ∀ l, firstSuspendInCases? l = (l.flatMap SwitchCase.children).findSome? firstSuspend?
  | [] => rfl
  | ⟨tests, body⟩ :: cs => by
    simp [firstSuspendInCases?, firstSuspendInCases?_eq cs, firstSuspendIn?_eq, SwitchCase.children,
      findSome?_cons_eq_or]

/-- The first suspend point of handlers is that of the list of their bodies. -/
theorem firstSuspendInHandlers?_eq :
    ∀ l, firstSuspendInHandlers? l = (l.map Handler.body).findSome? firstSuspend?
  | [] => rfl
  | ⟨_, _, body⟩ :: hs => by
    simp [firstSuspendInHandlers?, firstSuspendInHandlers?_eq hs, findSome?_cons_eq_or]

/-- A suspend point comes before those in its children. -/
theorem firstSuspend?_eq (e : Expr) : e.firstSuspend? =
    if e.isSuspendPoint then some e else e.children.findSome? firstSuspend? := by
  fun_cases suspends e <;>
  simp [firstSuspend?, isSuspendPoint, children, firstSuspendIn?_eq, firstSuspendInCases?_eq,
    firstSuspendInHandlers?_eq, findSome?_cons_eq_or]

/-- A search depends on the members of the list only. -/
theorem findSome?_congr {α β : Type} {f g : α → Option β} {l : List α} (h : ∀ a ∈ l, f a = g a) :
    l.findSome? f = l.findSome? g := by
  induction l with
  | nil => rfl
  | cons a l ih =>
    obtain ⟨ha, hl⟩ := List.forall_mem_cons.1 h
    rw [findSome?_cons_eq_or, findSome?_cons_eq_or, ha, ih hl]

/-- The first suspend point comes first in the order of the nodes. -/
theorem firstSuspend?_eq_find? (e : Expr) :
    e.firstSuspend? = (e.nodes false).find? isSuspendPoint := by
  induction e using children_induction with
  | step e ih =>
    rw [firstSuspend?_eq, nodes_eq, List.find?_cons, List.find?_flatMap]
    cases e.isSuspendPoint with
    | true => rfl
    | false => exact findSome?_congr ih

/-- An expression suspends if one of its nodes is a suspend point. -/
theorem suspends_eq_any (e : Expr) : e.suspends = (e.nodes false).any isSuspendPoint := by
  induction e using children_induction with
  | step e ih =>
    rw [suspends_eq, nodes_eq, List.any_cons, List.any_flatMap, Bool.eq_iff_iff, Bool.or_eq_true,
      Bool.or_eq_true, List.any_eq_true, List.any_eq_true]
    exact or_congr_right (exists_congr fun c => and_congr_right fun hc => by rw [ih c hc])

/-- A suspend point is found if there is one. -/
theorem isSome_firstSuspend? (e : Expr) : e.firstSuspend?.isSome = e.suspends := by
  rw [firstSuspend?_eq_find?, suspends_eq_any, List.isSome_find?]

/-- A list has a first suspend point if it suspends. -/
theorem isSome_firstSuspendIn? (l : List Expr) : (firstSuspendIn? l).isSome = anySuspends l := by
  rw [firstSuspendIn?_eq, anySuspends_eq, List.isSome_findSome?, funext isSome_firstSuspend?]

/-- The suspend points of a list are counted expression by expression. -/
theorem suspendCountList_eq : ∀ l, suspendCountList l = (l.map suspendCount).sum
  | [] => rfl
  | e :: es => by rw [suspendCountList, suspendCountList_eq es, List.map_cons, List.sum_cons]

/-- Those of arms are counted like those of the list of their expressions. -/
theorem suspendCountCases_eq :
    ∀ l, suspendCountCases l = ((l.flatMap SwitchCase.children).map suspendCount).sum
  | [] => rfl
  | ⟨tests, body⟩ :: cs => by
    simp [suspendCountCases, suspendCountCases_eq cs, suspendCountList_eq, SwitchCase.children,
      Nat.add_assoc]

/-- Those of handlers are counted like those of the list of their bodies. -/
theorem suspendCountHandlers_eq :
    ∀ l, suspendCountHandlers l = ((l.map Handler.body).map suspendCount).sum
  | [] => rfl
  | ⟨_, _, body⟩ :: hs => by simp [suspendCountHandlers, suspendCountHandlers_eq hs]

/-- A suspend point counts itself and those in its children. -/
theorem suspendCount_eq (e : Expr) : e.suspendCount =
    (if e.isSuspendPoint then 1 else 0) + (e.children.map suspendCount).sum := by
  fun_cases suspendCount e <;>
  simp [isSuspendPoint, children, suspendCountList_eq, suspendCountCases_eq,
    suspendCountHandlers_eq, Nat.add_assoc]

/-- The suspend points are counted among the nodes. -/
theorem suspendCount_eq_countP (e : Expr) :
    e.suspendCount = (e.nodes false).countP isSuspendPoint := by
  induction e using children_induction with
  | step e ih =>
    rw [suspendCount_eq, nodes_eq, List.countP_cons, List.countP_flatMap, Nat.add_comm]
    exact congrArg (· + _) (congrArg List.sum (List.map_congr_left ih))

end Expr

end Coroutine
