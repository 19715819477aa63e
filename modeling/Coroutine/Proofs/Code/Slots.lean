import Mathlib
import Coroutine.Proofs.Code.Built

/-!
# Nodes, children and slots

Children are enumerated in three places: by `Expr.children`, by `Expr.mapChildrenM` and when an
expression is reduced. `build_lists` says that they agree. The nodes of code are those of the
expression in the order of `Expr.preorder`, each with the numbers of its children, and the slots that
a switch or a try records are the places of its parts among them.
-/

namespace Coroutine

/-! ## Replacing children -/

namespace Expr

variable {m : Type → Type} [Monad m] [LawfulMonad m] (f : Expr → m Expr)

/-- An optional expression is mapped like the list that it makes. -/
theorem toList_mapM (o : Option Expr) : Option.toList <$> o.mapM f = o.toList.mapM f := by
  cases o <;> simp

/-- The arms of a switch are mapped like the list of their expressions. -/
theorem flatMap_mapChildrenM (cases : List SwitchCase) :
    (·.flatMap SwitchCase.children) <$> cases.mapM (SwitchCase.mapChildrenM f) =
      (cases.flatMap SwitchCase.children).mapM f := by
  induction cases with
  | nil => simp
  | cons c cases ih =>
    rw [List.flatMap_cons, List.mapM_append, ← ih]
    simp [SwitchCase.mapChildrenM, SwitchCase.children]

/-- Handlers are mapped like the list of their bodies. -/
theorem map_mapBodyM (handlers : List Handler) :
    (·.map Handler.body) <$> handlers.mapM (Handler.mapBodyM f) =
      handlers.mapM (f ∘ Handler.body) := by
  induction handlers with
  | nil => simp
  | cons h handlers ih => simp [← ih, Handler.mapBodyM]

/-- Replacing children applies the function to each of them, in their order, and what it gives are
the children of the result. -/
theorem children_mapChildrenM (e : Expr) : children <$> e.mapChildrenM f = e.children.mapM f := by
  cases e <;>
  simp [mapChildrenM, children, ← toList_mapM, ← flatMap_mapChildrenM, ← map_mapBodyM]

end Expr

/-- What replacing the children of an expression in every way does. -/
theorem Expr.children_mapChildren (f : Expr → Expr) (e : Expr) :
    (e.mapChildren f).children = e.children.map f :=
  (children_mapChildrenM (m := Id) (fun c => pure (f c)) e).trans (List.mapM_pure ..)

/-! ## Slots -/

/-- The slots of an arm of a switch hold its parts. -/
def CaseSlots.Hold (l : List Expr) (s : CaseSlots) (c : SwitchCase) : Prop :=
  s.tests.map (l[·]?) = c.tests.map some ∧ l[s.body]? = some c.body

/-- The slot of a handler holds its body. -/
def HandlerSlots.Hold (l : List Expr) (s : HandlerSlots) (h : Handler) : Prop :=
  s.filter = h.filter ∧ s.var = h.var ∧ l[s.body]? = some h.body

/-- The slots that a node records are the places of the parts of an expression among its children,
and together with the first slot they are all places. -/
def Op.Lays (op : Op) : Expr → Prop
  | e@(.switch _ arms fallback) => ∃ slots last, op = .switch slots last ∧
    List.Forall₂ (CaseSlots.Hold e.children) slots arms ∧
    last.map (e.children[·]?) = fallback.map some ∧
    0 :: (slots.flatMap (fun s => s.tests ++ [s.body]) ++ last.toList) =
      List.range e.children.length
  | e@(.tryCatch _ handlers cleanup) => ∃ slots last, op = .tryCatch slots last ∧
    List.Forall₂ (HandlerSlots.Hold e.children) slots handlers ∧
    last.map (e.children[·]?) = cleanup.map some ∧
    0 :: (slots.map HandlerSlots.body ++ last.toList) = List.range e.children.length
  | _ => True

/-- The slots of the arms hold their expressions. -/
theorem hold_caseSlots (arms : List SwitchCase) (pre post : List Expr) :
    List.Forall₂ (CaseSlots.Hold (pre ++ arms.flatMap SwitchCase.children ++ post))
      (caseSlots pre.length arms) arms := by
  induction arms generalizing pre with
  | nil => exact .nil
  | cons c arms ih =>
    obtain ⟨tests, body⟩ := c
    refine .cons ⟨List.ext_getElem (by simp) fun i h₁ h₂ => ?_, ?_⟩ ?_
    · have hi : i < tests.length := by simpa using h₁
      simp [SwitchCase.children, List.getElem?_append_right, List.getElem?_append_left hi, hi]
    · simp [SwitchCase.children]
    · -- the slots of the next arms start behind this one
      have hrest := ih (pre ++ tests ++ [body])
      simpa [SwitchCase.children, Nat.add_assoc] using hrest

/-- The slots of the arms follow each other without a gap. -/
theorem flatMap_caseSlots (arms : List SwitchCase) (start : Nat) :
    (caseSlots start arms).flatMap (fun s => s.tests ++ [s.body]) =
      List.range' start (caseWidth arms) := by
  induction arms generalizing start with
  | nil => rfl
  | cons c arms ih =>
    obtain ⟨tests, body⟩ := c
    have hwidth : caseWidth (⟨tests, body⟩ :: arms) = tests.length + (1 + caseWidth arms) :=
      Nat.add_assoc ..
    rw [caseSlots, List.flatMap_cons, ih, hwidth, ← List.range'_append_1, ← List.range'_append_1,
      List.append_assoc]
    rfl

/-- The slots of the handlers hold their bodies. -/
theorem hold_handlerSlots (handlers : List Handler) (pre post : List Expr) :
    List.Forall₂ (HandlerSlots.Hold (pre ++ handlers.map Handler.body ++ post))
      (handlerSlots pre.length handlers) handlers := by
  induction handlers generalizing pre with
  | nil => exact .nil
  | cons h handlers ih =>
    obtain ⟨filter, x, body⟩ := h
    refine .cons ⟨rfl, rfl, by simp⟩ ?_
    have hrest := ih (pre ++ [body])
    simpa using hrest

/-- The slots of the handlers follow each other without a gap. -/
theorem map_handlerSlots (handlers : List Handler) (start : Nat) :
    (handlerSlots start handlers).map HandlerSlots.body = List.range' start handlers.length := by
  induction handlers generalizing start with
  | nil => rfl
  | cons h handlers ih =>
    obtain ⟨filter, x, body⟩ := h
    rw [handlerSlots, List.map_cons, ih]
    rfl

/-- The first slot, some slots after it and maybe a last one are all places. -/
theorem range_slots (n : Nat) (o : Option Expr) :
    0 :: (List.range' 1 n ++ (o.map fun _ => 1 + n).toList) =
      List.range (1 + n + o.toList.length) := by
  have hrange : List.range (1 + n) = 0 :: List.range' 1 n := by
    rw [Nat.add_comm, List.range_eq_range', List.range'_succ]
  cases o with
  | none => exact (congrArg (0 :: ·) (List.append_nil _)).trans hrange.symm
  | some => exact (congrArg (· ++ [1 + n]) hrange).symm.trans List.range_succ.symm

/-- An operation lays out the children of its expression. -/
theorem Expr.Does.lays {resolve : Resolver} {op : Op} {e : Expr} (h : e.Does resolve op) :
    op.Lays e := by
  cases e with
  | switch value arms fallback =>
    have hwidth := length_flatMap_children arms
    refine ⟨_, _, (Except.ok.inj h).symm, hold_caseSlots arms [value] fallback.toList, ?_, ?_⟩
    · cases fallback <;> simp [children, Nat.add_comm 1, ← hwidth]
    · rw [flatMap_caseSlots, range_slots, children, List.length_cons, List.length_append, hwidth]
      congr 1
      omega
  | tryCatch body handlers cleanup =>
    refine ⟨_, _, (Except.ok.inj h).symm, hold_handlerSlots handlers [body] cleanup.toList, ?_, ?_⟩
    · cases cleanup <;> simp [children, Nat.add_comm 1]
    · rw [map_handlerSlots, range_slots, children, List.length_cons, List.length_append,
        List.length_map]
      congr 1
      omega
  | _ => trivial

/-! ## Nodes -/

namespace Code

/-- The node with a number is that of an expression, in code for a list of expressions. -/
structure Shows (resolve : Expr.Resolver) (c : Code) (all : List Expr) (i : Nat) (x : Expr) :
    Prop where
  does : x.Does resolve (c.node i).op
  /-- Its children follow it, each with all that is below it. -/
  children : (c.node i).children = Expr.indices (i + 1) x.children
  /-- In every slot is the node of the child with that place, which knows it. -/
  child : ∀ k r, (c.node i).children[k]? = some r → ∃ y, x.children[k]? = some y ∧
    all[r]? = some y ∧ (c.node r).parent = some i ∧ (c.node r).slot = k
  width : (c.node i).children.length = x.children.length
  lays : (c.node i).op.Lays x
  /-- The body of a lambda has code of its own. -/
  body : ∀ l, x = .lambda l → ∃ t, (c.node i).op = .lambda t ∧ t.name = l.displayName ∧
    t.params = l.params ∧ build resolve false l.body = .ok t.code

/-- Code lists the nodes of an expression, each before its children. -/
structure Lists (resolve : Expr.Resolver) (c : Code) (e : Expr) : Prop where
  size : c.nodes.size = e.preorder.length
  root : (c.node root).parent = none ∧ (c.node root).slot = 0
  node : ∀ i x, e.preorder[i]? = some x → c.Shows resolve e.preorder i x

/-- Giving jumps their routes adds no node. -/
theorem size_routeJumps {allow : Bool} {sites : List (Nat × Site)} {jumps : List (Nat × Nat)}
    {c d : Code} (h : routeJumps allow sites jumps c = .ok d) : d.nodes.size = c.nodes.size := by
  induction jumps generalizing c with
  | nil =>
    cases h
    rfl
  | cons j jumps ih =>
    obtain ⟨r, -, h⟩ := bind_eq_ok.1 h
    exact (ih h).trans (Array.size_modify ..)

/-- The nodes of an expression are numbered as they come. -/
theorem mem_located_zero {e x : Expr} {i : Nat} :
    (x, i) ∈ Expr.located root [e] ↔ e.preorder[i]? = some x := by
  rw [Expr.located, List.flatMap_singleton]
  exact List.mk_mem_zipIdx_iff_getElem?

/-- Each node shows the expression that it mirrors. -/
theorem Mirrors.shows {resolve : Expr.Resolver} {c : Code} {e : Expr}
    (h : c.Mirrors resolve none 0 root e) {i : Nat} {x : Expr} (hx : e.preorder[i]? = some x) :
    c.Shows resolve e.preorder i x := by
  obtain ⟨path, hat, hi⟩ := h.mem_located_iff.1 (mem_located_zero.2 hx)
  obtain ⟨x', parent, slot, hat', hm⟩ := h.of_follow hi
  cases hat.symm.trans hat'
  refine ⟨hm.does, hm.children_eq, fun k r hr => ?_, ?_, hm.does.lays, ?_⟩
  · -- the child in a slot is where the path goes on with that slot
    obtain ⟨y, hy, hmy⟩ := hm.child hr
    have hchild : e.at? (path ++ [k]) = some y ∧ c.follow root (path ++ [k]) = some r := by
      rw [Expr.at?_append, follow_append, hat, hi]
      exact ⟨Option.bind_eq_some_iff.2 ⟨x, rfl, Option.bind_eq_some_iff.2 ⟨y, hy, rfl⟩⟩,
        Option.bind_eq_some_iff.2 ⟨i, rfl, Option.bind_eq_some_iff.2 ⟨r, hr, rfl⟩⟩⟩
    exact ⟨y, hy, mem_located_zero.1 (h.mem_located_iff.2 ⟨_, hchild⟩), hmy.parent_eq, hmy.slot_eq⟩
  · rw [hm.children_eq, Expr.length_indices]
  · rintro l rfl
    obtain ⟨code, hcode, hop⟩ := bind_eq_ok.1 hm.does
    exact ⟨_, (Except.ok.inj hop).symm, rfl, rfl, hcode⟩

/-- The code of an expression lists its nodes, with all children in their slots. Replacing children
visits just these, in the same order. -/
theorem build_lists (resolve : Expr.Resolver) (allow : Bool) (e : Expr) (code : Code)
    (h : build resolve allow e = .ok code) :
    code.Lists resolve e ∧
      (∀ (σ : Type) (f : Expr → StateM σ Expr) (x : Expr),
        Expr.children <$> x.mapChildrenM f = x.children.mapM f) ∧
      ∀ (f : Expr → Expr) (x : Expr), (x.mapChildren f).children = x.children.map f := by
  have hmirrors := (build_renders h).mirrors
  refine ⟨⟨?_, ⟨hmirrors.parent_eq, hmirrors.slot_eq⟩, fun i x => hmirrors.shows⟩,
    fun σ f => Expr.children_mapChildrenM f, Expr.children_mapChildren⟩
  obtain ⟨f, hf, hcode⟩ := bind_eq_ok.1 h
  rw [← Expr.reduceList_singleton] at hf
  have hsize := (Expr.renders_of_reduceList hf).size
  rw [List.flatMap_singleton] at hsize
  exact (size_routeJumps hcode).trans (List.size_toArray.trans hsize)

/-- A switch with a try in its default. -/
def branching : Expr :=
  .switch (.constant (.int 1))
    [⟨[.constant (.int 1), .constant (.int 2)], .unary .not (.constant .unit)⟩, ⟨[], .yieldBreak⟩]
    (some (.tryCatch (.lambda ⟨none, .sync, [], .throw none⟩) [⟨.any, none, .throw none⟩]
      (some (.constant .unit))))

theorem branching_lists : ∃ code, build (.ok ∘ Binder.task) false branching = .ok code ∧
    code.Lists (.ok ∘ Binder.task) branching ∧ code.nodes.size = 11 := by
  have hsize : (build (.ok ∘ Binder.task) false branching).toOption.map (·.nodes.size) = some 11 := by
    rfl
  cases h : build (.ok ∘ Binder.task) false branching with
  | error err => rw [h] at hsize; cases hsize
  | ok code =>
    rw [h] at hsize
    exact ⟨code, rfl, (build_lists (.ok ∘ Binder.task) false branching code h).1,
      Option.some.inj hsize⟩

end Code

end Coroutine
