import Mathlib
import Coroutine.Proofs.Code.Mirrored

/-!
# Routes

A place in an expression is a path: the slots of the children that lead there. In code that mirrors
the expression the same path leads to the node of the place, and the ancestors of a node are the
nodes on its path. So the route of a jump can be told from the expression: `Expr.Way`.
-/

namespace Coroutine

variable {resolve : Expr.Resolver} {c : Code} {parent : Option Nat} {slot id i l : Nat} {e : Expr}
  {path q : List Nat} {allow : Bool}

/-! ## Paths -/

/-- The part of an expression that a path leads to. -/
def Expr.at? (e : Expr) : List Nat → Option Expr
  | [] => some e
  | k :: path => e.children[k]?.bind fun c => c.at? path

/-- The node that a path leads to from another one. -/
def Code.follow (c : Code) (id : Nat) : List Nat → Option Nat
  | [] => some id
  | k :: path => (c.node id).children[k]?.bind fun i => c.follow i path

/-- A longer path goes on from where the first part of it leads. -/
theorem Expr.at?_append (e : Expr) (p q : List Nat) : e.at? (p ++ q) = (e.at? p).bind (·.at? q) := by
  induction p generalizing e with
  | nil => rfl
  | cons k p ih => cases hk : e.children[k]? <;> simp [Expr.at?, hk, ih]

/-- A longer path between nodes goes on from where the first part of it leads. -/
theorem Code.follow_append (c : Code) (id : Nat) (p q : List Nat) :
    c.follow id (p ++ q) = (c.follow id p).bind (c.follow · q) := by
  induction p generalizing id with
  | nil => rfl
  | cons k p ih => cases hk : (c.node id).children[k]? <;> simp [Code.follow, hk, ih]

namespace Expr

/-- Every expression of a list has a node. -/
theorem length_indices (es : List Expr) (i : Nat) : (indices i es).length = es.length := by
  induction es generalizing i with
  | nil => rfl
  | cons e es ih => simp [indices, ih]

/-- The nodes of a list come after its start. -/
theorem le_of_mem_indices {es : List Expr} {r : Nat} (h : r ∈ indices i es) : i ≤ r := by
  induction es generalizing i with
  | nil => cases h
  | cons e es ih =>
    rcases List.mem_cons.1 h with rfl | h
    · exact le_rfl
    · exact (Nat.le_add_right _ _).trans (ih h)

/-- A node of a run is one below one of its expressions. -/
theorem mem_located {es : List Expr} {x : Expr × Nat} :
    x ∈ located i es ↔
    ∃ (k : Nat) (y : Expr) (r : Nat), es[k]? = some y ∧ (indices i es)[k]? = some r ∧
      x ∈ located r [y] := by
  induction es generalizing i with
  | nil => simp [located]
  | cons e es ih =>
    rw [located_cons, List.mem_append, ih]
    constructor
    · rintro (h | ⟨k, y, r, hy, hr, h⟩)
      · exact ⟨0, e, i, rfl, rfl, h⟩
      · exact ⟨k + 1, y, r, hy, hr, h⟩
    · rintro ⟨_ | k, y, r, hy, hr, h⟩
      · cases hy
        cases hr
        exact .inl h
      · exact .inr ⟨k, y, r, hy, hr, h⟩

end Expr

namespace Code.Mirrors

variable (h : c.Mirrors resolve parent slot id e)
include h

/-- A node that mirrors an expression knows its parent. -/
theorem parent_eq : (c.node id).parent = parent := by
  obtain ⟨-, hnode, -⟩ := h
  simpa using congrArg Node.parent hnode

/-- A node that mirrors an expression knows its slot. -/
theorem slot_eq : (c.node id).slot = slot := by
  obtain ⟨-, hnode, -⟩ := h
  simpa using congrArg Node.slot hnode

/-- The children are numbered one after the other, behind the node. -/
theorem children_eq : (c.node id).children = Expr.indices (id + 1) e.children := by
  obtain ⟨-, hnode, -⟩ := h
  simpa using congrArg Node.children hnode

/-- Each child mirrors its expression, below the node. -/
theorem child {k r : Nat} (hr : (c.node id).children[k]? = some r) :
    ∃ x, e.children[k]? = some x ∧ c.Mirrors resolve (some id) k r x := by
  have hlt : k < e.children.length := by
    rw [← Expr.length_indices e.children (id + 1), ← h.children_eq]
    exact (List.getElem?_eq_some_iff.1 hr).1
  rw [h.children_eq] at hr
  obtain ⟨-, -, hchild⟩ := h
  exact ⟨_, List.getElem?_eq_getElem hlt, hchild k _ r (List.getElem?_eq_getElem hlt) hr⟩

/-- A path leads to a node and to the part of the expression that it mirrors. -/
theorem of_follow (hi : c.follow id path = some i) :
    ∃ x parent slot, e.at? path = some x ∧ c.Mirrors resolve parent slot i x := by
  induction path generalizing parent slot id e with
  | nil =>
    cases hi
    exact ⟨e, parent, slot, rfl, h⟩
  | cons k path ih =>
    obtain ⟨r, hr, hi⟩ := Option.bind_eq_some_iff.1 hi
    obtain ⟨y, hy, hm⟩ := h.child hr
    obtain ⟨x, p, s, hx, hmx⟩ := ih hm hi
    exact ⟨x, p, s, Option.bind_eq_some_iff.2 ⟨y, hy, hx⟩, hmx⟩

/-- A path in the tree is a path between nodes. -/
theorem exists_follow {x : Expr} (hx : e.at? path = some x) : ∃ i, c.follow id path = some i := by
  induction path generalizing parent slot id e with
  | nil => exact ⟨id, rfl⟩
  | cons k path ih =>
    obtain ⟨y, hy, hx⟩ := Option.bind_eq_some_iff.1 hx
    have hlt : k < (c.node id).children.length := by
      rw [h.children_eq, Expr.length_indices]
      exact (List.getElem?_eq_some_iff.1 hy).1
    have hr := List.getElem?_eq_getElem hlt
    obtain ⟨y', hy', hm⟩ := h.child hr
    obtain rfl : y = y' := Option.some.inj (hy.symm.trans hy')
    obtain ⟨i, hi⟩ := ih hm hx
    exact ⟨i, Option.bind_eq_some_iff.2 ⟨_, hr, hi⟩⟩

/-- The nodes that paths lead to are those of the expression. -/
theorem mem_located_iff {x : Expr} :
    (x, i) ∈ Expr.located id [e] ↔ ∃ path, e.at? path = some x ∧ c.follow id path = some i := by
  induction e using Expr.children_induction generalizing parent slot id with
  | step e ih =>
    rw [Expr.located_singleton, List.mem_cons, Expr.mem_located]
    constructor
    · rintro (heq | ⟨k, y, r, hy, hr, hx⟩)
      · cases heq
        exact ⟨[], rfl, rfl⟩
      · rw [← h.children_eq] at hr
        obtain ⟨y', hy', hm⟩ := h.child hr
        obtain rfl : y = y' := Option.some.inj (hy.symm.trans hy')
        obtain ⟨path, hp, hf⟩ := (ih y (List.mem_of_getElem? hy) hm).1 hx
        exact ⟨k :: path, Option.bind_eq_some_iff.2 ⟨y, hy, hp⟩,
          Option.bind_eq_some_iff.2 ⟨r, hr, hf⟩⟩
    · rintro ⟨_ | ⟨k, path⟩, hx, hi⟩
      · cases hx
        cases hi
        exact .inl rfl
      · obtain ⟨y, hy, hx⟩ := Option.bind_eq_some_iff.1 hx
        obtain ⟨r, hr, hi⟩ := Option.bind_eq_some_iff.1 hi
        obtain ⟨y', hy', hm⟩ := h.child hr
        obtain rfl : y = y' := Option.some.inj (hy.symm.trans hy')
        exact .inr ⟨k, y, r, hy, h.children_eq ▸ hr,
          (ih y (List.mem_of_getElem? hy) hm).2 ⟨path, hx, hi⟩⟩

end Code.Mirrors

/-! ## Ancestors -/

/-- The nodes that a path leads through, after the first one. -/
def Code.trail (c : Code) (id : Nat) : List Nat → List Nat
  | [] => []
  | k :: path => match (c.node id).children[k]? with
    | some i => i :: c.trail i path
    | none => []

/-- The way up, one parent at a time. -/
theorem ancestors_succ (c : Code) (fuel id : Nat) :
    ancestors c.nodes (fuel + 1) id = id ::
      match (c.node id).parent with
      | some p => ancestors c.nodes fuel p
      | none => [] := by
  rw [ancestors]
  congr 1
  cases hid : c.nodes[id]? with
  | none => simp [Code.node, hid, default]
  | some n =>
    obtain ⟨parent, slot, children, op⟩ := n
    cases parent <;> simp [Code.node, hid]

/-- Where parents come first, there is fuel for all ancestors. -/
theorem ancestors_eq_lineage (hc : ∀ id p, c.Under id p → p < id) {fuel id : Nat} (h : id < fuel) :
    ancestors c.nodes fuel id = lineage c.nodes id := by
  induction fuel using Nat.strong_induction_on generalizing id with
  | _ fuel ih =>
    obtain ⟨fuel, rfl⟩ := Nat.exists_eq_succ_of_ne_zero (Nat.ne_zero_of_lt h)
    rw [lineage, Nat.succ_eq_add_one, ancestors_succ, ancestors_succ]
    cases hp : (c.node id).parent with
    | none => rfl
    | some p =>
      have hlt : p < id := hc id p hp
      have hle : id ≤ fuel := Nat.le_of_lt_succ h
      simp only [ih fuel (Nat.lt_succ_self _) (hlt.trans_le hle), ih id (Nat.lt_succ_of_le hle) hlt]

/-- The way up from a child goes on with that from its parent. -/
theorem lineage_of_under (hc : ∀ id p, c.Under id p → p < id) {p : Nat} (h : c.Under id p) :
    lineage c.nodes id = id :: lineage c.nodes p := by
  have hp : (c.node id).parent = some p := h
  rw [lineage, ancestors_succ, hp]
  simp only [ancestors_eq_lineage hc (hc id p h)]

/-- A root has no way up. -/
theorem lineage_of_parent_none (h : (c.node id).parent = none) : lineage c.nodes id = [id] := by
  rw [lineage, ancestors_succ, h]

namespace Code.Mirrors

/-- The ancestors of a node are the nodes that its path leads through. -/
theorem lineage_follow (h : c.Mirrors resolve parent slot id e)
    (hc : ∀ id p, c.Under id p → p < id) (hi : c.follow id path = some i) :
    lineage c.nodes i = (c.trail id path).reverse ++ lineage c.nodes id := by
  induction path generalizing parent slot id e with
  | nil =>
    cases hi
    rfl
  | cons k path ih =>
    obtain ⟨r, hr, hi⟩ := Option.bind_eq_some_iff.1 hi
    obtain ⟨y, -, hm⟩ := h.child hr
    rw [ih hm hi, lineage_of_under hc hm.parent_eq, Code.trail, hr]
    simp

/-- The slots along a path are the path. -/
theorem slots_trail (h : c.Mirrors resolve parent slot id e) (hi : c.follow id path = some i) :
    (c.trail id path).map (slotOf c.nodes) = path := by
  induction path generalizing parent slot id e with
  | nil => rfl
  | cons k path ih =>
    obtain ⟨r, hr, hi⟩ := Option.bind_eq_some_iff.1 hi
    obtain ⟨y, -, hm⟩ := h.child hr
    rw [Code.trail, hr]
    exact congrArg₂ List.cons hm.slot_eq (ih hm hi)

/-- In the code of an expression, different paths lead to different nodes. -/
theorem follow_injective (h : c.Mirrors resolve none slot id e)
    (hc : ∀ id p, c.Under id p → p < id) {p : List Nat} (hp : c.follow id p = some i)
    (hq : c.follow id q = some i) : p = q := by
  have htrail := (h.lineage_follow hc hp).symm.trans (h.lineage_follow hc hq)
  rw [← h.slots_trail hp, List.reverse_injective (List.append_cancel_right htrail), h.slots_trail hq]

end Code.Mirrors

/-- A path leads through the nodes that its beginnings lead to. -/
theorem Code.mem_trail {j : Nat} :
    j ∈ c.trail id path ↔ ∃ q, q ≠ [] ∧ q <+: path ∧ c.follow id q = some j := by
  induction path generalizing id with
  | nil => simp [trail]
  | cons k path ih =>
    have hcons : (∃ q, q ≠ [] ∧ q <+: k :: path ∧ c.follow id q = some j) ↔
        ∃ q, q <+: path ∧ (c.node id).children[k]?.bind (c.follow · q) = some j := by
      constructor
      · rintro ⟨_ | ⟨k', q⟩, hne, hq, hj⟩
        · exact absurd rfl hne
        · obtain ⟨rfl, hq'⟩ := List.cons_prefix_cons.1 hq
          exact ⟨q, hq', hj⟩
      · rintro ⟨q, hq, hj⟩
        exact ⟨k :: q, nofun, List.cons_prefix_cons.2 ⟨rfl, hq⟩, hj⟩
    rw [hcons, trail]
    cases (c.node id).children[k]? with
    | none => simp
    | some r =>
      simp only [List.mem_cons, ih, Option.bind_some]
      constructor
      · rintro (rfl | ⟨q, -, hq, hj⟩)
        · exact ⟨[], List.nil_prefix, rfl⟩
        · exact ⟨q, hq, hj⟩
      · rintro ⟨_ | ⟨k', q⟩, hq, hj⟩
        · exact .inl (Option.some.inj hj).symm
        · exact .inr ⟨k' :: q, nofun, hq, hj⟩

/-- The nodes along a longer path are those along its first part and then those along the rest. -/
theorem Code.trail_append {m : Nat} {p : List Nat} (h : c.follow id p = some m) (q : List Nat) :
    c.trail id (p ++ q) = c.trail id p ++ c.trail m q := by
  induction p generalizing id with
  | nil =>
    cases h
    rfl
  | cons k p ih =>
    obtain ⟨r, hr, h⟩ := Option.bind_eq_some_iff.1 h
    simp only [List.cons_append, trail, hr, ih h]

/-! ## Ways -/

/-- The longest path that two paths begin with. -/
def commonPath : List Nat → List Nat → List Nat
  | k :: p, j :: q => if k = j then k :: commonPath p q else []
  | _, _ => []

/-- Behind the part that they share, two paths have nothing in common. -/
theorem exists_commonPath (p q : List Nat) : ∃ s t, p = commonPath p q ++ s ∧
    q = commonPath p q ++ t ∧ ∀ r, r <+: s → r <+: t → r = [] := by
  induction p generalizing q with
  | nil => exact ⟨[], q, rfl, rfl, fun r hr _ => List.prefix_nil.1 hr⟩
  | cons k p ih =>
    cases q with
    | nil => exact ⟨k :: p, [], rfl, rfl, fun r _ hr' => List.prefix_nil.1 hr'⟩
    | cons j q =>
      rw [commonPath]
      split
      · rename_i heq
        obtain ⟨s, t, hp, hq, hst⟩ := ih q
        exact ⟨s, t, congrArg _ hp, heq ▸ congrArg _ hq, hst⟩
      · rename_i hne
        refine ⟨k :: p, j :: q, rfl, rfl, fun r hr hr' => ?_⟩
        cases r with
        | nil => rfl
        | cons i r =>
          have hk : i = k := (List.cons_prefix_cons.1 hr).1
          exact absurd (hk.symm.trans (List.cons_prefix_cons.1 hr').1) hne

/-- Whether a path leads to a block. -/
def Expr.BlockAt (e : Expr) (path : List Nat) : Prop := ∃ vars body, e.at? path = some (.block vars body)

/-- How a jump gets from a place in an expression to a label: up to one place and from there down to
another, or out of the expression. -/
inductive Expr.Way (e : Expr) (allowEscape : Bool) (jump : List Nat) (label : Nat) :
    Option (List Nat × List Nat × RouteKind) → Prop
  /-- To the end of a loop around the jump. -/
  | ends {q : List Nat} {body : Expr} {b : Label} {c : Option Label} (around : q <+: jump)
      (loop : e.at? q = some (.loop body (some b) c)) (target : b.id = label) :
      Way e allowEscape jump label (some (q, q, .toBreak))
  /-- To the next round of a loop around the jump. -/
  | restarts {q : List Nat} {body : Expr} {b : Option Label} {c : Label} (around : q <+: jump)
      (loop : e.at? q = some (.loop body b (some c))) (target : c.id = label) :
      Way e allowEscape jump label (some (q, q, .toContinue))
  /-- To a label, from the nearest common ancestor down through blocks. -/
  | arrives {q : List Nat} {l : Label} {fallback : Option Expr}
      (node : e.at? q = some (.label l fallback)) (target : l.id = label)
      (ancestor : e.BlockAt (commonPath jump q))
      (between : ∀ r, commonPath jump q <+: r → r <+: q → r ≠ commonPath jump q → r ≠ q →
        e.BlockAt r) :
      Way e allowEscape jump label (some (commonPath jump q, q, .toLabel))
  | escapes (allowed : allowEscape = true) (undefined : label ∉ e.definedLabels) :
      Way e allowEscape jump label none

/-- Whether a route is a way in code. -/
def Code.Realises (c : Code) : Route → Option (List Nat × List Nat × RouteKind) → Prop
  | .within id path kind, some (a, q, kind') =>
    c.follow root a = some id ∧ a ++ path = q ∧ kind = kind'
  | .escape, none => True
  | _, _ => False

/-- A route within the code, read off the path to the node where it starts. -/
theorem Code.realises_iff {a : List Nat} {kind : RouteKind} {r : Route}
    (ha : c.follow root a = some id) (hq : a ++ path = q) :
    c.Realises r (some (a, q, kind)) ↔ r = .within id path kind := by
  subst hq
  cases r <;> simp [Realises, ha, eq_comm]

/-! ## Routes of jumps -/

/-- What a jump may pass on its way in, by the operation of the node. -/
theorem passable_node (c : Code) (text : String) (id : Nat) :
    passable c.nodes text id = match (c.node id).op with
      | .block _ => .ok ()
      | .tryCatch .. => .error (.jumpIntoTry text)
      | _ => .error (.jumpIntoExpression text) := rfl

/-- A jump may go into blocks only. -/
theorem passable_eq_ok_iff {text : String} {u : Unit} :
    passable c.nodes text id = .ok u ↔ (c.node id).op.isBlock = true := by
  rw [passable_node]
  cases (c.node id).op <;> simp [Op.isBlock]

/-- All nodes on the way in have to be blocks. -/
theorem forM_passable_eq_ok_iff {text : String} {ids : List Nat} {u : PUnit} :
    ids.forM (passable c.nodes text) = .ok u ↔ ∀ x ∈ ids, (c.node x).op.isBlock = true := by
  induction ids with
  | nil => simp [List.forM, pure, Except.pure]
  | cons x xs ih =>
    rw [List.forall_mem_cons, ← ih]
    refine bind_eq_ok.trans ⟨?_, ?_⟩
    · rintro ⟨⟨⟩, hx, hxs⟩
      exact ⟨passable_eq_ok_iff.1 hx, hxs⟩
    · rintro ⟨hx, hxs⟩
      exact ⟨(), passable_eq_ok_iff.2 hx, hxs⟩

/-- What the node of an expression does, whatever its route is if it jumps. -/
def Expr.Does (resolve : Resolver) (op : Op) : Expr → Prop
  | .goto _ t v => ∃ r, op = .goto t.id v.isSome r
  | e => e.op? resolve = .ok op

namespace Code.Mirrors

/-- The operation of a node is that of its expression. -/
theorem does (h : c.Mirrors resolve parent slot id e) : e.Does resolve (c.node id).op := by
  obtain ⟨hop, hnode, -⟩ := h
  rcases Node.op_eq_of_withRoute hnode with heq | ⟨l, v, q, r, hq, hr⟩
  · cases e with
    | goto kind t v => exact ⟨.escape, heq.trans (Except.ok.inj hop).symm⟩
    | _ => exact heq ▸ hop
  · subst hr
    cases e with
    | goto kind t v =>
      cases hop
      exact ⟨q, hq⟩
    | lambda l | await a type configure =>
      obtain ⟨_, -, hop⟩ := bind_eq_ok.1 hop
      cases hop
    | throw value => cases value <;> cases hop
    | _ => cases hop

/-- Nodes of blocks stand for blocks. -/
theorem isBlock_iff (h : c.Mirrors resolve parent slot id e) :
    (c.node id).op.isBlock = true ↔ ∃ vars body, e = .block vars body := by
  have hop := h.does
  cases e with
  | goto kind t v =>
    obtain ⟨r, hr⟩ := hop
    simp [hr, Op.isBlock]
  | lambda l | await a type configure =>
    obtain ⟨_, -, hop⟩ := bind_eq_ok.1 hop
    simp [← Except.ok.inj hop, Op.isBlock]
  | throw value => cases value <;> simp [← Except.ok.inj hop, Op.isBlock]
  | _ => simp [← Except.ok.inj hop, Op.isBlock]

variable (h : c.Mirrors resolve none 0 root e)

include h

/-- The blocks on a path, seen in the tree and between the nodes. -/
theorem blockAt_iff {j : Nat} (hq : c.follow root q = some j) :
    e.BlockAt q ↔ (c.node j).op.isBlock = true := by
  obtain ⟨x, parent, slot, hx, hm⟩ := h.of_follow hq
  rw [hm.isBlock_iff, Expr.BlockAt, hx]
  simp only [Option.some.injEq]

/-- The nodes that a path leads through are blocks if all its beginnings lead to blocks. -/
theorem forall_mem_trail_iff {t : List Nat} {k a j : Nat} (ha : c.follow root q = some a)
    (hj : c.follow a (t ++ [k]) = some j) :
    (∀ x ∈ c.trail a t, (c.node x).op.isBlock = true) ↔
      ∀ r, q <+: r → r <+: q ++ (t ++ [k]) → r ≠ q → r ≠ q ++ (t ++ [k]) → e.BlockAt r := by
  constructor
  · rintro htrail _ ⟨r, rfl⟩ hr hne hne'
    rw [List.prefix_append_right_inj] at hr
    have hr' : r <+: t := (List.prefix_concat_iff.1 hr).resolve_left fun heq =>
      hne' (congrArg (q ++ ·) heq)
    obtain ⟨u, hu⟩ := hr
    rw [← hu, follow_append] at hj
    obtain ⟨x, hx, -⟩ := Option.bind_eq_some_iff.1 hj
    have hroot : c.follow root (q ++ r) = some x := by rw [follow_append, ha, Option.bind_some, hx]
    refine (h.blockAt_iff hroot).2 (htrail x (mem_trail.2 ⟨r, ?_, hr', hx⟩))
    rintro rfl
    exact hne (List.append_nil q)
  · intro hblocks x hx
    obtain ⟨r, hne, hr, hx⟩ := mem_trail.1 hx
    have hroot : c.follow root (q ++ r) = some x := by rw [follow_append, ha, Option.bind_some, hx]
    refine (h.blockAt_iff hroot).1 (hblocks _ ⟨r, rfl⟩ ?_ ?_ ?_)
    · exact (List.prefix_append_right_inj q).2 (hr.trans (List.prefix_append _ _))
    · simpa using hne
    · intro heq
      have hlen := hr.length_le
      rw [List.append_cancel_left heq, List.length_append] at hlen
      exact absurd hlen (by simp)

variable (hc : ∀ id p, c.Under id p → p < id)

include hc

/-- The ancestors of a node are what the beginnings of its path lead to. -/
theorem mem_lineage_iff {p : List Nat} {j : Nat} (hp : c.follow root p = some i)
    (hq : c.follow root q = some j) : j ∈ lineage c.nodes i ↔ q <+: p := by
  constructor
  · intro hj
    rw [h.lineage_follow hc hp, lineage_of_parent_none h.parent_eq, List.mem_append,
      List.mem_reverse, List.mem_singleton, mem_trail] at hj
    obtain ⟨q', -, hpre, hq'⟩ | rfl := hj
    · exact h.follow_injective hc hq hq' ▸ hpre
    · exact h.follow_injective hc hq (q := []) rfl ▸ List.nil_prefix
  · rintro ⟨t, rfl⟩
    rw [follow_append, hq, Option.bind_some] at hp
    obtain ⟨x, parent, slot, -, hm⟩ := h.of_follow hq
    rw [hm.lineage_follow hc hp, lineage, ancestors_succ]
    exact List.mem_append_right _ List.mem_cons_self

/-- The way up from a node to its nearest common ancestor with another one. -/
theorem takeWhile_lineage {p t : List Nat} {j a : Nat} (hp : c.follow root p = some i)
    (ha : c.follow root q = some a) (hj : c.follow a t = some j) (hq : q <+: p)
    (ht : ∀ r, r ≠ [] → r <+: t → ¬q ++ r <+: p) :
    (lineage c.nodes j).takeWhile (fun id => !(lineage c.nodes i).contains id) =
        (c.trail a t).reverse ∧
      lineage c.nodes j = (c.trail a t).reverse ++ lineage c.nodes a := by
  obtain ⟨x, parent, slot, -, hm⟩ := h.of_follow ha
  have hlineage := hm.lineage_follow hc hj
  refine ⟨?_, hlineage⟩
  have hmeet : a ∈ lineage c.nodes i := (h.mem_lineage_iff hc hp ha).2 hq
  have hnot : ∀ x ∈ (c.trail a t).reverse, (!(lineage c.nodes i).contains x) = true := by
    intro x hx
    obtain ⟨r, hne, hr, hx⟩ := mem_trail.1 (List.mem_reverse.1 hx)
    have hroot : c.follow root (q ++ r) = some x := by rw [follow_append, ha, Option.bind_some, hx]
    simp only [Bool.not_eq_true', List.contains_eq_mem, decide_eq_false_iff_not]
    exact fun hmem => ht r hne hr ((h.mem_lineage_iff hc hp hroot).1 hmem)
  have hhead : ∃ rest, lineage c.nodes a = a :: rest := ⟨_, ancestors_succ c a a⟩
  obtain ⟨rest, hrest⟩ := hhead
  rw [hlineage, List.takeWhile_append_of_pos hnot, hrest, List.takeWhile_cons]
  simp [hmeet]

/-- The routes to the end and to the next round of a loop. -/
theorem route_loop_eq_ok_iff {p : List Nat} {j : Nat} (hp : c.follow root p = some i)
    (hq : c.follow root q = some j) {r : Route} :
    (route c.nodes allow i l (some (.loopEnd j)) = .ok r ↔
      q <+: p ∧ c.Realises r (some (q, q, .toBreak))) ∧
    (route c.nodes allow i l (some (.loopStart j)) = .ok r ↔
      q <+: p ∧ c.Realises r (some (q, q, .toContinue))) := by
  rw [realises_iff hq q.append_nil, realises_iff hq q.append_nil, ← h.mem_lineage_iff hc hp hq]
  by_cases hj : j ∈ lineage c.nodes i <;> simp [route, hj, eq_comm]

/-- The route to a label. -/
theorem route_label_eq_ok_iff {p : List Nat} {j : Nat} (hp : c.follow root p = some i)
    (hq : c.follow root q = some j) {t : Label} {fallback : Option Expr}
    (hx : e.at? q = some (.label t fallback)) {r : Route} :
    route c.nodes allow i l (some (.label j)) = .ok r ↔
      e.BlockAt (commonPath p q) ∧
      (∀ s, commonPath p q <+: s → s <+: q → s ≠ commonPath p q → s ≠ q → e.BlockAt s) ∧
      c.Realises r (some (commonPath p q, q, .toLabel)) := by
  -- the two places part below their common block, which is where the jump goes back to
  obtain ⟨s, u, hps, hqu, hsu⟩ := exists_commonPath p q
  generalize commonPath p q = m at hps hqu ⊢
  subst hps hqu
  rw [follow_append] at hq
  obtain ⟨a, ha, hq⟩ := Option.bind_eq_some_iff.1 hq
  -- nothing on the way down to the label is around the jump
  have hsplit : ∀ r, r ≠ [] → r <+: u → ¬m ++ r <+: m ++ s := fun r hne hr hrs =>
    hne (hsu r ((List.prefix_append_right_inj m).1 hrs) hr)
  obtain ⟨htake, hlineage⟩ := h.takeWhile_lineage hc hp ha hq ⟨s, rfl⟩ hsplit
  obtain ⟨x, parent, slot, -, hm⟩ := h.of_follow ha
  have hslots := hm.slots_trail hq
  obtain ⟨rest, hrest⟩ : ∃ rest, lineage c.nodes a = a :: rest := ⟨_, ancestors_succ c a a⟩
  rw [realises_iff ha rfl, h.blockAt_iff ha]
  simp only [route, htake]
  rw [hlineage, List.drop_left, hrest]
  rcases List.eq_nil_or_concat' u with rfl | ⟨u, k, rfl⟩
  · -- a label around its own jump is no block
    have hblock := h.blockAt_iff ha
    rw [Expr.BlockAt, ← List.append_nil m, hx] at hblock
    simp [Code.trail, ← hblock, throw, throwThe, MonadExceptOf.throw]
  · have htrail : c.trail a (u ++ [k]) = c.trail a u ++ [j] := by
      obtain ⟨b, hb, hk⟩ := Option.bind_eq_some_iff.1 ((follow_append c a u [k]).symm.trans hq)
      obtain ⟨r, hr, hj⟩ := Option.bind_eq_some_iff.1 hk
      rw [trail_append hb, trail, hr, ← Option.some.inj hj]
      rfl
    rw [← h.forall_mem_trail_iff ha hq]
    -- the slots on the way down are the rest of the label's path
    have hpath : ((c.trail a (u ++ [k])).reverse.map (slotOf c.nodes)).reverse = u ++ [k] := by
      rw [List.map_reverse, List.reverse_reverse, hslots]
    rw [hpath, htrail, List.reverse_append]
    simp only [List.reverse_singleton, List.singleton_append]
    constructor
    · intro hr
      obtain ⟨_, hblock, hr⟩ := bind_eq_ok.1 hr
      obtain ⟨_, hcrossed, hr⟩ := bind_eq_ok.1 hr
      cases hr
      exact ⟨passable_eq_ok_iff.1 hblock,
        fun x hx => forM_passable_eq_ok_iff.1 hcrossed x (List.mem_reverse.2 hx), rfl⟩
    · rintro ⟨hblock, hcrossed, rfl⟩
      exact bind_eq_ok.2 ⟨(), passable_eq_ok_iff.2 hblock, bind_eq_ok.2 ⟨(),
        forM_passable_eq_ok_iff.2 fun x hx => hcrossed x (List.mem_reverse.1 hx), rfl⟩⟩

end Code.Mirrors

/-! ## Ways that jumps take -/

/-- A node's sites are the labels that it defines itself. -/
theorem Expr.map_ownSites (id : Nat) (e : Expr) : (e.ownSites id).map Prod.fst = e.ownLabels := by
  cases e <;> simp [ownSites, ownLabels, loopSites, Function.comp_def]

/-- All sites are those of the labels that are defined. -/
theorem Expr.map_sites (i : Nat) (e : Expr) :
    ((located i [e]).flatMap fun x => x.1.ownSites x.2).map Prod.fst = e.definedLabels := by
  rw [List.map_flatMap]
  simp only [map_ownSites]
  rw [← List.flatMap_map, located, List.zipIdx_map_fst, List.flatMap_singleton, definedLabels]

/-- A label has no site if it is not defined. -/
theorem lookup_reverse_eq_none_iff {sites : List (Nat × Site)} :
    sites.reverse.lookup l = none ↔ l ∉ sites.map Prod.fst := by
  rw [List.lookup_eq_none_iff, List.mem_map]
  simp only [List.mem_reverse]
  grind

/-- The site that is found for a label is one of its own. -/
theorem mem_of_lookup_reverse {s : Site} {sites : List (Nat × Site)}
    (h : sites.reverse.lookup l = some s) : (l, s) ∈ sites := by
  obtain ⟨l₁, l₂, hl, -⟩ := List.lookup_eq_some_iff.1 h
  exact List.mem_reverse.1 (by simp [hl])

/-- A label that is defined once has the site of its definition. -/
theorem lookup_reverse_of_mem {s : Site} {sites : List (Nat × Site)}
    (h : (sites.map Prod.fst).Nodup) (hs : (l, s) ∈ sites) : sites.reverse.lookup l = some s := by
  cases hlook : sites.reverse.lookup l with
  | none => exact absurd (List.mem_map_of_mem hs) (lookup_reverse_eq_none_iff.1 hlook)
  | some s' =>
    cases List.inj_on_of_nodup_map h (mem_of_lookup_reverse hlook) hs rfl
    rfl

section

variable {sites : List (Nat × Site)}
  (h : c.Mirrors resolve none 0 Code.root e) (hc : ∀ id p, c.Under id p → p < id)
  (hsites : sites.Perm ((Expr.located Code.root [e]).flatMap fun x => x.1.ownSites x.2))

include h hsites

/-- The sites belong to the nodes along the paths of the tree. -/
theorem mem_sites_iff {s : Nat × Site} : s ∈ sites ↔
    ∃ q x j, e.at? q = some x ∧ c.follow Code.root q = some j ∧ s ∈ x.ownSites j := by
  simp only [hsites.mem_iff, List.mem_flatMap, Prod.exists, h.mem_located_iff]
  constructor
  · rintro ⟨x, j, ⟨q, hx, hj⟩, hs⟩
    exact ⟨q, x, j, hx, hj, hs⟩
  · rintro ⟨q, x, j, hx, hj, hs⟩
    exact ⟨x, j, ⟨q, hx, hj⟩, hs⟩

include hc

/-- A route that is found is a way to the label. -/
theorem exists_way {p : List Nat} {r : Route} (hp : c.follow Code.root p = some i)
    (hr : route c.nodes allow i l (sites.reverse.lookup l) = .ok r) :
    ∃ way, e.Way allow p l way ∧ c.Realises r way := by
  cases hlook : sites.reverse.lookup l with
  | none =>
    rw [hlook] at hr
    simp only [route] at hr
    split at hr
    · rename_i hallow
      cases hr
      refine ⟨none, .escapes hallow fun hl => ?_, trivial⟩
      rw [← Expr.map_sites, ← (hsites.map Prod.fst).mem_iff] at hl
      exact lookup_reverse_eq_none_iff.1 hlook hl
    · cases hr
  | some site =>
    rw [hlook] at hr
    obtain ⟨q, x, j, hx, hq, hs⟩ := (mem_sites_iff h hsites).1 (mem_of_lookup_reverse hlook)
    cases x with
    | label t fallback =>
      cases List.mem_singleton.1 hs
      obtain ⟨hblock, hbetween, hr⟩ := (h.route_label_eq_ok_iff hc hp hq hx).1 hr
      exact ⟨_, .arrives hx rfl hblock hbetween, hr⟩
    | loop body b d =>
      rcases List.mem_append.1 hs with hs | hs
      · obtain ⟨t, ht, heq⟩ := List.mem_map.1 hs
        cases heq
        obtain rfl := Option.mem_toList.1 ht
        obtain ⟨haround, hr⟩ := (h.route_loop_eq_ok_iff hc hp hq).1.1 hr
        exact ⟨_, .ends haround hx rfl, hr⟩
      · obtain ⟨t, ht, heq⟩ := List.mem_map.1 hs
        cases heq
        obtain rfl := Option.mem_toList.1 ht
        obtain ⟨haround, hr⟩ := (h.route_loop_eq_ok_iff hc hp hq).2.1 hr
        exact ⟨_, .restarts haround hx rfl, hr⟩
    | _ => cases hs

/-- Where labels are unique, a way to a label is found. -/
theorem exists_route (hlabels : e.definedLabels.Nodup) {p : List Nat}
    {way : Option (List Nat × List Nat × RouteKind)} (hp : c.follow Code.root p = some i)
    (hway : e.Way allow p l way) :
    ∃ r, route c.nodes allow i l (sites.reverse.lookup l) = .ok r := by
  have hnodup : (sites.map Prod.fst).Nodup := by
    rw [(hsites.map Prod.fst).nodup_iff, Expr.map_sites]
    exact hlabels
  -- labels are unique, so the site that is found is the one of the label
  have hlook {q : List Nat} {x : Expr} {j : Nat} (site : Site) (hx : e.at? q = some x)
      (hj : c.follow Code.root q = some j) (hs : (l, site) ∈ x.ownSites j) :
      sites.reverse.lookup l = some site :=
    lookup_reverse_of_mem hnodup ((mem_sites_iff h hsites).2 ⟨q, x, j, hx, hj, hs⟩)
  cases hway with
  | ends haround hloop htarget =>
    obtain ⟨j, hj⟩ := h.exists_follow hloop
    rw [hlook (.loopEnd j) hloop hj (by simp [Expr.ownSites, loopSites, htarget])]
    exact ⟨_, (h.route_loop_eq_ok_iff hc hp hj).1.2
      ⟨haround, (Code.realises_iff hj (List.append_nil _)).2 rfl⟩⟩
  | restarts haround hloop htarget =>
    obtain ⟨j, hj⟩ := h.exists_follow hloop
    rw [hlook (.loopStart j) hloop hj (by simp [Expr.ownSites, loopSites, htarget])]
    exact ⟨_, (h.route_loop_eq_ok_iff hc hp hj).2.2
      ⟨haround, (Code.realises_iff hj (List.append_nil _)).2 rfl⟩⟩
  | arrives hlabel htarget hblock hbetween =>
    obtain ⟨j, hj⟩ := h.exists_follow hlabel
    obtain ⟨_, _, hat⟩ := hblock
    obtain ⟨a, ha⟩ := h.exists_follow hat
    rw [hlook (.label j) hlabel hj (by simp [Expr.ownSites, htarget])]
    obtain ⟨-, path, -, hpath, -⟩ := exists_commonPath p _
    exact ⟨_, (h.route_label_eq_ok_iff hc hp hj hlabel).2
      ⟨⟨_, _, hat⟩, hbetween, (Code.realises_iff ha hpath.symm).2 rfl⟩⟩
  | escapes hallow hundefined =>
    have hnone : sites.reverse.lookup l = none := by
      rw [← Expr.map_sites, ← (hsites.map Prod.fst).mem_iff] at hundefined
      exact lookup_reverse_eq_none_iff.2 hundefined
    rw [hnone]
    exact ⟨.escape, if_pos hallow⟩

end

end Coroutine
