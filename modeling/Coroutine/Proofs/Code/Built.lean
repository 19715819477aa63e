import Mathlib
import Coroutine.Proofs.Code.Routes
import Coroutine.Proofs.Tree.Checked

/-!
# Built code

Building code reduces the expression and routes its jumps one after the other. Routing a jump changes
nothing but its route, so the routes can be looked at as if all were found in the code as it was
before (`Code.Routed`). Built code has the nodes of its expression (`Code.Renders`), its jumps take
the ways that `Expr.Way` allows, and it is sound in every setting that the expression fits.
-/

namespace Coroutine

variable {resolve : Expr.Resolver} {allow : Bool} {kind : JumpKind} {c d : Code} {e : Expr}

/-! ## Code alike -/

namespace Code.Alike

/-- Alike codes have the same slots. -/
theorem slot (h : c.Alike d) (id : Nat) : (c.node id).slot = (d.node id).slot := by
  simpa using congrArg Node.slot (h id)

/-- Paths lead to the same nodes in alike codes. -/
theorem follow_eq (h : c.Alike d) (id : Nat) (path : List Nat) :
    c.follow id path = d.follow id path := by
  induction path generalizing id with
  | nil => rfl
  | cons k path ih => simp only [Code.follow, h.children, ih]

/-- The way up from a node is the same in alike codes. -/
theorem lineage_eq (h : c.Alike d) (id : Nat) : lineage c.nodes id = lineage d.nodes id := by
  have hancestors (fuel : Nat) : ∀ id, ancestors c.nodes fuel id = ancestors d.nodes fuel id := by
    induction fuel with
    | zero => exact fun _ => rfl
    | succ fuel ih => exact fun id => by simp only [ancestors_succ, h.parent, ih]
  exact hancestors (id + 1) id

/-- Jumps may pass the same nodes in alike codes. -/
theorem passable_eq (h : c.Alike d) (text : String) (id : Nat) :
    passable c.nodes text id = passable d.nodes text id := by
  rw [passable_node, passable_node]
  rcases Node.op_eq_of_withRoute (h id) with hop | ⟨l, v, q, r, hc, hd⟩
  · rw [hop]
  · rw [hc, hd]

/-- A route is found in code whatever the routes of other jumps are. -/
theorem route_eq (h : c.Alike d) (allow : Bool) (jump label : Nat) (site : Option Site) :
    route c.nodes allow jump label site = route d.nodes allow jump label site := by
  have hslot : slotOf c.nodes = slotOf d.nodes := funext h.slot
  have hlineage : lineage c.nodes = lineage d.nodes := funext h.lineage_eq
  have hpassable : passable c.nodes = passable d.nodes := funext₂ h.passable_eq
  unfold route
  rw [hslot, hlineage, hpassable]

/-- Alike codes realise the same routes. -/
theorem realises (h : c.Alike d) {r : Route} {way : Option (List Nat × List Nat × RouteKind)}
    (hr : c.Realises r way) : d.Realises r way := by
  cases r <;> cases way <;> first | exact hr | exact ⟨h.follow_eq .. ▸ hr.1, hr.2⟩

/-- Alike codes mirror the same expressions. -/
theorem mirrors (h : c.Alike d) {resolve : Expr.Resolver} {parent : Option Nat} {slot id : Nat}
    {e : Expr} (hm : c.Mirrors resolve parent slot id e) : d.Mirrors resolve parent slot id e := by
  induction hm with
  | node does node _ ih => exact .node does ((h _).symm.trans node) ih

end Code.Alike

/-! ## Routing -/

/-- Routing a jump sets the route of its node and leaves all others. -/
theorem node_modify_withRoute (nodes : Array Node) (escapes : List Nat) (jump id : Nat)
    (r : Route) :
    (⟨nodes.modify jump (Node.withRoute r), escapes⟩ : Code).node id =
      if jump = id then ((⟨nodes, escapes⟩ : Code).node id).withRoute r
      else (⟨nodes, escapes⟩ : Code).node id := by
  simp only [Code.node, Array.getD_eq_getD_getElem?, Array.getElem?_modify]
  split
  · cases nodes[id]? <;> rfl
  · rfl

/-- Setting a route changes nothing else. -/
theorem alike_modify_withRoute (c : Code) (escapes : List Nat) (jump : Nat) (r : Route) :
    c.Alike ⟨c.nodes.modify jump (Node.withRoute r), escapes⟩ := by
  intro id
  rw [node_modify_withRoute]
  split
  · rw [Node.withRoute_withRoute]
    rfl
  · rfl

/-- The route of a jump, in code whose labels have sites. -/
def Code.find (c : Code) (allow : Bool) (sites : List (Nat × Site)) (j : Nat × Nat) :
    Except BuildError Route :=
  route c.nodes allow j.1 j.2 (sites.reverse.lookup j.2)

/-- What routing jumps does to code. -/
structure Code.Routed (allow : Bool) (sites : List (Nat × Site)) (jumps : List (Nat × Nat))
    (c d : Code) : Prop where
  alike : c.Alike d
  /-- A node is left alone if no jump is on record for it, and else has the route of one. -/
  node : ∀ id, ((∀ j ∈ jumps, j.1 ≠ id) ∧ d.node id = c.node id) ∨
    ∃ j ∈ jumps, j.1 = id ∧ ∃ r, c.find allow sites j = .ok r ∧ d.node id = (c.node id).withRoute r
  nodup : c.escapes.Nodup → d.escapes.Nodup
  escapes : ∀ l, l ∈ d.escapes ↔
    l ∈ c.escapes ∨ ∃ j ∈ jumps, j.2 = l ∧ c.find allow sites j = .ok .escape

section

variable {sites : List (Nat × Site)} {jumps : List (Nat × Nat)}

/-- All jumps get their routes, one after the other. -/
theorem routed_of_routeJumps (h : routeJumps allow sites jumps c = .ok d) :
    c.Routed allow sites jumps d := by
  induction jumps generalizing c with
  | nil =>
    cases h
    exact ⟨fun _ => rfl, fun id => .inl ⟨nofun, rfl⟩, id, fun l => by simp⟩
  | cons j jumps ih =>
    obtain ⟨r, hr, h⟩ := bind_eq_ok.1 h
    replace hr : c.find allow sites j = .ok r := hr
    generalize hescapes : (if r = .escape && !c.escapes.contains j.2 then c.escapes ++ [j.2]
      else c.escapes) = escapes at h
    have hmem (l : Nat) : l ∈ escapes ↔ l ∈ c.escapes ∨ j.2 = l ∧ r = .escape := by
      grind
    have halike := alike_modify_withRoute c escapes j.1 r
    have hnode := node_modify_withRoute c.nodes escapes j.1 (r := r)
    have hfind (k : Nat × Nat) : Code.find ⟨c.nodes.modify j.1 (Node.withRoute r), escapes⟩ allow
        sites k = c.find allow sites k := (halike.route_eq ..).symm
    have hrest := ih h
    refine ⟨fun id => (halike id).trans (hrest.alike id), fun id => ?_, fun hc => hrest.nodup ?_,
      fun l => ?_⟩
    · rcases hrest.node id with ⟨hne, hd⟩ | ⟨k, hk, hid, q, hq, hd⟩
      · by_cases hj : j.1 = id
        · exact .inr ⟨j, List.mem_cons_self, hj, r, hr, (hd.trans (hnode id)).trans (if_pos hj)⟩
        · exact .inl ⟨List.forall_mem_cons.2 ⟨hj, hne⟩, (hd.trans (hnode id)).trans (if_neg hj)⟩
      · refine .inr ⟨k, List.mem_cons_of_mem j hk, hid, q, hfind k ▸ hq, hd.trans ?_⟩
        rw [hnode]
        split
        · exact Node.withRoute_withRoute ..
        · rfl
    · grind
    · rw [hrest.escapes, hmem, or_assoc, List.exists_mem_cons_iff]
      simp only [hfind, hr, Except.ok.injEq]

/-- If every jump has a route, all jumps can be routed. -/
theorem exists_routeJumps (h : ∀ j ∈ jumps, ∃ r, c.find allow sites j = .ok r) :
    ∃ d, routeJumps allow sites jumps c = .ok d := by
  induction jumps generalizing c with
  | nil => exact ⟨c, rfl⟩
  | cons j jumps ih =>
    obtain ⟨⟨r, hr⟩, hrest⟩ := List.forall_mem_cons.1 h
    have halike := fun escapes => alike_modify_withRoute c escapes j.1 r
    obtain ⟨d, hd⟩ := ih fun k hk => (hrest k hk).imp fun r hr =>
      ((halike _).route_eq ..).symm.trans hr
    exact ⟨d, bind_eq_ok.2 ⟨r, hr, hd⟩⟩

end

/-- Where every label has a definition, it makes no difference whether jumps may escape. -/
theorem routeJumps_eq {sites : List (Nat × Site)} {jumps : List (Nat × Nat)} {c : Code}
    (h : ∀ j ∈ jumps, j.2 ∈ sites.map Prod.fst) :
    routeJumps true sites jumps c = routeJumps false sites jumps c := by
  induction jumps generalizing c with
  | nil => rfl
  | cons j jumps ih =>
    obtain ⟨hj, hrest⟩ := List.forall_mem_cons.1 h
    have hroute : route c.nodes true j.1 j.2 (sites.reverse.lookup j.2) =
        route c.nodes false j.1 j.2 (sites.reverse.lookup j.2) := by
      rcases hsite : sites.reverse.lookup j.2 with _ | _ | _ | _
      · exact absurd hj (lookup_reverse_eq_none_iff.1 hsite)
      all_goals rfl
    simp only [routeJumps, hroute, ih hrest]

/-! ## The code of an expression -/

/-- Code has the nodes of an expression and no others. -/
structure Code.Renders (resolve : Expr.Resolver) (c : Code) (e : Expr) : Prop where
  mirrors : c.Mirrors resolve none 0 root e
  reach : ∀ id, (∃ path, c.follow root path = some id) ∨ c.node id = default

namespace Code.Renders

/-- Code that is alike renders the same expression. -/
theorem alike (h : c.Renders resolve e) (halike : c.Alike d) : d.Renders resolve e := by
  refine ⟨halike.mirrors h.mirrors, fun id => ?_⟩
  rcases h.reach id with ⟨path, hpath⟩ | hid
  · exact .inl ⟨path, halike.follow_eq root path ▸ hpath⟩
  · have hnode := hid ▸ halike id
    generalize d.node id = n at hnode
    obtain ⟨parent, slot, children, op⟩ := n
    cases op <;> first | exact .inr hnode.symm | cases hnode

/-- Children hang below their parents. -/
theorem under (h : c.Renders resolve e) {id slot child : Nat}
    (hchild : (c.node id).children[slot]? = some child) : c.Under child id := by
  rcases h.reach id with ⟨path, hpath⟩ | hid
  · obtain ⟨x, parent, slot, -, hm⟩ := h.mirrors.of_follow hpath
    obtain ⟨y, -, hy⟩ := hm.child hchild
    exact hy.parent_eq
  · rw [hid] at hchild
    cases hchild

/-- Parents come first. -/
theorem first (h : c.Renders resolve e) (id p : Nat) (hp : c.Under id p) : p < id := by
  rcases h.reach id with ⟨path, hpath⟩ | hid
  · rcases List.eq_nil_or_concat' path with rfl | ⟨path, k, rfl⟩
    · cases hpath
      cases h.mirrors.parent_eq.symm.trans hp
    · obtain ⟨m, hm, hk⟩ := Option.bind_eq_some_iff.1 ((follow_append c root path [k]).symm.trans hpath)
      obtain ⟨r, hr, hid⟩ := Option.bind_eq_some_iff.1 hk
      cases hid
      obtain ⟨x, parent, slot, -, hmx⟩ := h.mirrors.of_follow hm
      cases (h.under hr).symm.trans hp
      rw [hmx.children_eq] at hr
      exact Expr.le_of_mem_indices (List.mem_of_getElem? hr)
  · rw [Under, hid] at hp
    cases hp

end Code.Renders

/-- The nodes of an expression make code. -/
theorem Fragment.Renders.code {resolve : Expr.Resolver} {f : Fragment} {e : Expr}
    (h : f.Renders resolve ⟨0, none, 0⟩ [e]) : Code.Renders resolve ⟨f.nodes.toArray, []⟩ e := by
  have hnode (id : Nat) : Code.node ⟨f.nodes.toArray, []⟩ id = f.nodes[id]?.getD default := by
    rw [Code.node, Array.getD_eq_getD_getElem?, List.getElem?_toArray]
  have hmirrors : Code.Mirrors resolve ⟨f.nodes.toArray, []⟩ none 0 Code.root e := by
    refine h.mirrors _ (fun k n hk => ?_) 0 e Code.root rfl (by rw [h.roots]; rfl)
    rw [Nat.zero_add, hnode, hk]
    rfl
  refine ⟨hmirrors, fun id => ?_⟩
  rcases Nat.lt_or_ge id f.nodes.length with hid | hid
  · have hlt : id < ([e].flatMap Expr.preorder).length := h.size ▸ hid
    have hmem : (([e].flatMap Expr.preorder)[id], id) ∈ Expr.located Code.root [e] :=
      List.mk_mem_zipIdx_iff_getElem?.2 (List.getElem?_eq_getElem hlt)
    obtain ⟨path, -, hpath⟩ := hmirrors.mem_located_iff.1 hmem
    exact .inl ⟨path, hpath⟩
  · right
    rw [hnode, List.getElem?_eq_none hid]
    rfl

/-! ## Jumps -/

/-- The nodes of an expression are where paths lead. -/
theorem Expr.mem_preorder_iff {e x : Expr} : x ∈ e.preorder ↔ ∃ p, e.at? p = some x := by
  induction e using children_induction with
  | step e ih =>
    rw [preorder, nodes_eq, List.mem_cons, List.mem_flatMap]
    constructor
    · rintro (rfl | ⟨y, hy, hx⟩)
      · exact ⟨[], rfl⟩
      · obtain ⟨p, hp⟩ := (ih y hy).1 hx
        obtain ⟨k, hk⟩ := List.mem_iff_getElem?.1 hy
        exact ⟨k :: p, Option.bind_eq_some_iff.2 ⟨y, hk, hp⟩⟩
    · rintro ⟨_ | ⟨k, p⟩, hp⟩
      · exact .inl (Option.some.inj hp).symm
      · obtain ⟨y, hy, hp⟩ := Option.bind_eq_some_iff.1 hp
        have hmem := List.mem_of_getElem? hy
        exact .inr ⟨y, hmem, (ih y hmem).2 ⟨p, hp⟩⟩

/-- A way inside the expression leads to a label that it defines. -/
theorem Expr.Way.mem_definedLabels {e : Expr} {allow : Bool} {p : List Nat} {l : Nat}
    {way : List Nat × List Nat × RouteKind} (h : e.Way allow p l (some way)) :
    l ∈ e.definedLabels := by
  cases h with
  | ends _ hx htarget | restarts _ hx htarget | arrives hx htarget =>
    exact List.mem_flatMap.2 ⟨_, mem_preorder_iff.2 ⟨_, hx⟩, by simp [ownLabels, htarget]⟩

/-- The jumps belong to the nodes along the paths of the tree. -/
theorem mem_jumps_iff {resolve : Expr.Resolver} {c : Code} {e : Expr} {jumps : List (Nat × Nat)}
    (h : c.Mirrors resolve none 0 Code.root e)
    (hjumps : jumps.Perm ((Expr.located Code.root [e]).filterMap fun x => x.1.ownJump? x.2))
    {j : Nat × Nat} : j ∈ jumps ↔ ∃ p kind t v, e.at? p = some (.goto kind t v) ∧
      c.follow Code.root p = some j.1 ∧ t.id = j.2 := by
  simp only [hjumps.mem_iff, List.mem_filterMap, Prod.exists, h.mem_located_iff]
  constructor
  · rintro ⟨x, i, ⟨p, hx, hi⟩, hj⟩
    cases x with
    | goto kind t v =>
      cases hj
      exact ⟨p, kind, t, v, hx, hi, rfl⟩
    | _ => cases hj
  · rintro ⟨p, kind, t, v, hx, hi, ht⟩
    exact ⟨_, j.1, ⟨p, hx, hi⟩, congrArg some (Prod.ext rfl ht)⟩

namespace Code

variable {code : Code}

/-- Every jump of the expression has been given the route found for it. -/
theorem Routed.goto {c : Code} {f : Fragment} (h : c.Routed allow f.sites f.jumps code)
    (hc : c.Renders resolve e) (hf : f.Renders resolve ⟨0, none, 0⟩ [e]) {p : List Nat}
    {t : Label} {v : Option Expr} (hp : e.at? p = some (.goto kind t v)) :
    ∃ i r, c.follow root p = some i ∧ c.find allow f.sites (i, t.id) = .ok r ∧
      (code.node i).op = .goto t.id v.isSome r := by
  have hjumps {j : Nat × Nat} := mem_jumps_iff hc.mirrors hf.jumps (j := j)
  obtain ⟨i, hi⟩ := hc.mirrors.exists_follow hp
  rcases h.node i with ⟨hnone, -⟩ | ⟨⟨_, l⟩, hj, rfl, r, hr, hnode⟩
  · exact absurd rfl (hnone (i, t.id) (hjumps.2 ⟨p, kind, t, v, hp, hi, rfl⟩))
  · obtain ⟨q, kind', t', v', hq, hqi, rfl⟩ := hjumps.1 hj
    cases hc.mirrors.follow_injective hc.first hqi hi
    cases hq.symm.trans hp
    obtain ⟨x, parent, slot, hx, hm⟩ := hc.mirrors.of_follow hi
    cases hx.symm.trans hp
    obtain ⟨q, hq⟩ := hm.does
    exact ⟨_, r, hi, hr, hnode ▸ Node.op_withRoute_goto r hq⟩

/-- Building code routes the jumps of code that has the nodes of the expression. -/
theorem build_eq_ok (h : build resolve allow e = .ok code) : ∃ (c : Code) (f : Fragment),
    f.Renders resolve ⟨0, none, 0⟩ [e] ∧ c.Renders resolve e ∧ c.escapes = [] ∧
      c.Routed allow f.sites f.jumps code := by
  obtain ⟨f, hf, hcode⟩ := bind_eq_ok.1 h
  rw [← Expr.reduceList_singleton] at hf
  have hrenders := Expr.renders_of_reduceList hf
  exact ⟨_, f, hrenders, hrenders.code, rfl, routed_of_routeJumps hcode⟩

/-- Code that is built renders its expression. -/
theorem build_renders (h : build resolve allow e = .ok code) : code.Renders resolve e := by
  obtain ⟨c, f, -, hc, -, hrouted⟩ := build_eq_ok h
  exact hc.alike hrouted.alike

/-- Every jump has a route that is a way to its label. -/
theorem build_goto (h : build resolve allow e = .ok code) {p : List Nat} {t : Label}
    {v : Option Expr} (hp : e.at? p = some (.goto kind t v)) :
    ∃ i r way, code.follow root p = some i ∧ (code.node i).op = .goto t.id v.isSome r ∧
      e.Way allow p t.id way ∧ code.Realises r way := by
  obtain ⟨c, f, hf, hc, -, hrouted⟩ := build_eq_ok h
  obtain ⟨i, r, hi, hr, hop⟩ := hrouted.goto hc hf hp
  obtain ⟨way, hway, hrealises⟩ := exists_way hc.mirrors hc.first hf.sites hi hr
  exact ⟨i, r, way, hrouted.alike.follow_eq root p ▸ hi, hop, hway,
    hrouted.alike.realises hrealises⟩

/-- Code lists every label that a jump escapes to once. -/
theorem nodup_escapes_build (h : build resolve allow e = .ok code) : code.escapes.Nodup := by
  obtain ⟨c, f, -, -, hescapes, hrouted⟩ := build_eq_ok h
  exact hrouted.nodup (hescapes ▸ .nil)

/-- Jumps escape to the labels that the expression does not define. -/
theorem mem_escapes_build_iff (h : build resolve allow e = .ok code) {l : Nat} :
    l ∈ code.escapes ↔ l ∉ e.definedLabels ∧
      ∃ p kind t v, e.at? p = some (.goto kind t v) ∧ t.id = l := by
  obtain ⟨c, f, hf, hc, hescapes, hrouted⟩ := build_eq_ok h
  rw [hrouted.escapes, hescapes]
  constructor
  · rintro (hl | ⟨j, hj, rfl, hr⟩)
    · cases hl
    obtain ⟨p, kind, t, v, hp, hi, ht⟩ := (mem_jumps_iff hc.mirrors hf.jumps).1 hj
    refine ⟨?_, p, kind, t, v, hp, ht⟩
    obtain ⟨_ | way, hway, hrealises⟩ := exists_way hc.mirrors hc.first hf.sites hi hr
    · cases hway with
      | escapes _ hundefined => exact hundefined
    · cases hrealises
  · rintro ⟨hl, p, kind, t, v, hp, rfl⟩
    obtain ⟨i, r, hi, hr, -⟩ := hrouted.goto hc hf hp
    obtain ⟨_ | way, hway, hrealises⟩ := exists_way hc.mirrors hc.first hf.sites hi hr
    · cases r with
      | escape =>
        exact .inr ⟨(i, t.id), (mem_jumps_iff hc.mirrors hf.jumps).2 ⟨p, kind, t, v, hp, hi, rfl⟩,
          rfl, hr⟩
      | within => cases hrealises
    · exact absurd hway.mem_definedLabels hl

/-- Code that no jump may leave has no escapes. -/
theorem escapes_build (h : build resolve false e = .ok code) : code.escapes = [] := by
  refine List.eq_nil_iff_forall_not_mem.2 fun l hl => ?_
  obtain ⟨hl, p, kind, t, v, hp, rfl⟩ := (mem_escapes_build_iff h).1 hl
  obtain ⟨i, r, _ | way, -, -, hway, -⟩ := build_goto h hp
  · cases hway with
    | escapes hallow => cases hallow
  · exact hl hway.mem_definedLabels

/-- Where every jump finds its label, it makes no difference whether one may escape. -/
theorem build_of_closed (h : e.Closed) : build resolve true e = build resolve false e := by
  unfold build
  cases hf : e.reduce resolve ⟨0, none, 0⟩ with
  | error err => rfl
  | ok f =>
    rw [← Expr.reduceList_singleton] at hf
    have hrenders := Expr.renders_of_reduceList hf
    refine routeJumps_eq fun j hj => ?_
    obtain ⟨p, kind, t, v, hp, -, ht⟩ := (mem_jumps_iff hrenders.code.mirrors hrenders.jumps).1 hj
    rw [(hrenders.sites.map Prod.fst).mem_iff, Expr.map_sites, ← ht]
    exact h t (List.mem_filterMap.2 ⟨_, Expr.mem_preorder_iff.2 ⟨p, hp⟩, rfl⟩)

end Code

/-! ## Slots -/

/-- A handler's slot is that of its body. -/
theorem mem_handlerSlots {slot : Nat} {hs : List Handler} {h : HandlerSlots}
    (hmem : h ∈ handlerSlots slot hs) :
    ∃ k x, hs[k]? = some x ∧ h.body = slot + k ∧ x.var = h.var := by
  induction hs generalizing slot with
  | nil => cases hmem
  | cons x xs ih =>
    obtain ⟨filter, y, body⟩ := x
    rcases List.mem_cons.1 hmem with rfl | hmem
    · exact ⟨0, _, rfl, rfl, rfl⟩
    · obtain ⟨k, x, hx, hbody, hvar⟩ := ih hmem
      exact ⟨k + 1, x, hx, by omega, hvar⟩

/-- The slots of an arm lie among those of the arms. -/
theorem caseSlots_lt {slot : Nat} {cs : List SwitchCase} {arm : CaseSlots}
    (hmem : arm ∈ caseSlots slot cs) :
    (∀ k ∈ arm.tests, k < slot + caseWidth cs) ∧ arm.body < slot + caseWidth cs := by
  induction cs generalizing slot with
  | nil => cases hmem
  | cons x xs ih =>
    obtain ⟨tests, body⟩ := x
    have hwidth : caseWidth (⟨tests, body⟩ :: xs) = tests.length + 1 + caseWidth xs := rfl
    rcases List.mem_cons.1 hmem with rfl | hmem
    · refine ⟨fun k hk => ?_, by simp only; omega⟩
      have hk := (List.mem_range'_1.1 hk).2
      omega
    · obtain ⟨htests, hbody⟩ := ih hmem
      exact ⟨fun k hk => by have := htests k hk; omega, by omega⟩

/-- The arms of a switch have as many slots as expressions. -/
theorem length_flatMap_children (cs : List SwitchCase) :
    (cs.flatMap SwitchCase.children).length = caseWidth cs := by
  induction cs with
  | nil => rfl
  | cons c cs ih =>
    rw [List.flatMap_cons, List.length_append, ih]
    simp [SwitchCase.children, caseWidth]

/-! ## Soundness -/

namespace Expr

variable {s : Setting} {op : Op}

/-- The node of an expression finds what the expression does. -/
theorem FitsAt.suits (h : e.FitsAt s) (hop : e.Does resolve op) :
    op.Suits s e.children.length := by
  cases e with
  | switch value cases fallback =>
    cases hop
    -- the value comes first, then the cases with their tests, then the fallback
    have hwidth : (switch value cases fallback).children.length =
        1 + caseWidth cases + fallback.toList.length := by
      rw [children, List.length_cons, List.length_append, length_flatMap_children]
      omega
    rw [hwidth]
    refine ⟨by omega, fun arm harm => ?_, fun k hk => ?_⟩
    · obtain ⟨htests, hbody⟩ := caseSlots_lt harm
      exact ⟨fun k hk => (htests k hk).trans_le (Nat.le_add_right _ _),
        hbody.trans_le (Nat.le_add_right _ _)⟩
    · obtain ⟨x, rfl, rfl⟩ := Option.map_eq_some_iff.1 hk
      exact Nat.lt_add_one _
  | tryCatch body handlers cleanup =>
    cases hop
    have hwidth : (tryCatch body handlers cleanup).children.length =
        1 + handlers.length + cleanup.toList.length := by
      simp [children]
      omega
    rw [hwidth]
    refine ⟨by omega, fun c hc => ?_, fun k hk => ?_⟩
    · obtain ⟨k, x, hx, hbody, -⟩ := mem_handlerSlots hc
      have hk := (List.getElem?_eq_some_iff.1 hx).1
      omega
    · obtain ⟨x, rfl, rfl⟩ := Option.map_eq_some_iff.1 hk
      exact Nat.lt_add_one _
  | lambda l =>
    obtain ⟨_, -, hop⟩ := bind_eq_ok.1 hop
    cases hop
    trivial
  | await a type configure =>
    obtain ⟨_, -, hop⟩ := bind_eq_ok.1 hop
    cases hop
    exact ⟨Nat.one_pos, h⟩
  | throw value => cases value <;> cases hop <;> first | exact h rfl | trivial
  | assign x value =>
    cases hop
    exact h.1
  | condition test ifTrue ifFalse => cases ifFalse <;> cases hop <;> rfl
  | yieldReturn value =>
    cases hop
    exact ⟨Nat.one_pos, h⟩
  | loop body b c =>
    cases hop
    exact Nat.one_pos
  | goto kind t v =>
    obtain ⟨r, rfl⟩ := hop
    trivial
  | _ =>
    cases hop
    first | exact h | trivial

/-- A node gives its children the settings that the expression gives its parts. -/
theorem Does.exists_part (hop : e.Does resolve op) {k : Nat} {s' : Setting} {x : Expr}
    (hg : op.Gives s k s') (hx : e.children[k]? = some x) :
    ∃ l, (l, x) ∈ e.parts ∧ s' = s.through l := by
  have hmem := List.mem_of_getElem? hx
  cases e with
  | lambda l => cases hmem
  | block vars body =>
    cases hop
    exact ⟨.scope vars, List.mem_map_of_mem hmem, hg⟩
  | tryCatch body handlers cleanup =>
    cases hop
    -- a part is the body or the cleanup, or it belongs to a handler
    rcases hg with ⟨rfl, rfl | hk⟩ | ⟨c, hc, rfl, rfl⟩
    · cases hx
      exact ⟨.plain, by simp [parts], rfl⟩
    · obtain ⟨y, rfl, rfl⟩ := Option.map_eq_some_iff.1 hk
      obtain rfl : y = x := by simpa [children, Nat.add_comm 1] using hx
      exact ⟨.plain, by simp [parts], rfl⟩
    · obtain ⟨k, y, hy, hbody, hvar⟩ := mem_handlerSlots hc
      have hlt := (List.getElem?_eq_some_iff.1 hy).1
      rw [hbody, Nat.add_comm, children, List.getElem?_cons_succ,
        List.getElem?_append_left (by simpa using hlt), List.getElem?_map, hy] at hx
      cases hx
      exact ⟨.handler y.var, List.mem_append_left _ (List.mem_cons_of_mem _
        (List.mem_map_of_mem (List.mem_of_getElem? hy))), congrArg s.catching hvar.symm⟩
  | await a type configure =>
    obtain ⟨_, -, hop⟩ := bind_eq_ok.1 hop
    cases hop
    exact ⟨.plain, List.mem_map_of_mem hmem, hg⟩
  | throw value => cases value <;> cases hop <;> exact ⟨.plain, List.mem_map_of_mem hmem, hg⟩
  | goto kind t v =>
    obtain ⟨r, rfl⟩ := hop
    exact ⟨.plain, List.mem_map_of_mem hmem, hg⟩
  | _ =>
    cases hop
    exact ⟨.plain, List.mem_map_of_mem hmem, hg⟩

end Expr

namespace Code.Mirrors

variable {parent : Option Nat} {slot id : Nat}

/-- What is below a node hangs below it. -/
theorem above (h : c.Mirrors resolve parent slot id e) {path : List Nat} {i : Nat}
    (hi : c.follow id path = some i) (hne : path ≠ []) : Relation.TransGen c.Under i id := by
  induction path generalizing parent slot id e with
  | nil => exact absurd rfl hne
  | cons k path ih =>
    obtain ⟨r, hr, hi⟩ := Option.bind_eq_some_iff.1 hi
    obtain ⟨x, -, hx⟩ := h.child hr
    have hunder : c.Under r id := hx.parent_eq
    cases path with
    | nil =>
      cases hi
      exact .single hunder
    | cons k' path => exact (ih hx hi nofun).tail hunder

end Code.Mirrors

/-- A path leads down through blocks if its beginnings lead to blocks. -/
theorem Code.leads_of_follow {c : Code} {id i : Nat} {path : List Nat}
    (hi : c.follow id path = some i) (hne : path ≠ [])
    (hblock : ∀ q x, q <+: path → q ≠ path → c.follow id q = some x →
      (c.node x).op.isBlock = true) : c.Leads id path i := by
  induction path generalizing id with
  | nil => exact absurd rfl hne
  | cons k path ih =>
    obtain ⟨r, hr, hi⟩ := Option.bind_eq_some_iff.1 hi
    have hfirst := hblock [] id List.nil_prefix nofun rfl
    cases path with
    | nil =>
      cases hi
      exact .last hfirst hr
    | cons k' path =>
      refine .down hfirst hr (ih hi nofun fun q x hq hne hx => ?_)
      exact hblock (k :: q) x (List.cons_prefix_cons.2 ⟨rfl, hq⟩) (fun heq => hne (List.cons.inj heq).2)
        (Option.bind_eq_some_iff.2 ⟨r, hr, hx⟩)

/-- A route that is a way works. -/
theorem Expr.Way.works {resolve : Resolver} {c : Code} {e : Expr} {allow : Bool} {p : List Nat}
    {l i : Nat} {r : Route} {way : Option (List Nat × List Nat × RouteKind)}
    (h : e.Way allow p l way) (hm : c.Mirrors resolve none 0 Code.root e) (hr : c.Realises r way)
    (hp : c.follow Code.root p = some i) {t : Label} {v : Option Expr}
    (hx : e.at? p = some (.goto kind t v)) {escapes : Nat → Prop} (hesc : way = none → escapes l) :
    r.Works c escapes i l := by
  -- a place around the jump is that of a node above it
  have habove {q : List Nat} {a : Nat} (ha : c.follow Code.root q = some a) (hq : q <+: p)
      {y : Expr} (hy : e.at? q = some y) (hne : ∀ kind t v, y ≠ .goto kind t v) :
      Relation.TransGen c.Under i a ∧ y.op? resolve = .ok (c.node a).op := by
    obtain ⟨u, rfl⟩ := hq
    rw [Code.follow_append, ha, Option.bind_some] at hp
    obtain ⟨z, parent, slot, hz, hma⟩ := hm.of_follow ha
    cases hz.symm.trans hy
    refine ⟨hma.above hp ?_, ?_⟩
    · rintro rfl
      rw [List.append_nil] at hx
      exact hne _ _ _ (Option.some.inj (hz.symm.trans hx))
    · have hop := hma.does
      cases y with
      | goto kind t v => exact absurd rfl (hne kind t v)
      | _ => exact hop
  cases h with
  | ends haround hloop htarget | restarts haround hloop htarget =>
    cases r with
    | escape => cases hr
    | within a path kind =>
      obtain ⟨ha, -, rfl⟩ := hr
      obtain ⟨ha, hop⟩ := habove ha haround hloop nofun
      exact ⟨ha, (Except.ok.inj hop).symm⟩
  | @arrives q t d hlabel htarget hblock hbetween =>
    cases r with
    | escape => cases hr
    | within a path kind =>
      obtain ⟨ha, hq, rfl⟩ := hr
      obtain ⟨j, hj⟩ := hm.exists_follow hlabel
      obtain ⟨s, -, hs, -, -⟩ := exists_commonPath p q
      obtain ⟨vars, body, hat⟩ := hblock
      refine ⟨(habove ha ⟨s, hs.symm⟩ hat nofun).1, j, ?_, ?_⟩
      · rw [← hq, Code.follow_append, ha, Option.bind_some] at hj
        refine Code.leads_of_follow hj ?_ fun u x hu hne hx => ?_
        · rintro rfl
          rw [List.append_nil] at hq
          cases (hq ▸ hat).symm.trans hlabel
        · have hroot : c.follow Code.root (commonPath p q ++ u) = some x := by
            rw [Code.follow_append, ha, Option.bind_some, hx]
          refine (hm.blockAt_iff hroot).1 ?_
          by_cases hnil : u = []
          · rw [hnil, List.append_nil]
            exact ⟨vars, body, hat⟩
          · refine hbetween _ ⟨u, rfl⟩ ?_ (by simpa using hnil) fun heq => hne ?_
            · obtain ⟨w, hw⟩ := hu
              exact ⟨w, by rw [List.append_assoc, hw, hq]⟩
            · exact List.append_cancel_left (heq.trans hq.symm)
      · obtain ⟨z, parent, slot, hz, hmj⟩ := hm.of_follow hj
        cases hz.symm.trans hlabel
        exact (Except.ok.inj hmj.does).symm.trans (congrArg Op.label htarget)
  | escapes hallow hundefined =>
    cases r with
    | escape => exact hesc rfl
    | within => cases hr

/-- A template is that of an inner lambda. -/
theorem Expr.Does.lambda {resolve : Resolver} {e : Expr} {t : Template}
    (h : e.Does resolve (.lambda t)) : ∃ l, e = .lambda l ∧ t.params = l.params ∧
      Code.build resolve false l.body = .ok t.code := by
  cases e with
  | lambda l =>
    obtain ⟨code, hcode, h⟩ := bind_eq_ok.1 h
    cases h
    exact ⟨l, rfl, rfl, hcode⟩
  | await a type configure =>
    obtain ⟨_, -, h⟩ := bind_eq_ok.1 h
    cases h
  | throw value => cases value <;> cases h
  | goto kind t v => cases h.choose_spec
  | _ => cases h

/-- A jump between nodes is a jump of the tree. -/
theorem Expr.Does.goto {resolve : Resolver} {e : Expr} {l : Nat} {v : Bool} {r : Route}
    (h : e.Does resolve (.goto l v r)) : ∃ kind t value, e = .goto kind t value ∧ t.id = l := by
  cases e with
  | goto kind t value =>
    obtain ⟨q, h⟩ := h
    cases h
    exact ⟨kind, t, value, rfl, rfl⟩
  | lambda l | await a type configure =>
    obtain ⟨_, -, h⟩ := bind_eq_ok.1 h
    cases h
  | throw value => cases value <;> cases h
  | _ => cases h

/-- The nodes of an expression that fits a setting are suited to it, and its code is sound there. -/
theorem Expr.Fits.sound {resolve : Resolver} {e : Expr} {s : Setting} (he : e.Fits s) :
    (∀ c parent slot id, Code.Mirrors resolve c parent slot id e → c.Suited id s) ∧
      ∀ allow code, Code.build resolve allow e = .ok code →
        code.Sound (fun l => allow = true ∧ l ∈ code.escapes) s := by
  induction e using parts_induction generalizing s with
  | step e ih =>
    obtain ⟨hnode, hparts⟩ := fits_iff.1 he
    -- nodes first: the parts follow by induction, and a lambda has code of its own
    have hsuited c parent slot id (h : Code.Mirrors resolve c parent slot id e) :
        c.Suited id s := by
      refine .node ?_ (fun k r s' hr hg => ?_) fun t ht => ?_
      · rw [h.children_eq, length_indices]
        exact hnode.suits h.does
      · obtain ⟨x, hx, hm⟩ := h.child hr
        obtain ⟨l, hl, rfl⟩ := h.does.exists_part hg hx
        exact (ih _ hl (hparts _ hl)).1 c _ _ r hm
      · obtain ⟨l, rfl, hparams, hcode⟩ := (ht ▸ h.does).lambda
        have hmem : (Link.body l.params, l.body) ∈ (Expr.lambda l).parts := List.mem_singleton.2 rfl
        rw [hparams]
        exact ((ih _ hmem (hparts _ hmem)).2 false t.code hcode).mono
          fun _ hl => Bool.false_ne_true hl.1
    refine ⟨hsuited, fun allow code h => ?_⟩
    have hrenders := Code.build_renders h
    refine .mk (hsuited code none 0 _ hrenders.mirrors) (fun _ _ _ => hrenders.under) hrenders.first
      fun id label hasValue r hop => ?_
    -- every jump of the code is one of the tree, and has the route that was found for it
    rcases hrenders.reach id with ⟨p, hp⟩ | hid
    · obtain ⟨x, parent, slot, hx, hm⟩ := hrenders.mirrors.of_follow hp
      obtain ⟨kind, t, value, rfl, rfl⟩ := (hop ▸ hm.does).goto
      obtain ⟨i, q, way, hi, hq, hway, hrealises⟩ := Code.build_goto h hx
      cases hi.symm.trans hp
      cases hq.symm.trans hop
      refine hway.works hrenders.mirrors hrealises hp hx fun hnone => ?_
      cases hnone
      cases hway with
      | escapes hallow hundefined =>
        exact ⟨hallow, (Code.mem_escapes_build_iff h).2 ⟨hundefined, p, kind, t, value, hx, rfl⟩⟩
    · rw [hid] at hop
      cases hop

/-- The code of an expression that fits a setting is sound in it. -/
theorem Code.build_sound {resolve : Expr.Resolver} {allow : Bool} {e : Expr} {code : Code}
    {s : Setting} (he : e.Fits s) (h : Code.build resolve allow e = .ok code) :
    code.Sound (fun l => allow = true ∧ l ∈ code.escapes) s :=
  he.sound.2 allow code h

end Coroutine
