import Mathlib
import Coroutine.Proofs.Tree.Checked

/-!
# Well-formed lambdas

What the language asks of a lambda, said without a traversal: variables are declared around their
uses, labels belong to one lambda each, only the outermost lambda suspends, as its kind allows, and
throwing again is done in handlers. `Lambda.check_iff_wellFormed`: the construction checks accept
exactly these lambdas.

The links that lead to a node say all that the checks know of its place.
-/

namespace Coroutine

/-- Links that lead into a handler of the lambda where they end. -/
def Link.Handled (links : List Link) : Prop :=
  ∃ before x after, links = before ++ .handler x :: after ∧ ∀ params, .body params ∉ after

/-- A lambda that the language allows. -/
structure Lambda.WellFormed (l : Lambda) : Prop where
  bound : ∀ o ∈ l.body.occurrences, ∀ x ∈ o.2.references,
    x.id ∈ (l.params ++ o.1.flatMap Link.declared).map Var.id
  labels : ∀ m, m = l ∨ .lambda m ∈ l.body.walk → m.body.definedLabels.Nodup ∧ m.body.Closed
  nested : ∀ m, .lambda m ∈ l.body.walk →
    m.kind = .sync ∧ ∀ x ∈ m.body.preorder, x.isSuspendPoint = false
  awaits : ∀ awaitable type configure,
    .await awaitable type configure ∈ l.body.preorder → l.kind = .async
  yields : ∀ value, .yieldReturn value ∈ l.body.preorder → l.kind = .generator
  ends : .yieldBreak ∈ l.body.preorder → l.kind = .generator
  rethrows : ∀ o ∈ l.body.occurrences, o.2 = .throw none → Link.Handled o.1

/-! ## Links -/

/-- Whether a place is handled is decided by its first link or by the others. -/
theorem Link.handled_cons {l : Link} {links : List Link} : Handled (l :: links) ↔
    (∃ x, l = .handler x ∧ ∀ params, .body params ∉ links) ∨ Handled links := by
  constructor
  · rintro ⟨before, x, after, h, hafter⟩
    cases before with
    | nil =>
      cases h
      exact .inl ⟨x, rfl, hafter⟩
    | cons b before =>
      cases h
      exact .inr ⟨before, x, after, rfl, hafter⟩
  · rintro (⟨x, rfl, hlinks⟩ | ⟨before, x, after, rfl, hafter⟩)
    · exact ⟨[], x, links, rfl, hlinks⟩
    · exact ⟨l :: before, x, after, rfl, hafter⟩

namespace Check.Place

variable {p : Place} {links : List Link}

/-- The kind of the lambda is the same everywhere in it. -/
theorem kind_along : (p.along links).kind = p.kind := by
  induction links generalizing p with
  | nil => rfl
  | cons l links ih => exact ih.trans (by cases l <;> rfl)

/-- A place is nested if one of its links is the body of a lambda. -/
theorem nested_along :
    (p.along links).nested = true ↔ p.nested = true ∨ ∃ params, .body params ∈ links := by
  induction links generalizing p with
  | nil => simp [along]
  | cons l links ih =>
    refine (ih (p := p.through l)).trans ?_
    cases l <;> simp [through, declaring, entering]

/-- What is bound in a place is bound before or by one of its links. -/
theorem bound_along {i : Nat} : (i ∈ (p.along links).own ∨ i ∈ (p.along links).outer) ↔
    (i ∈ p.own ∨ i ∈ p.outer) ∨ i ∈ (links.flatMap Link.declared).map Var.id := by
  induction links generalizing p with
  | nil => simp [along]
  | cons l links ih =>
    refine (ih (p := p.through l)).trans ?_
    rw [List.flatMap_cons, List.map_append, List.mem_append]
    cases l <;> simp only [through, declaring, entering, Link.declared, List.map_nil,
      List.not_mem_nil, List.mem_append] <;> tauto

/-- An exception can be rethrown in a handler, up to the next lambda. -/
theorem handling_along : (p.along links).handling = true ↔
    p.handling = true ∧ (∀ params, .body params ∉ links) ∨ Link.Handled links := by
  induction links generalizing p with
  | nil => simp [along, Link.Handled]
  | cons l links ih =>
    refine (ih (p := p.through l)).trans ?_
    rw [Link.handled_cons]
    cases l with
    | body params => simpa [through, entering] using fun _ h => absurd rfl (h params).1
    | _ => simp [through, declaring] <;> tauto

end Check.Place

namespace Expr

/-- An expression occurs in itself or in one of its parts. -/
theorem mem_occurrences {e : Expr} {o : List Link × Expr} : o ∈ e.occurrences ↔
    o = ([], e) ∨ ∃ p ∈ e.parts, ∃ o' ∈ p.2.occurrences, (p.1 :: o'.1, o'.2) = o := by
  rw [occurrences_eq, List.mem_cons, List.mem_flatMap]
  simp only [List.mem_map]

/-- A node outside of nested lambdas is led to by no link into one. -/
theorem exists_mem_occurrences {x e : Expr} (h : x ∈ e.preorder) :
    ∃ links, (links, x) ∈ e.occurrences ∧ ∀ params, .body params ∉ links := by
  induction e using children_induction with
  | step e ih =>
    rw [preorder, nodes_eq, List.mem_cons, List.mem_flatMap] at h
    obtain rfl | ⟨c, hc, hx⟩ := h
    · exact ⟨[], mem_occurrences.2 (.inl rfl), fun _ => List.not_mem_nil⟩
    · obtain ⟨links, hlinks, hbody⟩ := ih c hc hx
      obtain ⟨l, hl, hne⟩ := exists_mem_parts hc
      refine ⟨l :: links, mem_occurrences.2 (.inr ⟨_, hl, _, hlinks, rfl⟩), fun params hmem => ?_⟩
      exact (List.mem_cons.1 hmem).elim (fun h => hne params h.symm) (hbody params)

/-- A node stands outside of nested lambdas or directly in one of them. -/
theorem mem_preorder_of_mem_occurrences {e : Expr} {o : List Link × Expr} (h : o ∈ e.occurrences) :
    (∀ params, .body params ∉ o.1) ∧ o.2 ∈ e.preorder ∨
      ∃ m, .lambda m ∈ e.walk ∧ o.2 ∈ m.body.preorder := by
  induction e using parts_induction generalizing o with
  | step e ih =>
    obtain rfl | ⟨p, hp, o', ho', rfl⟩ := mem_occurrences.1 h
    · refine .inl ⟨fun _ => List.not_mem_nil, ?_⟩
      rw [preorder, nodes_eq]
      exact List.mem_cons_self
    · obtain ⟨hbody, hpre⟩ | ⟨m, hm, hpre⟩ := ih p hp ho'
      · obtain ⟨m, rfl⟩ | ⟨hparts, hlinks⟩ := e.parts_eq_children
        · obtain rfl := List.mem_singleton.1 hp
          refine .inr ⟨m, ?_, hpre⟩
          rw [walk, walk_eq]
          exact List.mem_cons_self
        · refine .inl ⟨fun params hmem => ?_, ?_⟩
          · exact (List.mem_cons.1 hmem).elim (fun h => hlinks p hp params h.symm) (hbody params)
          · rw [preorder, nodes_eq, ← hparts]
            exact List.mem_cons_of_mem _ (List.mem_flatMap.2 ⟨p.2, List.mem_map_of_mem hp, hpre⟩)
      · refine .inr ⟨m, ?_, hpre⟩
        rw [walk, walk_eq]
        exact List.mem_cons_of_mem _ (List.mem_flatMap.2 ⟨p, hp, hm⟩)

end Expr

/-- The bodies of inner lambdas define and use their own labels. -/
theorem Check.sealed_parts {e : Expr} : (∀ q ∈ e.parts, Sealed q) ↔
    ∀ m, e = .lambda m → m.body.definedLabels.Nodup ∧ m.body.Closed := by
  obtain ⟨m, rfl⟩ | ⟨-, hlinks⟩ := e.parts_eq_children
  · simp [Expr.parts, Sealed]
  · refine iff_of_true (fun q hq => ?_) fun m hm => ?_
    · obtain ⟨l, c⟩ := q
      cases l with
      | body params => exact absurd rfl (hlinks _ hq params)
      | _ => trivial
    · subst hm
      exact absurd rfl (hlinks _ (List.mem_singleton.2 rfl) m.params)

namespace Lambda

variable {l : Lambda}

/-- Every node occurs somewhere. -/
theorem exists_mem_occurrences_of_mem_walk {x : Expr} (h : x ∈ l.body.walk) :
    ∃ links, (links, x) ∈ l.body.occurrences := by
  rw [Expr.walk, ← Expr.map_occurrences, List.mem_map] at h
  obtain ⟨⟨links, _⟩, ho, rfl⟩ := h
  exact ⟨links, ho⟩

/-- An expression does not suspend if none of its nodes is a suspend point. -/
theorem suspends_eq_false_iff {e : Expr} :
    e.suspends = false ↔ ∀ x ∈ e.preorder, x.isSuspendPoint = false := by
  simp [Expr.suspends_eq_any, Expr.preorder]

/-- What passes the checks is well formed. -/
theorem wellFormed_of_passes (h : Check.Passes l.place l.body) (hlabels : l.body.definedLabels.Nodup)
    (hclosed : l.body.Closed) : l.WellFormed := by
  have hsuits : ∀ x ∈ l.body.preorder, x.isSuspendPoint = true → Check.suits l.kind x = true := by
    intro x hx hsuspends
    obtain ⟨links, ho, -⟩ := Expr.exists_mem_occurrences hx
    have hplace := ((h _ ho).1.suspends hsuspends).2
    rwa [Check.Place.kind_along] at hplace
  have hlambda : ∀ m, .lambda m ∈ l.body.walk →
      (m.kind = .sync ∧ m.body.suspends = false) ∧ m.body.definedLabels.Nodup ∧ m.body.Closed := by
    intro m hm
    obtain ⟨links, ho⟩ := exists_mem_occurrences_of_mem_walk hm
    exact ⟨(h _ ho).1.nested m rfl, Check.sealed_parts.1 (h _ ho).2 m rfl⟩
  refine ⟨fun o ho x hx => ?_, ?_, fun m hm => ?_, fun a t c hmem => ?_, fun v hmem => ?_,
    fun hmem => ?_, fun o ho hthrow => ?_⟩
  · have hbound := Check.Place.bound_along.1 ((h o ho).1.bound x hx)
    rw [List.map_append, List.mem_append]
    exact hbound.imp_left fun h => h.elim id nofun
  · rintro m (rfl | hm)
    · exact ⟨hlabels, hclosed⟩
    · exact (hlambda m hm).2
  · exact ⟨(hlambda m hm).1.1, suspends_eq_false_iff.1 (hlambda m hm).1.2⟩
  · exact eq_of_beq (hsuits _ hmem rfl)
  · exact eq_of_beq (hsuits _ hmem rfl)
  · exact eq_of_beq (hsuits _ hmem rfl)
  · exact (Check.Place.handling_along.1 ((h o ho).1.rethrows hthrow)).resolve_left fun h => nomatch h.1

/-- What is well formed passes the checks. -/
theorem WellFormed.passes (h : l.WellFormed) : Check.Passes l.place l.body := by
  intro o ho
  have hwalk : o.2 ∈ l.body.walk := by
    rw [Expr.walk, ← Expr.map_occurrences]
    exact List.mem_map_of_mem ho
  refine ⟨⟨fun x hx => ?_, fun m hm => ?_, fun hsuspends => ?_, fun hthrow => ?_⟩, ?_⟩
  · have hbound := h.bound o ho x hx
    rw [List.map_append, List.mem_append] at hbound
    exact Check.Place.bound_along.2 (hbound.imp_left .inl)
  · obtain ⟨hsync, hplain⟩ := h.nested m (hm ▸ hwalk)
    exact ⟨hsync, suspends_eq_false_iff.2 hplain⟩
  · obtain ⟨hbody, hpre⟩ | ⟨m, hm, hpre⟩ := Expr.mem_preorder_of_mem_occurrences ho
    · rw [Check.Place.kind_along, Bool.eq_false_iff, Ne, Check.Place.nested_along]
      refine ⟨?_, ?_⟩
      · rintro (hnested | ⟨params, hmem⟩)
        · cases hnested
        · exact hbody params hmem
      obtain ⟨links, x⟩ := o
      cases x with
      | await a t c => exact beq_iff_eq.2 (h.awaits a t c hpre)
      | yieldReturn v => exact beq_iff_eq.2 (h.yields v hpre)
      | yieldBreak => exact beq_iff_eq.2 (h.ends hpre)
      | _ => cases hsuspends
    · exact absurd hsuspends (Bool.eq_false_iff.1 ((h.nested m hm).2 o.2 hpre))
  · exact Check.Place.handling_along.2 (.inr (h.rethrows o ho hthrow))
  · exact Check.sealed_parts.2 fun m hm => h.labels m (.inr (hm ▸ hwalk))

/-- The construction checks accept exactly the well-formed lambdas. -/
theorem check_iff_wellFormed (l : Lambda) : (∃ facts, l.check = .ok facts) ↔ l.WellFormed := by
  constructor
  · rintro ⟨facts, h⟩
    obtain ⟨⟨hpasses, hlabels, hclosed⟩, -⟩ := check_eq_ok_iff.1 h
    exact wellFormed_of_passes hpasses hlabels hclosed
  · intro h
    exact ⟨l.facts, check_eq_ok_iff.2 ⟨⟨h.passes, h.labels l (.inl rfl)⟩, rfl⟩⟩

end Lambda

end Coroutine
