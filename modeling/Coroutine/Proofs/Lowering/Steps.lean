import Mathlib
import Coroutine.Proofs.Lowering.Books

/-!
# Steps of lowering

What the smallest parts of lowering do to the books of a draft. All of them succeed, but for those
that refuse a suspend point.
-/

namespace Coroutine.Lowering

variable {α : Type} {resolve : Expr.Resolver} {n : Nat} {K : Tally} {ms : List Mark} {ρ : Budget}
  {o : Multiset Nat} {w : Nest} {d : Draft} {s : Nat} {t : Transition} {e : Expr} {x : Var}

/-! ## Zones and states -/

/-- A new state is marked, and has to be given a transition. -/
theorem newState_books (h : d.Books n K ms ρ o w) :
    Decides resolve newState d True fun s d' => d'.Books n K (.state s w.here :: ms) ρ ({s} + o) w ∧
      d'.current = d.current ∧ d'.ended = d.ended ∧ s ∉ d.resumes := by
  obtain ⟨k, hk, ha⟩ := h.accounts
  have hre := rearranged_addState d.graph
  have hgrow : (d.on d.graph.addState.2).Books n K ms ρ ({d.graph.states.size} + o) w :=
    h.grow (h.sound.rearrange h.sound.shape.addState hre) hre.extends rfl ⟨k, hk, ha.addState⟩
      h.labels
  refine .step (a := d.graph.states.size) rfl ⟨hgrow.add ⟨?_, ?_⟩, rfl, rfl, fun hs =>
    (ha.resumes_lt _ hs).false⟩
  · simp [Draft.on]
  · rw [← h.here_eq]
    exact congrArg State.region (Graph.state_addState_self d.graph)

/-- A new state, with what is needed to resume in it. -/
theorem newState_fresh (h : d.Ready n K ms ρ o w) :
    Decides resolve newState d True fun s d' => d'.Ready n K (.state s w.here :: ms) ρ ({s} + o) w ∧
      d'.ended = d.ended ∧ s ∉ d.resumes := by
  have hcur : (Mark.state d.current w.here).Holds n d := h.stands
  refine (newState_books (h.books.add hcur)).mono ?_
  rintro s d' ⟨h', hcurrent, hended, hnew⟩
  refine ⟨⟨(h'.sub (by grind)).of_eq ?_, ?_⟩, hended, hnew⟩
  · rw [hcurrent]
    abel
  · rw [hcurrent]
    exact h'.marks (.state d.current w.here) (by simp)

/-- A new state leaves a ready draft ready. -/
theorem newState_ready (h : d.Ready n K ms ρ o w) :
    Decides resolve newState d True fun s d' => d'.Ready n K (.state s w.here :: ms) ρ ({s} + o) w :=
  (newState_fresh h).mono fun _ _ h' => h'.1

/-- As many new states of the current region as a list is long. -/
theorem newStates_ready : ∀ (l : List α) {ms : List Mark} {o : Multiset Nat} {d : Draft},
    d.Ready n K ms ρ o w → Decides resolve (newStates l) d True fun heads d' =>
      d'.Ready n K (.states heads w.here :: ms) ρ (heads + o) w ∧ heads.length = l.length
  | [], ms, o, d, h => by
    have hnone : (Mark.states [] w.here).Holds n d := nofun
    exact .pure trivial ⟨by simpa using h.add hnone, rfl⟩
  | _ :: l, ms, o, d, h => by
    refine (newState_ready h).after fun s d₁ h₁ => ?_
    refine (newStates_ready l h₁).after fun heads d₂ ⟨h₂, hlen⟩ => ?_
    have hall : (Mark.states (s :: heads) w.here).Holds n d₂ := List.forall_mem_cons.2
      ⟨h₂.mark (m := .state s w.here) (by simp), h₂.mark (m := .states heads w.here) (by simp)⟩
    refine .pure trivial ⟨⟨((h₂.add hall).books.sub (by grind)).of_eq ?_, h₂.stands⟩, by simp [hlen]⟩
    rw [← Multiset.cons_coe, ← Multiset.singleton_add]
    abel

/-- Going on in an open state. -/
theorem continueAt_ready (h : d.Books n K ms ρ ({s} + o) w) (hs : .state s w.here ∈ ms) :
    Decides resolve (continueAt s) d True fun _ d' => d'.Ready n K ms ρ o w := by
  obtain ⟨k, hk, ha⟩ := h.accounts
  have hd := h.sound
  refine .step (a := ()) (b := { d with current := s }) rfl
    ⟨h.grow ?_ ?_ rfl ⟨k, hk, ?_⟩ h.labels, h.marks _ hs⟩
  · exact ⟨hd.shape, hd.first, hd.params, hd.vars, hd.distinct, hd.states, hd.live, hd.labels,
      hd.records, hd.unique⟩
  · exact Draft.extends_of_eq rfl rfl rfl rfl (fun _ h => h) le_rfl
  · exact ⟨rfl, ha.states, ha.noted, ha.tally, ha.distinct, ha.resumes_lt⟩

/-- Opening a zone. -/
theorem enterZone_books (h : d.Books n K ms ρ o w) (kind : ZoneKind) (hkind : kind ≠ .top) :
    Decides resolve (create (·.enterZone kind)) d True fun z d' =>
      d'.Books n K ms ρ o ((z, if kind.isRegion then z else w.here) :: w) ∧ d'.current = d.current ∧
        z < d'.graph.zones.size ∧ d'.graph.zone z =
          { kind, parent := some d.graph.currentZone, region := if kind.isRegion then z else w.here } := by
  have hre := rearranged_enterZone d.graph kind
  have hext : d.Extends (d.on (d.graph.enterZone kind).2) := hre.extends
  have hlt : d.graph.zones.size < (d.graph.enterZone kind).2.zones.size := by simp
  have hzone : (d.graph.enterZone kind).2.zone d.graph.zones.size =
      { kind, parent := some d.graph.currentZone,
        region := if kind.isRegion then d.graph.zones.size else w.here } := by
    rw [← h.here_eq]
    exact Graph.zone_enterZone_self d.graph kind
  obtain ⟨k, hk, ha⟩ := h.accounts
  have hsteady : d.Steady (d.on (d.graph.enterZone kind).2) :=
    .of_states (Graph.states_enterZone d.graph kind)
  refine .step (a := d.graph.zones.size) rfl ⟨⟨h.sound.rearrange (h.sound.shape.enterZone hkind) hre,
    ⟨k, hk, ha.steady hsteady⟩, h.labels, ?_, ?_, fun m hm => (h.marks m hm).mono h.sound hext⟩, rfl,
    hlt, hzone⟩
  · exact congrArg (d.graph.zones.size :: ·) h.zones
  · refine List.forall_mem_cons.2 ⟨congrArg Zone.region hzone, fun p hp => ?_⟩
    have hold : p.1 < d.graph.zones.size :=
      h.sound.shape.outwards.mem_lt h.sound.shape.zoned (h.zones ▸ List.mem_map_of_mem hp)
    exact (hext.zoneRegion _ hold).trans (h.regions p hp)

/-- Opening the zone of a loop, of a handler or of a cleanup, which are no regions. -/
theorem enterZone_ready (h : d.Ready n K ms ρ o w) (kind : ZoneKind) (hkind : kind ≠ .top)
    (hregion : kind.isRegion = false) : Decides resolve (create (·.enterZone kind)) d True fun z d' =>
      d'.Ready n K ms ρ o ((z, w.here) :: w) := by
  have hcur : (Mark.state d.current w.here).Holds n d := h.stands
  refine (enterZone_books (h.books.add hcur) kind hkind).mono ?_
  rintro z d' ⟨h', hcurrent, -⟩
  rw [hregion] at h'
  refine ⟨hcurrent ▸ h'.sub (by grind), ?_⟩
  rw [hcurrent]
  exact h'.marks (.state d.current w.here) (by simp)

/-- Some zone is always open. -/
theorem Draft.Books.nest_ne (h : d.Books n K ms ρ o w) : w ≠ [] := by
  rintro rfl
  have hout := h.sound.shape.outwards
  rw [h.zones] at hout
  exact hout.elim

/-- Closing the innermost zone. -/
theorem exitZone_books {p : Nat × Nat} (h : d.Books n K ms ρ o (p :: w)) (hw : w ≠ []) :
    Decides resolve (create Graph.exitZone) d True fun _ d' => d'.Books n K ms ρ o w := by
  obtain ⟨q, w, rfl⟩ := List.exists_cons_of_ne_nil hw
  have hre := rearranged_exitZone d.graph
  have hext : d.Extends (d.on d.graph.exitZone.2) := hre.extends
  have hsteady : d.Steady (d.on d.graph.exitZone.2) := .of_states (Graph.states_exitZone d.graph)
  obtain ⟨k, hk, ha⟩ := h.accounts
  have hlabels : (d.on d.graph.exitZone.2).bound = d.bound :=
    congrArg (·.map Prod.fst) (Graph.labels_exitZone d.graph)
  refine .step (b := d.on d.graph.exitZone.2) rfl
    ⟨h.sound.rearrange (h.sound.shape.exitZone h.zones) hre, ⟨k, hk, ha.steady hsteady⟩,
      hlabels ▸ h.labels, ?_, ?_, fun m hm => (h.marks m hm).mono h.sound hext⟩
  · exact (Graph.openZones_exitZone d.graph).trans (by rw [h.zones]; rfl)
  · intro r hr
    have hlt : r.1 < d.graph.zones.size := h.sound.shape.outwards.mem_lt h.sound.shape.zoned
      (h.zones ▸ List.mem_map_of_mem (List.mem_cons_of_mem _ hr))
    exact (hext.zoneRegion _ hlt).trans (h.regions r (List.mem_cons_of_mem _ hr))

/-! ## Transitions -/

/-- Giving a state its transition changes nothing else. -/
theorem local_setTransition (t : Transition) :
    Local fun s => { s with transition := some t } :=
  ⟨fun _ => rfl, fun _ => rfl, fun _ => rfl⟩

/-- A transition without a record keeps a draft sound and extends it. -/
theorem Draft.Sound.setTransition (hd : d.Sound n) (ht : d.graph.TransitionSound n s t)
    (hroutes : ∀ r ∈ t.exits, d.graph.Around r (d.graph.state s).region) (hrec : t.record? = none)
    (hs : s < d.graph.states.size) :
    (d.on (d.graph.setTransition s t)).Sound n ∧
      d.Extends (d.on (d.graph.setTransition s t)) := by
  have hnone : ∀ t' r j, some t = some t' → t'.record? = some (r, j) → False := by
    rintro t' r j ⟨⟩ hj
    rw [hrec] at hj
    cases hj
  have hstate := hd.states s hs
  refine ⟨hd.edit (local_setTransition t) s ⟨hstate.expressions, hstate.result, ?_, ?_⟩
    fun t' r j h hj => (hnone t' r j h hj).elim,
    (Draft.Extends.refl d).edit (local_setTransition t) s fun t' r j h hj =>
      (hnone t' r j h hj).elim⟩
  · rintro t' ⟨⟩
    exact ht
  · rintro t' ⟨⟩
    exact hroutes

/-- Ending an open state spends what its transition weighs. A machine resumes only where no other
state resumes. -/
theorem endState_spends (h : d.Books n K ms ((t.weight, 0) + ρ) ({s} + o) w)
    (hresume : ∀ r ∈ t.resumeTarget?, r < d.graph.states.size ∧ r ∉ d.resumes)
    (ht : d.graph.TransitionSound n s t)
    (hroutes : ∀ r ∈ t.exits, d.graph.Around r (d.graph.state s).region) (hrec : t.record? = none) :
    Decides resolve (endState s t) d True fun _ d' =>
      d'.Books n K ms ρ o w ∧ d'.current = d.current := by
  obtain ⟨k, hk, ha⟩ := h.accounts
  have hs : s < d.graph.states.size := ha.lt_of_mem (by simp)
  obtain ⟨hsound, hext⟩ := h.sound.setTransition ht hroutes hrec hs
  refine .step (a := ()) rfl ⟨h.grow (hsound.noting s t) (hext.noting s t) rfl
    ⟨k + t.weight, ?_, ha.endState hresume⟩ ?_, rfl⟩
  · rw [← hk, Prod.fst_add, add_assoc]
  · have hlabels := h.labels
    rwa [Prod.snd_add, zero_add] at hlabels

/-- Ending an open state without a suspension. -/
theorem endState_books (h : d.Books n K ms ρ ({s} + o) w) (hresume : t.resumeTarget? = none)
    (hweight : t.weight = 0) (ht : d.graph.TransitionSound n s t)
    (hroutes : ∀ r ∈ t.exits, d.graph.Around r (d.graph.state s).region) (hrec : t.record? = none) :
    Decides resolve (endState s t) d True fun _ d' =>
      d'.Books n K ms ρ o w ∧ d'.current = d.current := by
  refine endState_spends ?_ (by simp [hresume]) ht hroutes hrec
  rw [hweight, show ((0, 0) : Budget) = 0 from rfl, zero_add]
  exact h

/-- Ending a state spends what its transition weighs. -/
theorem endWith_spends (h : d.Ready n K ms ((t.weight, 0) + ρ) o w)
    (hresume : ∀ r ∈ t.resumeTarget?, r < d.graph.states.size ∧ r ∉ d.resumes)
    (ht : d.graph.TransitionSound n d.current t)
    (hroutes : ∀ r ∈ t.exits, d.graph.Around r w.here) (hrec : t.record? = none) :
    Decides resolve (endWith t) d True fun _ d' => d'.Books n K ms ρ o w :=
  .current ((endState_spends h.books hresume ht (h.stands.2.symm ▸ hroutes) hrec).mono
    fun _ _ h' => h'.1)

section

variable (h : d.Ready n K ms ρ o w)
include h

/-- Ending the current state without a suspension. -/
theorem endWith_books (hresume : t.resumeTarget? = none) (hweight : t.weight = 0)
    (ht : d.graph.TransitionSound n d.current t)
    (hroutes : ∀ r ∈ t.exits, d.graph.Around r w.here) (hrec : t.record? = none) :
    Decides resolve (endWith t) d True fun _ d' => d'.Books n K ms ρ o w := by
  refine endWith_spends ?_ (by simp [hresume]) ht hroutes hrec
  rw [hweight, show ((0, 0) : Budget) = 0 from rfl, zero_add]
  exact h

/-- Going on from the current state to another one. -/
theorem goto_books (hs : d.graph.Around s w.here) :
    Decides resolve (endWith (.goto s)) d True fun _ d' => d'.Books n K ms ρ o w :=
  endWith_books h rfl rfl trivial (List.forall_mem_singleton.2 hs) rfl

/-! ## Contents -/

/-- An edit of the current state that keeps its transition. -/
theorem Draft.Ready.edit {f : State → State} (hf : Local f)
    (hkeep : ∀ x, (f x).transition = x.transition)
    (hstate : d.graph.StateSound n d.current (f (d.graph.state d.current))) :
    (d.on (d.graph.modifyState d.current f)).Ready n K ms ρ o w := by
  have hold : ∀ t r j, (f (d.graph.state d.current)).transition = some t →
      t.record? = some (r, j) → d.graph.Records r j :=
    fun t r j ht hj => ⟨d.current, t, by rw [← hkeep, ht], hj⟩
  refine h.steady (h.sound.edit hf _ hstate fun t r j ht hj => ?_)
    ((Draft.Extends.refl d).edit hf _ fun t r j ht hj => .inl (hold t r j ht hj)) rfl
    (.modifyState _ hkeep) rfl
  have hr := hold t r j ht hj
  exact ⟨h.sound.records r j hr, fun q hq => h.sound.unique q r j hq hr⟩

/-- An expression is added to the open state. -/
theorem emit_ready (he : e.Fits (d.graph.setting n)) :
    Decides resolve (emit e) d True fun _ d' => d'.Ready n K ms ρ o w := by
  unfold emit
  split
  · exact .pure trivial h
  · have hstate := h.sound.states d.current h.stands.1
    refine .step (a := ()) rfl (h.edit (f := fun x => { x with expressions := x.expressions ++ [e] })
      ⟨fun _ => rfl, fun _ => rfl, fun _ => rfl⟩ (fun _ => rfl)
      ⟨fun e' he' => ?_, hstate.result, hstate.transition, hstate.routes⟩)
    rcases List.mem_append.1 he' with he' | he'
    · exact hstate.expressions e' he'
    · rw [List.mem_singleton.1 he']
      exact he

/-- A variable is reset in the open state. -/
theorem emitUnit_ready (hx : .var x ∈ ms) :
    Decides resolve (emit (.assign x .unit)) d True fun _ d' => d'.Ready n K ms ρ o w :=
  emit_ready h ⟨h.mark hx, trivial⟩

/-- A result is kept in its variable. -/
theorem emitResult_ready (hx : .var x ∈ ms) (he : .expr e ∈ ms) :
    Decides resolve (emitResult x e) d True fun _ d' => d'.Ready n K ms ρ o w := by
  refine .get ?_
  split
  · exact emit_ready h (h.mark he)
  · split
    · have hstate := h.sound.states d.current h.stands.1
      refine .step (a := ()) rfl (h.edit (f := fun y => { y with result := some (x, e) })
        ⟨fun _ => rfl, fun _ => rfl, fun _ => rfl⟩ (fun _ => rfl)
        ⟨hstate.expressions, fun y e' heq => ?_, hstate.transition, hstate.routes⟩)
      cases heq
      exact ⟨h.mark hx, h.mark he⟩
    · exact emit_ready h ⟨h.mark hx, h.mark he⟩

/-- Ending a branch. -/
theorem joinAt_books {join : Nat} (hx : .var x ∈ ms) (he : .expr e ∈ ms)
    (hjoin : ∀ d' : Draft, d'.Ready n K ms ρ o w → d'.graph.Around join w.here) :
    Decides resolve (joinAt join x e) d True fun _ d' => d'.Books n K ms ρ o w :=
  (emitResult_ready h hx he).after fun _ d₁ h₁ => goto_books h₁ (hjoin d₁ h₁)

end

/-! ## Variables and labels -/

/-- The names of temporaries differ by their stems. -/
theorem stem_eq_of_name {stem stem' : String} {i : Nat}
    (h : "$" ++ stem ++ toString i = "$" ++ stem' ++ toString i) : stem = stem' := by
  have h' := congrArg String.toList h
  simp only [String.toList_append, List.append_assoc] at h'
  exact String.toList_inj.1 (List.append_cancel_right (List.append_cancel_left h'))

/-- The variable that the next temporary is. -/
def Draft.fresh (d : Draft) (stem : String) : Var :=
  ⟨d.nextVar, "$" ++ stem ++ toString (word d.nextVar)⟩

/-- The lowering of a sound draft gets a new temporary. -/
theorem Draft.Sound.temporary_eq (hd : d.Sound n) (stem : String) :
    temporary stem d = .ok (d.fresh stem, d.addVar (d.fresh stem) (d.nextVar + 1)) := by
  have hdeclare : d.graph.declare (d.fresh stem) =
      { d.graph with vars := d.graph.vars ++ [d.fresh stem] } := by
    unfold Graph.declare
    rw [if_neg]
    simpa [Draft.fresh] using fun y hy => (hd.vars y hy).ne
  change Except.ok (d.fresh stem, { d with
    nextVar := d.nextVar + 1, graph := d.graph.declare (d.fresh stem) }) = _
  rw [hdeclare]
  rfl

/-- A variable that is new may be declared in a ready draft. -/
theorem Draft.Ready.addVar (h : d.Ready n K ms ρ o w) {next : Nat} (hnext : d.nextVar ≤ next)
    (hx : x.id < next) (hnew : ∀ y ∈ d.graph.vars, y.id ≠ x.id) :
    (d.addVar x next).Ready n K ms ρ o w :=
  h.steady (h.sound.addVar hnext hx hnew) (d.extends_addVar x hnext) rfl ⟨rfl, rfl, rfl, fun _ => rfl⟩
    rfl

/-- A variable that is declared is one of the variables. -/
theorem Draft.mem_addVar (d : Draft) (x : Var) (next : Nat) : x ∈ (d.addVar x next).graph.vars :=
  List.mem_append_right _ (List.mem_singleton.2 rfl)

/-- A temporary of any kind. -/
theorem temporary_fresh (h : d.Ready n K ms ρ o w) (stem : String) :
    Decides resolve (temporary stem) d True fun x d' => d'.Ready n K ms ρ o w ∧
      x = d.fresh stem ∧ d' = d.addVar x (d.nextVar + 1) :=
  .step (h.sound.temporary_eq stem) ⟨h.addVar (Nat.le_succ _) (Nat.lt_succ_self _) fun y hy =>
    (h.sound.vars y hy).ne, rfl, rfl⟩

/-- A temporary that is not for a record can be assigned. -/
theorem temporary_ready (h : d.Ready n K ms ρ o w) {stem : String}
    (hstem : stem ≠ "try_state" ∧ stem ≠ "exception") :
    Decides resolve (temporary stem) d True fun x d' => d'.Ready n K (.var x :: ms) ρ o w := by
  refine (temporary_fresh h stem).mono ?_
  rintro x d' ⟨h', rfl, rfl⟩
  have hmem := d.mem_addVar (d.fresh stem) (d.nextVar + 1)
  have htry : ¬ (d.fresh stem).IsTryState := fun hname => hstem.1 (stem_eq_of_name hname)
  have hexc : ¬ (d.fresh stem).IsException := fun hname => hstem.2 (stem_eq_of_name hname)
  exact h'.add ⟨⟨_, List.mem_append_right _ hmem, rfl, fun hname => htry hname.2⟩,
    .inr ⟨_, hmem, rfl, htry, hexc⟩⟩

/-- A variable of the tree. -/
theorem declare_ready (h : d.Ready n K ms ρ o w) (hx : x.id < n) :
    Decides resolve (change (·.declare x)) d True fun _ d' => d'.Ready n K (.var x :: ms) ρ o w := by
  have htree : ¬ n ≤ x.id := not_le.2 hx
  refine .step (a := ()) (b := d.on (d.graph.declare x)) rfl ?_
  by_cases hany : (d.graph.vars.any (·.id == x.id)) = true
  · obtain ⟨y, hy, hid⟩ := List.any_eq_true.1 hany
    rw [Graph.declare, if_pos hany]
    exact h.add ⟨⟨y, List.mem_append_right _ hy, by simpa using hid, fun h => htree h.1⟩, .inl hx⟩
  · have hnew : ∀ y ∈ d.graph.vars, y.id ≠ x.id := by simpa using hany
    rw [Graph.declare, if_neg hany]
    exact (h.addVar le_rfl (hx.trans_le h.sound.first) hnew).add ⟨⟨x, List.mem_append_right _
      (d.mem_addVar x d.nextVar), rfl, fun h => htree h.1⟩, .inl hx⟩

/-- Declares the variables of a block. -/
theorem declareAll_ready : ∀ (xs : List Var) {ms : List Mark} {d : Draft}, d.Ready n K ms ρ o w →
    (∀ x ∈ xs, x.id < n) → Decides resolve (declareAll xs) d True fun _ d' =>
      d'.Ready n K (xs.map Mark.var ++ ms) ρ o w
  | [], ms, d, h, _ => .pure trivial h
  | x :: xs, ms, d, h, hxs => by
    refine (declare_ready h (hxs x List.mem_cons_self)).after fun _ d₁ h₁ => ?_
    have hassign : (Expr.assign x .unit).Fits (d₁.graph.setting n) :=
      ⟨h₁.mark (m := .var x) (by simp), trivial⟩
    refine (emit_ready h₁ hassign).after fun _ d₂ h₂ => ?_
    refine (declareAll_ready xs h₂ fun y hy => hxs y (List.mem_cons_of_mem _ hy)).mono fun _ _ h₃ => ?_
    exact h₃.sub (by grind)

/-- A label that is still to come can be bound. -/
theorem bind_ready {l : Nat} (h : d.Ready n K ms (Budget.ofLabels [l] + ρ) o w) {b : LabelBinding}
    (hstate : b.state < d.graph.states.size) (hvar : ∀ x ∈ b.var, .var x ∈ ms) :
    Decides resolve (bind l b) d True fun _ d' => d'.Ready n K ms ρ o w := by
  obtain ⟨k, hk, ha⟩ := h.books.accounts
  have hlabels : ((d.bound : Multiset Nat) + ({l} + ρ.2)).Nodup := h.books.labels
  have hnew : l ∉ d.bound := fun hl => by
    have hcount := Multiset.nodup_iff_count_le_one.1 hlabels l
    rw [Multiset.count_add, Multiset.count_add, Multiset.count_singleton_self] at hcount
    have := Multiset.count_pos.2 (show l ∈ (d.bound : Multiset Nat) from hl)
    omega
  have hlookup : d.graph.labels.lookup l = none := List.lookup_eq_none_iff.2 fun p hp => by
    simpa using fun heq : l = p.1 => hnew (List.mem_map.2 ⟨p, hp, heq.symm⟩)
  have hrun : bind l b d = .ok ((), d.addLabel l b) := by
    have hbind : d.graph.bindLabel l b = .ok { d.graph with labels := d.graph.labels ++ [(l, b)] } := by
      simp [Graph.bindLabel, hlookup]
    change ((StateT.lift (d.graph.bindLabel l b) : Lower Graph) >>= fun graph =>
      set { d with graph }) d = _
    rw [hbind]
    rfl
  have hext := d.extends_addLabel l b
  refine .step hrun ⟨h.books.grow (h.sound.addLabel l hstate fun x hx => h.mark (hvar x hx)) hext rfl
    ⟨k, by simpa [Budget.ofLabels] using hk, ha.steady (.of_states rfl)⟩ ?_, hext.inRegion h.stands⟩
  have hbound : ((d.addLabel l b).bound : Multiset Nat) = d.bound + {l} := by
    rw [← Multiset.coe_singleton, Multiset.coe_add]
    simp [Draft.bound, Draft.addLabel, Draft.on]
  rwa [hbound, add_assoc]

/-- A label that may be missing is bound. -/
theorem bindOptional_ready {l : Option Label}
    (h : d.Ready n K ms (Budget.ofLabels (l.toList.map Label.id) + ρ) o w) {b : LabelBinding}
    (hstate : b.state < d.graph.states.size) (hvar : ∀ x ∈ b.var, .var x ∈ ms) :
    Decides resolve (bindOptional l b) d True fun _ d' => d'.Ready n K ms ρ o w := by
  cases l with
  | none => exact .pure trivial (h.drop rfl rfl)
  | some l => exact bind_ready h hstate hvar

/-! ## Operands -/

/-- An operand is usable afterwards, in place or by its temporary. -/
theorem operand_ready (h : d.Ready n K ms ρ o w) (he : .expr e ∈ ms) (later : Bool) :
    Decides resolve (operand e later) d True fun e' d' => d'.Ready n K (.expr e' :: ms) ρ o w := by
  unfold operand spill
  split
  · split
    · exact .pure trivial (h.add (h.mark he))
    · refine (temporary_ready h (by decide)).after fun x d₁ h₁ => ?_
      have hx := h₁.mark (m := .var x) (by simp)
      have hassign : (Expr.assign x e).Fits (d₁.graph.setting n) :=
        ⟨hx, h₁.mark (m := .expr e) (by simp [he])⟩
      refine (emit_ready h₁ hassign).after fun _ d₂ h₂ => .pure trivial ?_
      have hvar : (Mark.expr (.var x)).Holds n d₂ := (h₂.mark (m := .var x) (by simp)).1
      exact (h₂.add hvar).sub (by grind)
  · exact .pure trivial (h.add (h.mark he))

/-! ## Refusing suspend points -/

/-- Only tests that do not suspend are accepted. -/
theorem refuseTests_decides (p : Place) (cases : List SwitchCase) :
    Decides resolve (refuseTests p cases) d
      (∀ c ∈ cases, ∀ test ∈ c.tests, test.suspends = false) fun _ d' => d' = d := by
  have hplain : (∀ c ∈ cases, ∀ test ∈ c.tests, test.suspends = false) ↔
      (Expr.firstSuspendIn? (cases.flatMap SwitchCase.tests)).isSome = false := by
    rw [Expr.isSome_firstSuspendIn?, Expr.anySuspends_eq, List.any_eq_false]
    simp only [List.mem_flatMap, Bool.not_eq_true]
    exact ⟨fun h e ⟨c, hc, he⟩ => h c hc e he, fun h c hc e he => h e ⟨c, hc, he⟩⟩
  unfold refuseTests
  split
  · rename_i h
    exact .throw (by simp [hplain, h]) (.inr ⟨_, _, rfl⟩)
  · rename_i h
    exact .pure (hplain.2 (by simp [h])) rfl

/-- A yield is accepted where no guarded part forbids it. -/
theorem refuseYield_decides (p : Place) (node : Expr) :
    Decides resolve (refuseYield p node) d (p.guards.yieldRestriction? = none)
      fun _ d' => d' = d := by
  unfold refuseYield
  split
  · rename_i h
    exact .throw (by simp [h]) (.inr ⟨_, _, rfl⟩)
  · rename_i h
    exact .pure h rfl

end Coroutine.Lowering
