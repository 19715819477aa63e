import Mathlib
import Coroutine.Graph.Simplify
import Coroutine.Proofs.Graph.Edits

/-!
# Passing by no-ops

`collapse` replaces every reference by the end of a way along no-ops, which `resolveAll` finds with
one memo for all states. `Passed g φ s` says that `φ` does this for the state `s`: it stays, or it is
a no-op whose target lies in the same region and has the same end. The search is correct because
the memo only ever holds such ends, and its fuel suffices because a way never repeats a state.
-/

namespace Coroutine.Graph

variable {g : Graph} {memo : Array (Option Nat)}

/-- The end of every state's way along no-ops. -/
def remap (g : Graph) (id : Nat) : Nat := (g.resolveAll.getD id none).getD id

/-- A state whose end is itself, or a no-op on the way to its end. -/
inductive Passed (g : Graph) (φ : Nat → Nat) : Nat → Prop
  | here {s : Nat} (h : φ s = s) : Passed g φ s
  | step {s t : Nat} (hstep : g.bypass? s = some t) (hend : φ t = φ s) (h : Passed g φ t) :
      Passed g φ s

/-- What a no-op is. -/
theorem bypass?_eq_some {s t : Nat} (h : g.bypass? s = some t) :
    (g.state s).expressions = [] ∧ (g.state s).result = none ∧
      (g.state s).transition = some (.goto t) ∧ (g.state s).pruned = false ∧
      (g.state t).region = (g.state s).region ∧ s < g.states.size := by
  unfold bypass? at h
  simp only at h
  split at h
  · rename_i target htrans
    split at h
    · rename_i hcond
      cases h
      simp only [Bool.and_eq_true, Bool.not_eq_true', beq_iff_eq] at hcond
      obtain ⟨⟨hpruned, hnoop⟩, hregion⟩ := hcond
      have hlt : s < g.states.size := by
        by_contra hge
        rw [state_of_le g (not_lt.1 hge)] at htrans
        cases htrans
      unfold State.isNoop at hnoop
      split at hnoop
      · rename_i hexpr hresult _
        exact ⟨hexpr, hresult, htrans, hpruned, hregion, hlt⟩
      · cases hnoop
    · cases h
  · cases h

/-! ## The memo -/

/-- An entry of a memo. -/
def noted? (memo : Array (Option Nat)) (s : Nat) : Option Nat := memo.getD s none

/-- A way along no-ops to an end, every state after the first with that end in the memo. -/
inductive Way (g : Graph) (memo : Array (Option Nat)) (e : Nat) : Nat → Prop
  | stop : Way g memo e e
  | step {s t : Nat} (hstep : g.bypass? s = some t) (hend : noted? memo t = some e ∨ t = e)
      (h : Way g memo e t) : Way g memo e s

/-- What holds of the memo. -/
structure Memo (g : Graph) (memo : Array (Option Nat)) : Prop where
  size : memo.size = g.states.size
  fixed : ∀ s e, noted? memo s = some e →
    noted? memo e = some e ∨ noted? memo e = none ∧ g.bypass? e = none
  way : ∀ s e, noted? memo s = some e → Way g memo e s
  next : ∀ s e t, noted? memo s = some e → g.bypass? s = some t → noted? memo t = some e ∨ t = e

/-- A way is one as long as its notes stay. -/
theorem Way.mono {memo' : Array (Option Nat)}
    (h : ∀ s e, noted? memo s = some e → noted? memo' s = some e) {e s : Nat}
    (hway : Way g memo e s) : Way g memo' e s := by
  induction hway with
  | stop => exact .stop
  | step hstep hend _ ih => exact .step hstep (hend.imp_left (h _ _)) ih

/-! ## The search -/

/-- The states of a list follow each other along no-ops, the last one first, up to a state. -/
def Trail (g : Graph) : List Nat → Nat → Prop
  | [], _ => True
  | s :: rest, t => g.bypass? s = some t ∧ g.Trail rest s

/-- All states of a trail are skipped. -/
theorem Trail.bypass {t : Nat} : ∀ {l : List Nat} {c : Nat}, g.Trail l c → t ∈ l →
    ∃ u, g.bypass? t = some u
  | s :: rest, c, h, ht => by
    rcases List.mem_cons.1 ht with rfl | ht
    · exact ⟨c, h.1⟩
    · exact h.2.bypass ht

/-- What comes after a state of a trail lies on the trail, or is the state it leads to. -/
theorem Trail.mem_next {s t : Nat} (hstep : g.bypass? s = some t) : ∀ {l : List Nat} {c : Nat},
    g.Trail l c → s ∈ l → t = c ∨ t ∈ l
  | u :: rest, c, h, hs => by
    rcases List.mem_cons.1 hs with rfl | hs
    · exact .inl (Option.some.inj (hstep.symm.trans h.1))
    · rcases h.2.mem_next hstep hs with rfl | ht
      · exact .inr List.mem_cons_self
      · exact .inr (List.mem_cons_of_mem _ ht)

/-- All states of a trail have a way to the end of the state it leads to. -/
theorem Trail.way {memo : Array (Option Nat)} {e : Nat} : ∀ {l : List Nat} {c : Nat}, g.Trail l c →
    Way g memo e c → (noted? memo c = some e ∨ c = e) → (∀ s ∈ l, noted? memo s = some e) →
    ∀ s ∈ l, Way g memo e s
  | [], _, _, _, _, _, _, hs => by cases hs
  | t :: rest, c, h, hway, hend, hall, s, hs => by
    have ht : Way g memo e t := .step h.1 hend hway
    rcases List.mem_cons.1 hs with rfl | hs
    · exact ht
    · exact h.2.way ht (.inl (hall t List.mem_cons_self))
        (fun u hu => hall u (List.mem_cons_of_mem _ hu)) s hs

/-- How a search ends at a state `c`. -/
def Ends (g : Graph) (memo : Array (Option Nat)) (chain : List Nat) (c finish : Nat) : Prop :=
  noted? memo c = some finish ∨
    finish = c ∧ (c ∈ chain ∨ noted? memo c = none ∧ g.bypass? c = none)

/-- A list of distinct states is no longer than the graph. -/
theorem length_le_size {l : List Nat} (hnodup : l.Nodup) (hlt : ∀ s ∈ l, s < g.states.size) :
    l.length ≤ g.states.size := by
  have hsub : l ⊆ List.range g.states.size := fun s hs => List.mem_range.2 (hlt s hs)
  simpa using (hnodup.subperm hsub).length_le

/-- The search, however long it is: it ends at an entry of the memo, at a state met before, or at one
that is no no-op. -/
inductive Search (g : Graph) (memo : Array (Option Nat)) : List Nat → Nat → Nat × List Nat → Prop
  | known {chain : List Nat} {c finish : Nat} (h : noted? memo c = some finish) :
      Search g memo chain c (finish, chain)
  | again {chain : List Nat} {c : Nat} (hnone : noted? memo c = none) (hmem : c ∈ chain) :
      Search g memo chain c (c, chain)
  | stop {chain : List Nat} {c : Nat} (hnone : noted? memo c = none) (hstop : g.bypass? c = none) :
      Search g memo chain c (c, chain)
  | step {chain : List Nat} {c next : Nat} {r : Nat × List Nat} (hnone : noted? memo c = none)
      (hmem : c ∉ chain) (hnext : g.bypass? c = some next) (h : Search g memo (c :: chain) next r) :
      Search g memo chain c r

/-- Every step of a search adds a state to its trail, so it ends before the fuel does. -/
theorem follow_search {memo : Array (Option Nat)} : ∀ (fuel : Nat) {chain : List Nat} {cursor : Nat},
    g.states.size < fuel + chain.length → g.Trail chain cursor → chain.Nodup →
    Search g memo chain cursor (g.follow memo fuel chain cursor)
  | 0, chain, cursor, hfuel, htrail, hnodup => by
    -- no state is passed twice, so there cannot be more of them than states
    have hlt : ∀ s ∈ chain, s < g.states.size := fun s hs => by
      obtain ⟨u, hu⟩ := htrail.bypass hs
      exact (bypass?_eq_some hu).2.2.2.2.2
    have := length_le_size hnodup hlt
    omega
  | fuel + 1, chain, cursor, hfuel, htrail, hnodup => by
    unfold follow
    split
    · rename_i finish hmemo
      exact .known hmemo
    · rename_i hmemo
      split
      · rename_i hmem
        exact .again hmemo (by simpa using hmem)
      · rename_i hmem
        have hmem : cursor ∉ chain := by simpa using hmem
        split
        · rename_i next hnext
          have hfuel' : g.states.size < fuel + (cursor :: chain).length := by
            rw [List.length_cons]
            omega
          exact .step hmemo hmem hnext
            (follow_search fuel hfuel' ⟨hnext, htrail⟩ (List.nodup_cons.2 ⟨hmem, hnodup⟩))
        · rename_i hstop
          exact .stop hmemo hstop

/-- A search ends where its trail does, at a note or in a circle. -/
theorem Search.spec {chain : List Nat} {cursor : Nat} {r : Nat × List Nat}
    (h : Search g memo chain cursor r) (htrail : g.Trail chain cursor)
    (hnone : ∀ s ∈ chain, noted? memo s = none) :
    ∃ c, g.Trail r.2 c ∧ (∀ s ∈ r.2, noted? memo s = none) ∧
      (c = cursor ∧ r.2 = chain ∨ cursor ∈ r.2) ∧ chain ⊆ r.2 ∧ g.Ends memo r.2 c r.1 := by
  induction h with
  | @known chain c _ hmemo =>
    exact ⟨c, htrail, hnone, .inl ⟨rfl, rfl⟩, List.Subset.refl _, .inl hmemo⟩
  | @again chain c _ hmem =>
    exact ⟨c, htrail, hnone, .inr hmem, List.Subset.refl _, .inr ⟨rfl, .inl hmem⟩⟩
  | @stop chain c hmemo hstop =>
    exact ⟨c, htrail, hnone, .inl ⟨rfl, rfl⟩, List.Subset.refl _, .inr ⟨rfl, .inr ⟨hmemo, hstop⟩⟩⟩
  | step hmemo _ hnext _ ih =>
    obtain ⟨c, hc, hall, -, hsub, hend⟩ := ih ⟨hnext, htrail⟩ (List.forall_mem_cons.2 ⟨hmemo, hnone⟩)
    exact ⟨c, hc, hall, .inr (hsub List.mem_cons_self),
      fun s hs => hsub (List.mem_cons_of_mem _ hs), hend⟩

/-! ## Filling the memo -/

/-- Noting an end for the states of a list. -/
theorem noted?_foldl (finish : Nat) : ∀ (l : List Nat) (memo : Array (Option Nat)),
    (l.foldl (fun memo s => memo.setIfInBounds s (some finish)) memo).size = memo.size ∧
      ∀ t, noted? (l.foldl (fun memo s => memo.setIfInBounds s (some finish)) memo) t =
        if t ∈ l ∧ t < memo.size then some finish else noted? memo t
  | [], memo => ⟨rfl, fun t => by simp⟩
  | s :: l, memo => by
    obtain ⟨hsize, hentry⟩ := noted?_foldl finish l (memo.setIfInBounds s (some finish))
    rw [Array.size_setIfInBounds] at hsize hentry
    refine ⟨hsize, fun t => ?_⟩
    rw [List.foldl_cons, hentry t]
    by_cases hmem : t ∈ l ∧ t < memo.size
    · rw [if_pos hmem, if_pos ⟨List.mem_cons_of_mem _ hmem.1, hmem.2⟩]
    · rw [if_neg hmem]
      by_cases hlt : t < memo.size
      · by_cases hts : s = t
        · subst hts
          simp [noted?, Array.getD, hlt]
        · have hnot : ¬ (t ∈ s :: l ∧ t < memo.size) := by
            rintro ⟨h, -⟩
            rcases List.mem_cons.1 h with rfl | h
            · exact hts rfl
            · exact hmem ⟨h, hlt⟩
          rw [if_neg hnot]
          simp [noted?, Array.getD, hlt, hts]
      · rw [if_neg fun h => hlt h.2]
        simp [noted?, Array.getD, hlt]

/-- What resolving a state comes to: a search that leaves a trail up to a state `c` and finds an end
there, which is noted for the state and its trail. -/
structure Resolves (g : Graph) (memo memo' : Array (Option Nat)) (s : Nat) (chain : List Nat)
    (c finish : Nat) : Prop where
  size : memo'.size = memo.size
  trail : g.Trail chain c
  unnoted : ∀ t ∈ chain, noted? memo t = none
  start : c = s ∨ s ∈ chain
  ends : g.Ends memo chain c finish
  noted : ∀ t ∈ s :: chain, noted? memo' t = some finish
  other : ∀ t, t ∉ s :: chain → noted? memo' t = noted? memo t

/-- Resolving a state notes the end of its trail for all states of it. -/
theorem Memo.resolves (h : Memo g memo) {s : Nat} (hs : s < g.states.size) :
    ∃ chain c, Resolves g memo (g.resolve memo s) s chain c
      (g.follow memo (g.states.size + 1) [] s).1 := by
  have hsearch : Search g memo [] s (g.follow memo (g.states.size + 1) [] s) :=
    follow_search _ (by simp) trivial List.nodup_nil
  obtain ⟨c, htrail, hnone, hstart, -, hend⟩ := hsearch.spec trivial (by simp)
  rw [Graph.resolve]
  generalize g.follow memo (g.states.size + 1) [] s = found at *
  obtain ⟨finish, chain⟩ := found
  obtain ⟨hsize, hentry⟩ := noted?_foldl finish (s :: chain) memo
  have hlt : ∀ t ∈ s :: chain, t < memo.size := by
    intro t ht
    rw [h.size]
    rcases List.mem_cons.1 ht with rfl | ht
    · exact hs
    · obtain ⟨u, hu⟩ := htrail.bypass ht
      exact (bypass?_eq_some hu).2.2.2.2.2
  refine ⟨chain, c, hsize, htrail, hnone, hstart.imp_left And.left, hend, fun t ht => ?_,
    fun t ht => ?_⟩
  · exact (hentry t).trans (if_pos ⟨ht, hlt t ht⟩)
  · exact (hentry t).trans (if_neg fun h => ht h.1)

namespace Resolves

variable {memo' : Array (Option Nat)} {s c finish : Nat} {chain : List Nat}
  (h : Resolves g memo memo' s chain c finish)
include h

/-- What is noted is kept: a state that was resolved before is only met at the end of the search. -/
theorem keeps {t e : Nat} (ht : noted? memo t = some e) : noted? memo' t = some e := by
  have hnot : t ∉ chain := fun hmem => by
    rw [h.unnoted t hmem] at ht
    cases ht
  by_cases hts : t = s
  · subst hts
    rw [h.noted t List.mem_cons_self]
    obtain rfl := h.start.resolve_right hnot
    rcases h.ends with hend | ⟨-, hend | hend⟩
    · rw [← hend, ht]
    · exact absurd hend hnot
    · rw [hend.1] at ht
      cases ht
  · rw [h.other t (by simp [hts, hnot]), ht]

/-- The trail leads to a state with the end that was found. -/
theorem leads : noted? memo' c = some finish ∨ c = finish :=
  h.ends.imp h.keeps fun hend => hend.1.symm

/-- The end that was found is its own end, or no no-op. -/
theorem fixed (hmemo : Memo g memo) : noted? memo' finish = some finish ∨
    noted? memo' finish = none ∧ g.bypass? finish = none := by
  by_cases hmem : finish ∈ s :: chain
  · exact .inl (h.noted finish hmem)
  · rw [h.other finish hmem]
    rcases h.ends with hend | ⟨rfl, hend | hend⟩
    · exact hmemo.fixed c finish hend
    · exact absurd (List.mem_cons_of_mem _ hend) hmem
    · exact .inr hend

/-- An end that was noted before stays its own end, or no no-op. -/
theorem fixed_old {e : Nat} (he : noted? memo e = none) (hstop : g.bypass? e = none) :
    noted? memo' e = some e ∨ noted? memo' e = none ∧ g.bypass? e = none := by
  have hnot : e ∉ chain := fun hmem => by
    obtain ⟨u, hu⟩ := h.trail.bypass hmem
    rw [hstop] at hu
    cases hu
  by_cases hes : e = s
  · -- only the state that was asked for can be resolved without a step
    subst hes
    obtain rfl := h.start.resolve_right hnot
    rcases h.ends with hend | ⟨rfl, -⟩
    · rw [hend] at he
      cases he
    · exact .inl (h.noted _ List.mem_cons_self)
  · exact .inr ⟨(h.other e (by simp [hes, hnot])).trans he, hstop⟩

/-- The states of the trail have a way to the end. -/
theorem way (hmemo : Memo g memo) : ∀ t ∈ s :: chain, Way g memo' finish t := by
  have hc : Way g memo' finish c := by
    rcases h.ends with hend | ⟨rfl, -⟩
    · exact (hmemo.way c finish hend).mono fun _ _ => h.keeps
    · exact .stop
  have hall := h.trail.way hc h.leads fun t ht => h.noted t (List.mem_cons_of_mem _ ht)
  refine List.forall_mem_cons.2 ⟨?_, hall⟩
  rcases h.start with rfl | hstart
  · exact hc
  · exact hall _ hstart

/-- What comes after a state of the trail has the same end. -/
theorem next (hmemo : Memo g memo) : ∀ t ∈ s :: chain, ∀ u, g.bypass? t = some u →
    noted? memo' u = some finish ∨ u = finish := by
  have hchain : ∀ t ∈ chain, ∀ u, g.bypass? t = some u →
      noted? memo' u = some finish ∨ u = finish := by
    intro t ht u hu
    rcases h.trail.mem_next hu ht with rfl | hmem
    · exact h.leads
    · exact .inl (h.noted u (List.mem_cons_of_mem _ hmem))
  refine List.forall_mem_cons.2 ⟨fun u hu => ?_, hchain⟩
  rcases h.start with rfl | hstart
  · -- only a trail without states ends where the search began
    rcases h.ends with hend | ⟨-, hend | ⟨-, hstop⟩⟩
    · exact (hmemo.next _ finish u hend hu).imp_left h.keeps
    · exact hchain _ hend u hu
    · rw [hstop] at hu
      cases hu
  · exact hchain _ hstart u hu

/-- The memo stays right. -/
theorem keepsMemo (hmemo : Memo g memo) : Memo g memo' := by
  refine ⟨h.size.trans hmemo.size, fun t e ht => ?_, fun t e ht => ?_, fun t e u ht hu => ?_⟩ <;>
    by_cases hmem : t ∈ s :: chain
  · obtain rfl := Option.some.inj ((h.noted t hmem).symm.trans ht)
    exact h.fixed hmemo
  · rw [h.other t hmem] at ht
    rcases hmemo.fixed t e ht with he | ⟨he, hstop⟩
    · exact .inl (h.keeps he)
    · exact h.fixed_old he hstop
  · obtain rfl := Option.some.inj ((h.noted t hmem).symm.trans ht)
    exact h.way hmemo t hmem
  · rw [h.other t hmem] at ht
    exact (hmemo.way t e ht).mono fun _ _ => h.keeps
  · obtain rfl := Option.some.inj ((h.noted t hmem).symm.trans ht)
    exact h.next hmemo t hmem u hu
  · rw [h.other t hmem] at ht
    exact (hmemo.next t e u ht hu).imp_left h.keeps

end Resolves

/-- Resolving a state notes the end found, keeps what is noted, and keeps the memo right. -/
theorem Memo.resolve (h : Memo g memo) {s : Nat} (hs : s < g.states.size) :
    Memo g (g.resolve memo s) ∧
      noted? (g.resolve memo s) s = some (g.follow memo (g.states.size + 1) [] s).1 ∧
      ∀ t e, noted? memo t = some e → noted? (g.resolve memo s) t = some e := by
  obtain ⟨chain, c, hresolves⟩ := h.resolves hs
  exact ⟨hresolves.keepsMemo h, hresolves.noted s List.mem_cons_self, fun _ _ => hresolves.keeps⟩

/-- Resolving states one after the other: by induction on the list. -/
theorem memo_foldl : ∀ (l : List Nat) {memo : Array (Option Nat)}, Memo g memo →
    (∀ s ∈ l, s < g.states.size) → Memo g (l.foldl g.resolve memo) ∧
      (∀ s ∈ l, (noted? (l.foldl g.resolve memo) s).isSome = true) ∧
      ∀ t e, noted? memo t = some e → noted? (l.foldl g.resolve memo) t = some e
  | [], memo, h, _ => ⟨h, by simp, fun _ _ h => h⟩
  | s :: l, memo, h, hl => by
    obtain ⟨h₁, hend, hkeep⟩ := h.resolve (hl s List.mem_cons_self)
    obtain ⟨h₂, hall, hkeep'⟩ := memo_foldl l h₁ fun t ht => hl t (List.mem_cons_of_mem _ ht)
    refine ⟨h₂, fun t ht => ?_, fun t e ht => hkeep' t e (hkeep t e ht)⟩
    rcases List.mem_cons.1 ht with rfl | ht
    · rw [List.foldl_cons, hkeep' _ _ hend]
      rfl
    · exact hall t ht

/-- The memo before any state is resolved. -/
theorem memo_replicate : Memo g (Array.replicate g.states.size none) := by
  have hempty : ∀ s, noted? (Array.replicate g.states.size none) s = none := fun s => by
    by_cases hs : s < g.states.size <;> simp [noted?, Array.getD, hs]
  refine ⟨by simp, fun s e he => ?_, fun s e he => ?_, fun s e t he => ?_⟩ <;>
  · rw [hempty] at he
    cases he

/-- The memo of all states is right and complete. -/
theorem memo_resolveAll : Memo g g.resolveAll ∧
    ∀ s < g.states.size, noted? g.resolveAll s = some (g.remap s) := by
  obtain ⟨hall, hsome, -⟩ := memo_foldl (List.range g.states.size) memo_replicate fun s hs =>
    List.mem_range.1 hs
  refine ⟨hall, fun s hs => ?_⟩
  obtain ⟨e, he⟩ := Option.isSome_iff_exists.1 (hsome s (List.mem_range.2 hs))
  have he : noted? g.resolveAll s = some e := he
  rw [he, remap, show g.resolveAll.getD s none = some e from he]
  rfl

/-! ## The ends -/

/-- A state that is not there is not skipped. -/
theorem remap_of_le {s : Nat} (hs : g.states.size ≤ s) : g.remap s = s := by
  have hsize := (memo_resolveAll (g := g)).1.size
  simp [remap, Array.getD, hsize, not_lt.2 hs]

/-- An end is its own end. -/
theorem remap_remap (s : Nat) : g.remap (g.remap s) = g.remap s := by
  obtain ⟨hmemo, hall⟩ := memo_resolveAll (g := g)
  by_cases hs : s < g.states.size
  · by_cases he : g.remap s < g.states.size
    · rcases hmemo.fixed s _ (hall s hs) with h | ⟨h, -⟩
      · exact Option.some.inj ((hall _ he).symm.trans h)
      · rw [hall _ he] at h
        cases h
    · exact remap_of_le (not_lt.1 he)
  · rw [remap_of_le (not_lt.1 hs), remap_of_le (not_lt.1 hs)]

/-- A no-op has the end of the state it goes on to, also if it is its own end. -/
theorem remap_of_bypass? {s t : Nat} (h : g.bypass? s = some t) : g.remap t = g.remap s := by
  obtain ⟨hmemo, hall⟩ := memo_resolveAll (g := g)
  have hs : s < g.states.size := (bypass?_eq_some h).2.2.2.2.2
  rcases hmemo.next s _ t (hall s hs) h with ht | rfl
  · rw [remap, show g.resolveAll.getD t none = some (g.remap s) from ht]
    rfl
  · exact remap_remap s

/-- Every state is passed by towards its end, or is its own end. -/
theorem passed_remap (s : Nat) : Passed g g.remap s := by
  obtain ⟨hmemo, hall⟩ := memo_resolveAll (g := g)
  by_cases hs : s < g.states.size
  · have hend : ∀ {t : Nat}, noted? g.resolveAll t = some (g.remap s) ∨ t = g.remap s →
        g.remap t = g.remap s := by
      rintro t (ht | rfl)
      · rw [remap, show g.resolveAll.getD t none = some (g.remap s) from ht]
        rfl
      · exact remap_remap s
    have hpassed : ∀ t, Way g g.resolveAll (g.remap s) t → g.remap t = g.remap s →
        Passed g g.remap t := by
      intro t hway ht
      induction hway with
      | stop => exact .here ht
      | step hstep hnext _ ih => exact .step hstep ((hend hnext).trans ht.symm) (ih (hend hnext))
    exact hpassed s (hmemo.way s _ (hall s hs)) rfl
  · exact .here (remap_of_le (not_lt.1 hs))

end Coroutine.Graph
