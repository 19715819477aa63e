import Mathlib
import Coroutine.Proofs.Graph.Zones
import Coroutine.Proofs.Lowering.Result
import Coroutine.Proofs.Program.Labels

/-!
# Tables of blocks

The table of a region has one entry for every state to resume at that lies in the region or inside
it. The entry leads to the state itself, or to where the region is entered again that stands directly
inside and around the state. So the tables of the regions around a state lead to it one after the
other.
-/

namespace Coroutine

/-! ## States to resume at -/

/-- Without its repetitions a sorted list increases. -/
theorem eraseReps_loop_spec : ∀ (l : List Nat) (a : Nat) (acc : List Nat),
    (a :: l).Pairwise (· ≤ ·) → (a :: acc).Pairwise (· > ·) →
    (List.eraseRepsBy.loop (· == ·) a l acc).Pairwise (· < ·) ∧
      ∀ x, x ∈ List.eraseRepsBy.loop (· == ·) a l acc ↔ x ∈ acc ∨ x ∈ a :: l
  | [], a, acc, _, hacc => by
    refine ⟨List.pairwise_reverse.2 hacc, fun x => ?_⟩
    simp [List.eraseRepsBy.loop, or_comm]
  | b :: l, a, acc, hl, hacc => by
    rw [List.eraseRepsBy.loop]
    obtain ⟨ha, hl⟩ := List.pairwise_cons.1 hl
    have hab := ha b List.mem_cons_self
    split
    -- the next one is the same, and is left out
    · rename_i heq
      obtain rfl : a = b := by simpa using heq
      obtain ⟨hsorted, hmem⟩ := eraseReps_loop_spec l a acc hl hacc
      refine ⟨hsorted, fun x => ?_⟩
      rw [hmem]
      simp
    -- the next one is greater, and is kept
    · rename_i hne
      have hlt : a < b := lt_of_le_of_ne hab (by simpa using hne)
      have hacc' : (b :: a :: acc).Pairwise (· > ·) := by
        refine List.pairwise_cons.2 ⟨fun x hx => ?_, hacc⟩
        rcases List.mem_cons.1 hx with rfl | hx
        · exact hlt
        · exact ((List.pairwise_cons.1 hacc).1 x hx).trans hlt
      obtain ⟨hsorted, hmem⟩ := eraseReps_loop_spec l b (a :: acc) hl hacc'
      refine ⟨hsorted, fun x => ?_⟩
      rw [hmem]
      simp only [List.mem_cons]
      tauto

/-- Repetitions of a sorted list are gone, and nothing else. -/
theorem eraseReps_spec {l : List Nat} (hl : l.Pairwise (· ≤ ·)) :
    l.eraseReps.Pairwise (· < ·) ∧ ∀ x, x ∈ l.eraseReps ↔ x ∈ l := by
  cases l with
  | nil => exact ⟨.nil, fun x => Iff.rfl⟩
  | cons a l =>
    obtain ⟨hsorted, hmem⟩ := eraseReps_loop_spec l a [] hl (List.pairwise_singleton _ _)
    refine ⟨hsorted, fun x => ?_⟩
    rw [List.eraseReps, List.eraseRepsBy, hmem]
    simp

namespace Graph

variable {g : Graph}

/-- The states to resume at are sorted, and those of live suspensions. -/
theorem resumeStates_spec : g.resumeStates.Pairwise (· < ·) ∧ ∀ r, r ∈ g.resumeStates ↔
    r ∈ g.liveStates.filterMap fun (_, s) => s.transition.bind Transition.resumeTarget? := by
  have hsorted : ∀ l : List Nat, (l.mergeSort (· ≤ ·)).Pairwise (· ≤ ·) := by
    intro l
    refine (List.pairwise_mergeSort (fun a b c hab hbc => ?_) (fun a b => ?_) l).imp ?_
    · simp only [decide_eq_true_eq] at hab hbc ⊢
      exact hab.trans hbc
    · simpa using Nat.le_total a b
    · intro a b hab
      simpa using hab
  obtain ⟨hlt, hmem⟩ := eraseReps_spec (hsorted (g.liveStates.filterMap fun (_, s) =>
    s.transition.bind Transition.resumeTarget?))
  exact ⟨hlt, fun r => (hmem r).trans List.mem_mergeSort⟩

/-- No state to resume at is listed twice. -/
theorem nodup_resumeStates : g.resumeStates.Nodup :=
  resumeStates_spec.1.imp fun h => h.ne

/-- The states to resume at are the resume targets of the states that are left. -/
theorem mem_resumeStates {r : Nat} : r ∈ g.resumeStates ↔
    ∃ s t, g.isLive s = true ∧ (g.state s).transition = some t ∧ t.resumeTarget? = some r := by
  rw [resumeStates_spec.2]
  constructor
  · intro h
    obtain ⟨⟨s, x⟩, hx, hr⟩ := List.mem_filterMap.1 h
    obtain ⟨hlive, rfl⟩ := mem_liveStates.1 hx
    obtain ⟨t, ht, hr⟩ := Option.bind_eq_some_iff.1 hr
    exact ⟨s, t, hlive, ht, hr⟩
  · rintro ⟨s, t, hlive, ht, hr⟩
    refine List.mem_filterMap.2 ⟨(s, g.state s), mem_liveStates.2 ⟨hlive, rfl⟩, ?_⟩
    simpa [ht] using hr

end Graph

namespace Assembly

variable {g : Graph} {q r c : Nat}

/-! ## Rows -/

/-- A row is that of its state. -/
theorem state_of_tableRow? {row : TableRow} (h : tableRow? g q c = some row) :
    row.state = Int.ofNat c := by
  unfold tableRow? at h
  simp only at h
  split at h
  · cases h
    rfl
  · split at h
    · obtain ⟨owner, -, rfl⟩ := Option.map_eq_some_iff.1 h
      rfl
    · cases h

/-- Each state has at most one row: by induction on the states. -/
theorem filter_rows : ∀ {l : List Nat}, l.Nodup → c ∈ l →
    (l.filterMap (tableRow? g q)).filter (·.state == Int.ofNat c) = (tableRow? g q c).toList
  | a :: l, hnodup, hc => by
    obtain ⟨ha, hl⟩ := List.nodup_cons.1 hnodup
    rw [List.filterMap_cons]
    by_cases hac : a = c
    -- no other row is for this state, since states are listed once
    · subst hac
      have hrest : (l.filterMap (tableRow? g q)).filter (·.state == Int.ofNat a) = [] := by
        refine List.filter_eq_nil_iff.2 fun row hrow => ?_
        obtain ⟨b, hb, hrow⟩ := List.mem_filterMap.1 hrow
        rw [state_of_tableRow? hrow, beq_iff_eq]
        exact fun heq => ha (Int.ofNat.inj heq ▸ hb)
      split
      · rename_i hnone
        rw [hrest, hnone]
        rfl
      · rename_i row hsome
        rw [List.filter_cons_of_pos, hrest, hsome]
        · rfl
        · simp [state_of_tableRow? hsome]
    · have hcl : c ∈ l := (List.mem_cons.1 hc).resolve_left (Ne.symm hac)
      split
      · exact filter_rows hl hcl
      · rename_i row hsome
        rw [List.filter_cons_of_neg, filter_rows hl hcl]
        rw [state_of_tableRow? hsome]
        simpa using hac

/-- A table has at most one entry for a state. -/
theorem filter_table (hc : c ∈ g.resumeStates) :
    (table g q).filter (·.state == Int.ofNat c) = (tableRow? g q c).toList :=
  filter_rows Graph.nodup_resumeStates hc

/-- The row that is found for a state is its own. -/
theorem find?_table (hc : c ∈ g.resumeStates) :
    (table g q).find? (·.state == Int.ofNat c) = tableRow? g q c := by
  rw [← List.head?_filter, filter_table hc]
  cases tableRow? g q c <;> rfl

/-- The entry for a state of the region itself. -/
theorem tableRow?_home : tableRow? g (g.state c).region c = some ⟨c, .state c, false⟩ := by
  simp [tableRow?]

/-- Towards a region, the walk from there comes to the child right before it comes to the parent. -/
theorem takeWhile_regionChain (hg : g.Zoned) {k : Nat} (hr : r < g.zones.size)
    (hk : k ∈ g.regionChain r) (hq : g.parentRegion? k = some q) :
    ∃ l, (g.regionChain r).takeWhile (· != q) = l ++ [k] := by
  have hklt : k < g.zones.size := (hg.le_of_mem_regionChain hr hk).trans_lt hr
  have hqk := hg.parentRegion_lt hklt hq
  revert hk
  refine hg.region_induction (motive := fun r => k ∈ g.regionChain r →
    ∃ l, (g.regionChain r).takeWhile (· != q) = l ++ [k]) ?_ ?_ hr
  -- the outermost region has no parent
  · intro hk
    rw [hg.regionChain_top, List.mem_singleton] at hk
    subst hk
    rw [hg.parentRegion_top] at hq
    cases hq
  · intro r p hr hp ih hk
    rw [hg.regionChain_of_parent hr hp] at hk ⊢
    by_cases hrk : r = k
    -- the region is the one below its parent, where the chain is cut
    · subst hrk
      obtain rfl := Option.some.inj (hp.symm.trans hq)
      have hhead : ∃ rest, g.regionChain p = p :: rest := by
        rw [Graph.regionChain, Graph.regionsFrom]
        exact ⟨_, rfl⟩
      obtain ⟨rest, hrest⟩ := hhead
      refine ⟨[], ?_⟩
      rw [hrest, List.takeWhile_cons_of_pos (by simpa using hqk.ne'),
        List.takeWhile_cons_of_neg (by simp)]
      rfl
    · have hkp : k ∈ g.regionChain p := (List.mem_cons.1 hk).resolve_left (Ne.symm hrk)
      obtain ⟨l, hl⟩ := ih hkp
      have hplt := hg.parentRegion_lt hr hp
      have hkle := hg.le_of_mem_regionChain (hplt.trans hr) hkp
      refine ⟨r :: l, ?_⟩
      rw [List.takeWhile_cons_of_pos (by simp only [bne_iff_ne]; omega), hl]
      rfl

/-- The entry for a state inside a child of the region. -/
theorem tableRow?_inner (hg : g.Zoned) {k s : Nat} (hr : (g.state c).region < g.zones.size)
    (hk : k ∈ g.regionChain (g.state c).region) (hq : g.parentRegion? k = some q)
    (howner : (g.zone k).owner = some s) :
    tableRow? g q c = some ⟨c, .reentry s, true⟩ := by
  have hklt : k < g.zones.size := (hg.le_of_mem_regionChain hr hk).trans_lt hr
  have hqk := hg.parentRegion_lt hklt hq
  have hne : (g.state c).region ≠ q := by
    have := hg.le_of_mem_regionChain hr hk
    omega
  have hencloses : g.encloses q (g.state c).region = true := by
    refine Graph.Zoned.encloses_iff.2 (hg.mem_regionChain_trans hr hk ?_)
    rw [hg.regionChain_of_parent hklt hq]
    exact List.mem_cons_of_mem _ Graph.Zoned.mem_regionChain_self
  obtain ⟨l, hl⟩ := takeWhile_regionChain hg hr hk hq
  have hchild : childToward g q (g.state c).region = k := by
    rw [childToward, hl, List.getLastD_concat]
  simp [tableRow?, hne, hencloses, hchild, howner]

end Assembly

end Coroutine
