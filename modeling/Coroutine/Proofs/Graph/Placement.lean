import Mathlib
import Coroutine.Proofs.Graph.Stable
import Coroutine.Proofs.Machine.Nesting

/-!
# Where a region starts

The order of emission has every state of a region once, at its place (`Regular.regionNodes_eq`), and
begins with the state that runs first in the region: `Regular.head?_regionNodes`. A block is therefore
entered at its first instruction.
-/

namespace Coroutine.Graph

variable {g : Graph} {n r s : Nat}

/-! ## Placement -/

/-- The state that is placed next. -/
theorem place_succ (fuel : Nat) (remaining : List Nat) (cursor : Option Nat) :
    g.place (fuel + 1) remaining cursor = [] ∧ remaining = [] ∨
      ∃ id rest, g.place (fuel + 1) remaining cursor = id :: rest ∧ id ∈ remaining ∧
        ∃ cursor', rest = g.place fuel (remaining.filter (· != id)) cursor' := by
  rw [place]
  split
  · rename_i hnone
    rw [Option.orElse_eq_orElse, Option.orElse_eq_or, Option.or_eq_none_iff] at hnone
    exact .inl ⟨rfl, List.head?_eq_none_iff.1 hnone.2⟩
  · rename_i id hsome
    refine .inr ⟨id, _, rfl, ?_, _, rfl⟩
    rw [Option.orElse_eq_orElse, Option.orElse_eq_or, Option.or_eq_some_iff] at hsome
    rcases hsome with hsome | ⟨-, hsome⟩
    · simpa using (Option.filter_eq_some_iff.1 hsome).2
    · exact List.mem_of_head? hsome

theorem mem_of_mem_place {x : Nat} : ∀ {fuel : Nat} {remaining : List Nat} {cursor : Option Nat},
    x ∈ g.place fuel remaining cursor → x ∈ remaining
  | 0, _, _, h => by cases h
  | fuel + 1, remaining, cursor, h => by
    rcases place_succ (g := g) fuel remaining cursor with ⟨hnil, -⟩ | ⟨id, rest, hcons, hid, c, rfl⟩
    · rw [hnil] at h
      cases h
    · rw [hcons] at h
      rcases List.mem_cons.1 h with rfl | h
      · exact hid
      · exact List.mem_of_mem_filter (mem_of_mem_place h)

theorem nodup_place : ∀ (fuel : Nat) (remaining : List Nat) (cursor : Option Nat),
    (g.place fuel remaining cursor).Nodup
  | 0, _, _ => List.nodup_nil
  | fuel + 1, remaining, cursor => by
    rcases place_succ (g := g) fuel remaining cursor with ⟨hnil, -⟩ | ⟨id, rest, hcons, -, c, rfl⟩
    · rw [hnil]
      exact List.nodup_nil
    · rw [hcons]
      refine List.nodup_cons.2 ⟨fun h => ?_, nodup_place fuel _ c⟩
      simpa using (List.mem_filter.1 (mem_of_mem_place h)).2

/-- With enough fuel every state is placed. -/
theorem mem_place {x : Nat} : ∀ {fuel : Nat} {remaining : List Nat} (cursor : Option Nat),
    remaining.length ≤ fuel → x ∈ remaining → x ∈ g.place fuel remaining cursor
  | 0, remaining, _, hlen, hx => by
    rw [List.length_eq_zero_iff.1 (Nat.le_zero.1 hlen)] at hx
    cases hx
  | fuel + 1, remaining, cursor, hlen, hx => by
    rcases place_succ (g := g) fuel remaining cursor with ⟨-, rfl⟩ | ⟨id, rest, hcons, hid, c, rfl⟩
    · cases hx
    · rw [hcons, List.mem_cons]
      by_cases heq : x = id
      · exact .inl heq
      · have hlt : (remaining.filter (· != id)).length < remaining.length :=
          List.length_filter_lt_length_iff_exists.2 ⟨id, hid, by simp⟩
        exact .inr (mem_place c (by omega) (List.mem_filter.2 ⟨hx, by simpa using heq⟩))

theorem nodup_placement (r : Nat) : (g.placement r).Nodup := by
  rw [placement]
  split
  · exact List.nodup_nil
  · exact nodup_place _ _ _

theorem mem_liveNodes_of_mem_placement {x : Nat} (h : x ∈ g.placement r) : x ∈ g.liveNodes r := by
  rw [placement] at h
  split at h
  · cases h
  · exact mem_of_mem_place h

/-- A region that starts somewhere has all its states placed. -/
theorem mem_placement {x : Nat} (hstart : g.regionStart? r = some s) :
    x ∈ g.placement r ↔ x ∈ g.liveNodes r := by
  refine ⟨mem_liveNodes_of_mem_placement, fun hx => ?_⟩
  simp only [placement, hstart]
  exact mem_place _ le_rfl hx

/-- If it starts with one of its states, this is placed first. -/
theorem head?_placement (hstart : g.regionStart? r = some s) (hs : s ∈ g.liveNodes r) :
    (g.placement r).head? = some s := by
  simp only [placement, hstart]
  obtain ⟨k, hk⟩ : ∃ k, (g.liveNodes r).length = k + 1 :=
    Nat.exists_eq_succ_of_ne_zero (List.length_pos_of_mem hs).ne'
  have hcursor : (some s).filter (g.liveNodes r).contains = some s := by simp [hs]
  rw [hk, place, hcursor]
  rfl

/-! ## Orders -/

namespace Regular

variable (hg : g.Regular n) (hlaid : g.layout = g) (hr : r < g.zones.size)
  (hk : (g.zone r).kind.isRegion = true) (hstart : g.regionStart? r = some s)
include hg hlaid hr hk hstart

/-- The order of a state is its place. -/
theorem getElem?_placement {x : Nat} (hx : x ∈ g.liveNodes r) :
    (g.placement r)[(g.state x).order]? = some x := by
  have hregion : ∀ {q}, q ∈ g.regions → x ∈ g.liveNodes q → g.isLive x = true ∧
      (g.state x).region = q := by
    intro q hq hxq
    obtain ⟨hlt, hkind⟩ := List.mem_filter.1 hq
    exact (hg.mem_regionNodes (List.mem_range.1 hlt) hkind).1 (List.mem_mergeSort.2 hxq)
  have hr' : r ∈ g.regions := List.mem_filter.2 ⟨List.mem_range.2 hr, hk⟩
  obtain ⟨hlive, hxr⟩ := hregion hr' hx
  -- the state has one place in one region
  have hmem : ∀ i, (x, i) ∈ g.orders → (g.placement r)[i]? = some x := by
    intro i hi
    obtain ⟨q, hq, hi⟩ := List.mem_flatMap.1 hi
    have hget := List.mem_zipIdx_iff_getElem?.1 hi
    have hxq := (hregion hq (mem_liveNodes_of_mem_placement (List.mem_of_getElem? hget))).2
    rw [← hxr, hxq]
    exact hget
  obtain ⟨i, hi⟩ : ∃ i, g.orders.reverse.lookup x = some i := by
    obtain ⟨i, hlt, hget⟩ := List.getElem_of_mem ((mem_placement hstart).2 hx)
    refine Option.isSome_iff_exists.1 (List.lookup_isSome_iff.2 ⟨(x, i), ?_, by simp⟩)
    refine List.mem_reverse.2 (List.mem_flatMap.2 ⟨r, hr', ?_⟩)
    exact List.mem_zipIdx_iff_getElem?.2 (List.getElem?_eq_some_iff.2 ⟨hlt, hget⟩)
  have horder : (g.state x).order = i := by
    have h := order_setAll g.orders g (g.isLive_iff.1 hlive).1
    rw [← layout_eq, hlaid, hi] at h
    exact h
  rw [horder]
  exact hmem i (List.mem_reverse.1 (Assembly.mem_of_lookup hi))

theorem map_order_placement :
    (g.placement r).map (fun x => (g.state x).order) = List.range (g.placement r).length := by
  refine List.ext_getElem (by simp) fun i hi hi' => ?_
  rw [List.length_map] at hi
  have hplace := hg.getElem?_placement hlaid hr hk hstart
    ((mem_placement hstart).1 (List.getElem_mem hi))
  obtain ⟨hlt, hget⟩ := List.getElem?_eq_some_iff.1 hplace
  rw [List.getElem_map, List.getElem_range]
  exact (List.Nodup.getElem_inj_iff (nodup_placement r)).1 hget

/-- States are emitted in their places. -/
theorem regionNodes_eq : g.regionNodes r = g.placement r := by
  have hsorted : (g.regionNodes r).Pairwise fun a b => (g.state a).order ≤ (g.state b).order := by
    have h : (g.regionNodes r).Pairwise fun a b =>
        decide ((g.state a).order ≤ (g.state b).order) = true :=
      List.pairwise_mergeSort (fun a b c hab hbc => by simp only [decide_eq_true_eq] at *; omega)
        (fun a b => by simp only [Bool.or_eq_true, decide_eq_true_eq]; omega) _
    exact h.imp of_decide_eq_true
  have hplaced : (g.placement r).Pairwise fun a b => (g.state a).order ≤ (g.state b).order := by
    have h : ((g.placement r).map fun x => (g.state x).order).Pairwise (· ≤ ·) := by
      rw [hg.map_order_placement hlaid hr hk hstart]
      exact List.pairwise_le_range
    exact List.pairwise_map.1 h
  have hmem {x : Nat} : x ∈ g.regionNodes r ↔ x ∈ g.liveNodes r := List.mem_mergeSort
  refine List.Perm.eq_of_pairwise (fun a b ha hb hab hba => ?_) hsorted hplaced
    ((List.perm_ext_iff_of_nodup (hg.nodup_regionNodes hr hk) (nodup_placement r)).2 fun x =>
      hmem.trans (mem_placement hstart).symm)
  have ha' := hg.getElem?_placement hlaid hr hk hstart (hmem.1 ha)
  rw [le_antisymm hab hba, hg.getElem?_placement hlaid hr hk hstart ((mem_placement hstart).1 hb)]
    at ha'
  exact (Option.some.inj ha').symm

/-- The orders of a region's states are the numbers from zero on. -/
theorem map_order_regionNodes : (g.regionNodes r).map (fun x => (g.state x).order) =
    List.range (g.regionNodes r).length := by
  rw [hg.regionNodes_eq hlaid hr hk hstart, hg.map_order_placement hlaid hr hk hstart]

/-- The state that runs first in a region is emitted first. -/
theorem head?_regionNodes (hs : s ∈ g.regionNodes r) : (g.regionNodes r).head? = some s := by
  rw [hg.regionNodes_eq hlaid hr hk hstart]
  exact head?_placement hstart (List.mem_mergeSort.1 hs)

end Regular

end Coroutine.Graph
