import Mathlib
import Coroutine.Graph.Basic

/-!
# Zones and the regions around a region

`Zoned` says how the zones of a graph nest: every zone but the top one has a parent that is older,
and its region is itself or that of its parent. So the walk from a region outwards ends at the top
region, and `regionChain` is that walk whatever fuel it is given.
-/

namespace Coroutine.Graph

variable {r : Nat}

/-- Zones are younger than their parents, and every zone knows the region it is emitted in. -/
structure Zoned (g : Graph) : Prop where
  pos : 0 < g.zones.size
  top_parent : (g.zone top).parent = none
  top_region : (g.zone top).region = top
  top_kind : (g.zone top).kind = .top
  inner : ∀ z, z < g.zones.size → z ≠ top →
    (g.zone z).kind ≠ .top ∧ ∃ p, (g.zone z).parent = some p ∧ p < z
  region : ∀ z p, z < g.zones.size → (g.zone z).parent = some p →
    (g.zone z).region = if (g.zone z).kind.isRegion then z else (g.zone p).region

/-- Whether zones nest depends on their kinds, parents and regions only. -/
theorem Zoned.congr {g g' : Graph} (h : g.Zoned) (hsize : g'.zones.size = g.zones.size)
    (hkind : ∀ z, (g'.zone z).kind = (g.zone z).kind)
    (hparent : ∀ z, (g'.zone z).parent = (g.zone z).parent)
    (hregion : ∀ z, (g'.zone z).region = (g.zone z).region) : g'.Zoned where
  pos := hsize ▸ h.pos
  top_parent := (hparent top).trans h.top_parent
  top_region := (hregion top).trans h.top_region
  top_kind := (hkind top).trans h.top_kind
  inner z hz hne := by
    rw [hkind, hparent]
    exact h.inner z (hsize ▸ hz) hne
  region z p hz hp := by
    rw [hparent] at hp
    rw [hkind, hregion, hregion]
    exact h.region z p (hsize ▸ hz) hp

namespace Zoned

variable {g : Graph} (hg : g.Zoned)
include hg

/-- A parent is an older zone. -/
theorem parent_lt {z p : Nat} (hz : z < g.zones.size) (hp : (g.zone z).parent = some p) : p < z := by
  have hne : z ≠ top := by
    rintro rfl
    rw [hg.top_parent] at hp
    cases hp
  obtain ⟨-, q, hq, hlt⟩ := hg.inner z hz hne
  rw [hp] at hq
  cases hq
  exact hlt

/-- The region of a zone is a region, not younger than the zone. -/
theorem region_spec {z : Nat} (hz : z < g.zones.size) :
    (g.zone z).region ≤ z ∧ (g.zone (g.zone z).region).kind.isRegion = true ∧
      (g.zone (g.zone z).region).region = (g.zone z).region := by
  induction z using Nat.strong_induction_on with
  | _ z ih =>
    by_cases htop : z = top
    · subst htop
      rw [hg.top_region]
      exact ⟨le_rfl, by rw [hg.top_kind]; rfl, hg.top_region⟩
    · obtain ⟨-, p, hp, hlt⟩ := hg.inner z hz htop
      have hregion := hg.region z p hz hp
      by_cases hkind : (g.zone z).kind.isRegion = true
      · rw [if_pos hkind] at hregion
        rw [hregion]
        exact ⟨le_rfl, hkind, hregion⟩
      · rw [if_neg hkind] at hregion
        obtain ⟨hle, hk, hr⟩ := ih p hlt (hlt.trans hz)
        rw [hregion]
        exact ⟨by omega, hk, hr⟩

theorem region_lt {z : Nat} (hz : z < g.zones.size) : (g.zone z).region < g.zones.size :=
  (hg.region_spec hz).1.trans_lt hz

/-- A zone that is a region is its own region. -/
theorem region_of_isRegion {z : Nat} (hz : z < g.zones.size)
    (hk : (g.zone z).kind.isRegion = true) : (g.zone z).region = z := by
  by_cases htop : z = top
  · subst htop
    exact hg.top_region
  · obtain ⟨-, p, hp, -⟩ := hg.inner z hz htop
    rw [hg.region z p hz hp, if_pos hk]

/-- The region around a region is older. -/
theorem parentRegion_lt {p : Nat} (hr : r < g.zones.size) (hp : g.parentRegion? r = some p) :
    p < r := by
  obtain ⟨z, hz, rfl⟩ := Option.map_eq_some_iff.1 hp
  have hlt := hg.parent_lt hr hz
  exact (hg.region_spec (hlt.trans hr)).1.trans_lt hlt

theorem parentRegion_top : g.parentRegion? top = none := by
  simp [parentRegion?, hg.top_parent]

/-- Every region but the top one lies in another. -/
theorem exists_parentRegion (hr : r < g.zones.size) (hne : r ≠ top) :
    ∃ p, g.parentRegion? r = some p := by
  obtain ⟨-, p, hp, -⟩ := hg.inner r hr hne
  exact ⟨_, by rw [parentRegion?, hp]; rfl⟩

/-! ## Walking outwards -/

/-- More fuel than a region's number does not change the walk. -/
theorem regionsFrom_of_lt {fuel : Nat} (hr : r < g.zones.size) (hf : r < fuel) :
    g.regionsFrom fuel r = g.regionChain r := by
  induction r using Nat.strong_induction_on generalizing fuel with
  | _ r ih =>
    obtain ⟨fuel, rfl⟩ : ∃ n, fuel = n + 1 := ⟨fuel - 1, by omega⟩
    simp only [regionChain, regionsFrom]
    cases hp : g.parentRegion? r with
    | none => rfl
    | some p =>
      have hlt := hg.parentRegion_lt hr hp
      simp only
      rw [ih p hlt (hlt.trans hr) (by omega), ih p hlt (hlt.trans hr) hlt]

theorem regionChain_top : g.regionChain top = [top] := by
  simp [regionChain, regionsFrom, hg.parentRegion_top]

/-- One step of the walk. -/
theorem regionChain_of_parent {p : Nat} (hr : r < g.zones.size) (hp : g.parentRegion? r = some p) :
    g.regionChain r = r :: g.regionChain p := by
  have hlt := hg.parentRegion_lt hr hp
  rw [regionChain, regionsFrom, hp]
  simp only
  rw [hg.regionsFrom_of_lt (hlt.trans hr) hlt]

omit hg in
/-- A walk starts where it starts. -/
theorem mem_regionChain_self : r ∈ g.regionChain r := by
  simp [regionChain, regionsFrom]

/-- Induction along the walk from a region to the top. -/
theorem region_induction {motive : Nat → Prop} (htop : motive top)
    (hstep : ∀ r p, r < g.zones.size → g.parentRegion? r = some p → motive p → motive r)
    (hr : r < g.zones.size) : motive r := by
  induction r using Nat.strong_induction_on with
  | _ r ih =>
    by_cases hne : r = top
    · subst hne
      exact htop
    · obtain ⟨p, hp⟩ := hg.exists_parentRegion hr hne
      have hlt := hg.parentRegion_lt hr hp
      exact hstep r p hr hp (ih p hlt (hlt.trans hr))

/-- The regions of a walk are not younger than its start. -/
theorem le_of_mem_regionChain {q : Nat} (hr : r < g.zones.size) (hq : q ∈ g.regionChain r) :
    q ≤ r := by
  revert hq
  refine hg.region_induction (motive := fun r => q ∈ g.regionChain r → q ≤ r) ?_ ?_ hr
  · rw [hg.regionChain_top]
    intro hq
    simp_all
  · intro r p hr hp ih hq
    rw [hg.regionChain_of_parent hr hp] at hq
    rcases List.mem_cons.1 hq with rfl | hq
    · exact le_rfl
    · exact (ih hq).trans (hg.parentRegion_lt hr hp).le

/-- What lies around a region around a region lies around that region. -/
theorem mem_regionChain_trans {q o : Nat} (hr : r < g.zones.size) (hq : q ∈ g.regionChain r)
    (ho : o ∈ g.regionChain q) : o ∈ g.regionChain r := by
  revert hq
  refine hg.region_induction (motive := fun r => q ∈ g.regionChain r → o ∈ g.regionChain r)
    ?_ ?_ hr
  · rw [hg.regionChain_top]
    intro hq
    obtain rfl : q = top := by simpa using hq
    rwa [hg.regionChain_top] at ho
  · intro r p hr hp ih hq
    rw [hg.regionChain_of_parent hr hp] at hq ⊢
    rcases List.mem_cons.1 hq with rfl | hq
    · rwa [hg.regionChain_of_parent hr hp] at ho
    · exact List.mem_cons_of_mem _ (ih hq)

/-- The top region lies around every region. -/
theorem top_mem_regionChain (hr : r < g.zones.size) : top ∈ g.regionChain r := by
  refine hg.region_induction (motive := fun r => top ∈ g.regionChain r) mem_regionChain_self ?_ hr
  intro r p hr hp ih
  rw [hg.regionChain_of_parent hr hp]
  exact List.mem_cons_of_mem _ ih

omit hg in
theorem encloses_iff {outer : Nat} : g.encloses outer r = true ↔ outer ∈ g.regionChain r := by
  simp [encloses]

end Zoned

end Coroutine.Graph
