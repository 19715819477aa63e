import Mathlib
import Coroutine.Proofs.Graph.Edits
import Coroutine.Proofs.Graph.Zones

/-!
# The shape of a graph under construction

`Shape` is what every building edit keeps, whatever is built: zones nest, the open zones are a path
from the innermost one to the top, every state knows its zone and region, and every state is listed
exactly once among the zones that hold states. These are the regions and the open zones; a loop,
handler or cleanup zone hands its states over to its parent when it closes.
-/

namespace Coroutine.Graph

/-- The zones of a list lead from one zone outwards to the top. -/
def Outwards (g : Graph) : List Nat → Prop
  | [] => False
  | [z] => z = top
  | z :: p :: rest => z < g.zones.size ∧ (g.zone z).parent = some p ∧ g.Outwards (p :: rest)

/-- Whether a zone holds states of its own: it is a region, or still open. -/
def Holds (g : Graph) (z : Nat) : Prop :=
  z < g.zones.size ∧ ((g.zone z).kind.isRegion = true ∨ z ∈ g.openZones)

/-- The shape of a graph under construction. -/
structure Shape (g : Graph) : Prop where
  zoned : g.Zoned
  outwards : g.Outwards g.openZones
  home : ∀ s < g.states.size, (g.state s).zone < g.zones.size ∧
    (g.state s).region = (g.zone (g.state s).zone).region
  node : ∀ z < g.zones.size, ∀ s ∈ (g.zone z).nodes, s < g.states.size ∧
    (g.state s).region = (g.zone z).region
  held : ∀ s < g.states.size, ∃ z, g.Holds z ∧ s ∈ (g.zone z).nodes
  once : ∀ z, g.Holds z → (g.zone z).nodes.Nodup
  apart : ∀ y z, g.Holds y → g.Holds z → y ≠ z → ∀ s ∈ (g.zone y).nodes, s ∉ (g.zone z).nodes

/-! ## Open zones -/

/-- A path outwards only looks at the parents of its zones. -/
theorem Outwards.mono {g g' : Graph} (hsize : g.zones.size ≤ g'.zones.size)
    (hparent : ∀ z < g.zones.size, (g'.zone z).parent = (g.zone z).parent) :
    ∀ {zs : List Nat}, g.Outwards zs → g'.Outwards zs
  | [z], h => h
  | z :: p :: rest, ⟨hz, hp, h⟩ => ⟨hz.trans_le hsize, by rw [hparent z hz, hp], h.mono hsize hparent⟩

/-- The zones of a path exist and get older on the way. -/
theorem Outwards.lt {g : Graph} (hg : g.Zoned) : ∀ {z : Nat} {rest : List Nat},
    g.Outwards (z :: rest) → z < g.zones.size ∧ ∀ y ∈ rest, y < z
  | z, [], h => by
    obtain rfl : z = top := h
    exact ⟨hg.pos, by simp⟩
  | z, p :: rest, ⟨hz, hp, h⟩ => by
    have hpz := hg.parent_lt hz hp
    refine ⟨hz, fun y hy => ?_⟩
    rcases List.mem_cons.1 hy with rfl | hy
    · exact hpz
    · exact ((h.lt hg).2 y hy).trans hpz

/-- Zones that lie outwards are zones of the graph. -/
theorem Outwards.mem_lt {g : Graph} (hg : g.Zoned) {zs : List Nat} (h : g.Outwards zs) {z : Nat}
    (hz : z ∈ zs) : z < g.zones.size := by
  cases zs with
  | nil => cases hz
  | cons y rest =>
    obtain ⟨hy, hlt⟩ := h.lt hg
    rcases List.mem_cons.1 hz with rfl | hz
    · exact hy
    · exact (hlt z hz).trans hy

namespace Shape

variable {g : Graph} (h : g.Shape)
include h

/-- The innermost open zone is open and exists. -/
theorem currentZone_mem : g.currentZone ∈ g.openZones := by
  have hout := h.outwards
  unfold currentZone
  cases hz : g.openZones with
  | nil =>
    rw [hz] at hout
    exact hout.elim
  | cons z rest => simp

/-- The zone that is open is one of the zones. -/
theorem currentZone_lt : g.currentZone < g.zones.size :=
  h.outwards.mem_lt h.zoned h.currentZone_mem

/-- The zone that is open may be given states. -/
theorem currentZone_holds : g.Holds g.currentZone := ⟨h.currentZone_lt, .inr h.currentZone_mem⟩

/-- The region of a state is a region. -/
theorem region_lt {s : Nat} (hs : s < g.states.size) : (g.state s).region < g.zones.size := by
  obtain ⟨hz, hr⟩ := h.home s hs
  rw [hr]
  exact h.zoned.region_lt hz

/-- A state belongs to a region. -/
theorem region_isRegion {s : Nat} (hs : s < g.states.size) :
    (g.zone (g.state s).region).kind.isRegion = true := by
  obtain ⟨hz, hr⟩ := h.home s hs
  rw [hr]
  exact (h.zoned.region_spec hz).2.1

omit h in
/-- The shape only depends on where states and zones belong. -/
theorem congr {g g' : Graph} (h : g.Shape) (hsize : g'.states.size = g.states.size)
    (hstate : ∀ s, (g'.state s).zone = (g.state s).zone ∧ (g'.state s).region = (g.state s).region)
    (hzones : g'.zones.size = g.zones.size)
    (hzone : ∀ z, (g'.zone z).kind = (g.zone z).kind ∧ (g'.zone z).parent = (g.zone z).parent ∧
      (g'.zone z).region = (g.zone z).region ∧ (g'.zone z).nodes = (g.zone z).nodes)
    (hopen : g'.openZones = g.openZones) : g'.Shape := by
  have hholds : ∀ z, g'.Holds z ↔ g.Holds z := by
    intro z
    unfold Holds
    rw [hzones, (hzone z).1, hopen]
  constructor
  · exact h.zoned.congr hzones (fun z => (hzone z).1) (fun z => (hzone z).2.1)
      fun z => (hzone z).2.2.1
  · rw [hopen]
    exact h.outwards.mono hzones.ge fun z _ => (hzone z).2.1
  · intro s hs
    rw [(hstate s).1, (hstate s).2, hzones, (hzone _).2.2.1]
    exact h.home s (hsize ▸ hs)
  · intro z hz s hs
    rw [(hzone z).2.2.2] at hs
    rw [(hstate s).2, (hzone z).2.2.1, hsize]
    exact h.node z (hzones ▸ hz) s hs
  · intro s hs
    obtain ⟨z, hz, hmem⟩ := h.held s (hsize ▸ hs)
    exact ⟨z, (hholds z).2 hz, by rwa [(hzone z).2.2.2]⟩
  · intro z hz
    rw [(hzone z).2.2.2]
    exact h.once z ((hholds z).1 hz)
  · intro y z hy hz hne s hs
    rw [(hzone y).2.2.2] at hs
    rw [(hzone z).2.2.2]
    exact h.apart y z ((hholds y).1 hy) ((hholds z).1 hz) hne s hs

/-! ## Edits keep the shape -/

/-- An edit of what a state does. -/
theorem modifyState (i : Nat) {f : State → State} (hf : ∀ x, (f x).zone = x.zone)
    (hf' : ∀ x, (f x).region = x.region) : (g.modifyState i f).Shape :=
  h.congr (by simp) (fun s => ⟨state_modifyState_proj g State.zone hf s,
    state_modifyState_proj g State.region hf' s⟩) rfl (fun _ => ⟨rfl, rfl, rfl, rfl⟩) rfl

/-- Giving a zone its owner keeps the shape. -/
theorem setOwner (r s : Nat) : (g.setOwner r s).Shape := by
  have hkeep : ∀ {α : Type} (π : Zone → α), (∀ x : Zone, π { x with owner := some s } = π x) →
      ∀ z, π ((g.setOwner r s).zone z) = π (g.zone z) := fun π hπ z =>
    zone_modifyZone_proj g π hπ z
  exact h.congr rfl (fun _ => ⟨rfl, rfl⟩) (by simp [Graph.setOwner])
    (fun z => ⟨hkeep Zone.kind (fun _ => rfl) z, hkeep Zone.parent (fun _ => rfl) z,
      hkeep Zone.region (fun _ => rfl) z, hkeep Zone.nodes (fun _ => rfl) z⟩) rfl

/-- A new state. -/
theorem addState : g.addState.2.Shape := by
  have hkind := zone_addState_proj g Zone.kind (fun _ _ => rfl)
  have hparent := zone_addState_proj g Zone.parent (fun _ _ => rfl)
  have hregion := zone_addState_proj g Zone.region (fun _ _ => rfl)
  have hold : ∀ s < g.states.size, g.addState.2.state s = g.state s := fun s hs =>
    state_addState_of_ne g hs.ne
  have hholds : ∀ z, g.addState.2.Holds z ↔ g.Holds z := by
    intro z
    simp only [Holds, size_zones_addState, hkind, openZones_addState]
  -- a zone lists its old states, and the current one also the new state
  have hmem : ∀ z s, s ∈ (g.addState.2.zone z).nodes ↔
      s ∈ (g.zone z).nodes ∨ z = g.currentZone ∧ s = g.states.size := by
    intro z s
    by_cases hz : z = g.currentZone
    · subst hz
      rw [zone_addState_current g h.currentZone_lt]
      simp
    · rw [zone_addState_of_ne g hz]
      simp [hz]
  have hfresh : ∀ z < g.zones.size, g.states.size ∉ (g.zone z).nodes := fun z hz hs =>
    (h.node z hz _ hs).1.false
  constructor
  · exact h.zoned.congr (size_zones_addState g) hkind hparent hregion
  · exact h.outwards.mono (by simp) fun z _ => hparent z
  · intro s hs
    rw [size_states_addState] at hs
    rw [size_zones_addState, hregion]
    by_cases hne : s = g.states.size
    · subst hne
      rw [state_addState_self]
      exact ⟨h.currentZone_lt, rfl⟩
    · rw [state_addState_of_ne g hne]
      exact h.home s (by omega)
  · intro z hz s hs
    rw [size_zones_addState] at hz
    rw [hregion, size_states_addState]
    rcases (hmem z s).1 hs with hs | ⟨rfl, rfl⟩
    · obtain ⟨hlt, hr⟩ := h.node z hz s hs
      rw [hold s hlt]
      exact ⟨by omega, hr⟩
    · rw [state_addState_self]
      exact ⟨by omega, rfl⟩
  · intro s hs
    rw [size_states_addState] at hs
    by_cases hne : s = g.states.size
    · exact ⟨g.currentZone, (hholds _).2 h.currentZone_holds, (hmem _ _).2 (.inr ⟨rfl, hne⟩)⟩
    · obtain ⟨z, hz, hs⟩ := h.held s (by omega)
      exact ⟨z, (hholds z).2 hz, (hmem z s).2 (.inl hs)⟩
  · intro z hz
    have hz := (hholds z).1 hz
    by_cases hc : z = g.currentZone
    · subst hc
      rw [zone_addState_current g h.currentZone_lt]
      exact List.Nodup.append (h.once _ hz) (List.nodup_singleton _)
        (List.disjoint_singleton.2 (hfresh _ hz.1))
    · rw [zone_addState_of_ne g hc]
      exact h.once z hz
  · intro y z hy hz hne s hs hs'
    have hy := (hholds y).1 hy
    have hz := (hholds z).1 hz
    rcases (hmem y s).1 hs with hs | ⟨hy', hs⟩ <;> rcases (hmem z s).1 hs' with hs' | ⟨hz', hs'⟩
    · exact h.apart y z hy hz hne s hs hs'
    · exact hfresh y hy.1 (hs' ▸ hs)
    · exact hfresh z hz.1 (hs ▸ hs')
    · exact hne (hy'.trans hz'.symm)

/-- A new zone. -/
theorem enterZone {kind : ZoneKind} (hkind : kind ≠ .top) : (g.enterZone kind).2.Shape := by
  have hold : ∀ z < g.zones.size, (g.enterZone kind).2.zone z = g.zone z := fun z hz =>
    zone_enterZone_of_ne g kind hz.ne
  have hcur := h.currentZone_lt
  -- the new zone holds no states yet; of the others, the same ones hold states as before
  have hholds : ∀ z, (g.enterZone kind).2.Holds z → z ≠ g.zones.size → g.Holds z := by
    rintro z ⟨hz, hz'⟩ hne
    rw [size_zones_enterZone] at hz
    have hlt : z < g.zones.size := by omega
    rw [hold z hlt, openZones_enterZone, List.mem_cons] at hz'
    exact ⟨hlt, hz'.imp_right fun hz' => hz'.resolve_left hne⟩
  have hholds' : ∀ z, g.Holds z → (g.enterZone kind).2.Holds z := by
    rintro z ⟨hz, hz'⟩
    refine ⟨by rw [size_zones_enterZone]; omega, ?_⟩
    rw [hold z hz, openZones_enterZone]
    exact hz'.imp_right fun hz' => List.mem_cons_of_mem _ hz'
  have hnew : ((g.enterZone kind).2.zone g.zones.size).nodes = [] := by
    rw [zone_enterZone_self]
  constructor
  · constructor
    · rw [size_zones_enterZone]; omega
    · rw [hold top h.zoned.pos]; exact h.zoned.top_parent
    · rw [hold top h.zoned.pos]; exact h.zoned.top_region
    · rw [hold top h.zoned.pos]; exact h.zoned.top_kind
    · intro z hz hne
      rw [size_zones_enterZone] at hz
      by_cases hz' : z = g.zones.size
      · subst hz'
        rw [zone_enterZone_self]
        exact ⟨hkind, g.currentZone, rfl, hcur⟩
      · rw [hold z (by omega)]
        exact h.zoned.inner z (by omega) hne
    · intro z p hz hp
      rw [size_zones_enterZone] at hz
      by_cases hz' : z = g.zones.size
      · subst hz'
        rw [zone_enterZone_self] at hp ⊢
        cases hp
        simp only [hold _ hcur]
      · have hlt : z < g.zones.size := by omega
        rw [hold z hlt] at hp ⊢
        rw [hold p ((h.zoned.parent_lt hlt hp).trans hlt)]
        exact h.zoned.region z p hlt hp
  · rw [openZones_enterZone]
    have hpath : (g.enterZone kind).2.Outwards g.openZones :=
      h.outwards.mono (by simp) fun z hz => by rw [hold z hz]
    cases hz : g.openZones with
    | nil =>
      rw [hz] at hpath
      exact hpath.elim
    | cons z rest =>
      rw [hz] at hpath
      refine ⟨by simp, ?_, hpath⟩
      rw [zone_enterZone_self]
      simp [currentZone, hz]
  · intro s hs
    rw [state_enterZone, size_zones_enterZone]
    obtain ⟨hz, hr⟩ := h.home s hs
    rw [hold _ hz]
    exact ⟨by omega, hr⟩
  · intro z hz s hs
    rw [size_zones_enterZone] at hz
    by_cases hz' : z = g.zones.size
    · subst hz'
      rw [hnew] at hs
      cases hs
    · have hlt : z < g.zones.size := by omega
      rw [hold z hlt] at hs ⊢
      exact h.node z hlt s hs
  · intro s hs
    obtain ⟨z, hz, hmem⟩ := h.held s hs
    exact ⟨z, hholds' z hz, by rwa [hold z hz.1]⟩
  · intro z hz
    by_cases hz' : z = g.zones.size
    · subst hz'
      rw [hnew]
      exact List.nodup_nil
    · have hz := hholds z hz hz'
      rw [hold z hz.1]
      exact h.once z hz
  · intro y z hy hz hne s hs hs'
    by_cases hy' : y = g.zones.size
    · subst hy'
      rw [hnew] at hs
      cases hs
    by_cases hz' : z = g.zones.size
    · subst hz'
      rw [hnew] at hs'
      cases hs'
    have hy := hholds y hy hy'
    have hz := hholds z hz hz'
    rw [hold y hy.1] at hs
    rw [hold z hz.1] at hs'
    exact h.apart y z hy hz hne s hs hs'

/-- The parent of the innermost open zone is the next one. -/
theorem parent_of_open {z p : Nat} {rest : List Nat} (hopen : g.openZones = z :: p :: rest) :
    (g.zone z).parent = some p ∧ p < z ∧ z < g.zones.size := by
  have hout := h.outwards
  rw [hopen] at hout
  exact ⟨hout.2.1, h.zoned.parent_lt hout.1 hout.2.1, hout.1⟩

section

variable {z p : Nat} {rest : List Nat} (hopen : g.openZones = z :: p :: rest)
include hopen

/-- The zones that hold states after one is closed: those that did before, but for the closed one
unless it is a region. -/
theorem holds_exitZone {y : Nat} : g.exitZone.2.Holds y ↔
    g.Holds y ∧ (y = z → (g.zone z).kind.isRegion = true) := by
  have hout := h.outwards
  rw [hopen] at hout
  have hlt := (hout.lt h.zoned).2
  simp only [Holds, size_zones_exitZone, openZones_exitZone, hopen, List.tail_cons,
    zone_exitZone_proj g Zone.kind fun _ _ => rfl]
  constructor
  · rintro ⟨hy, hy'⟩
    refine ⟨⟨hy, hy'.imp_right (List.mem_cons_of_mem _)⟩, ?_⟩
    -- the zones around the closed one are older
    rintro rfl
    exact hy'.resolve_right fun hmem => (hlt y hmem).false
  · rintro ⟨⟨hy, hy' | hy'⟩, hz⟩
    · exact ⟨hy, .inl hy'⟩
    · rcases List.mem_cons.1 hy' with rfl | hy'
      · exact ⟨hy, .inl (hz rfl)⟩
      · exact ⟨hy, .inr hy'⟩

/-- The zone around the closed one may be given states. -/
theorem parent_holds : g.Holds p := by
  obtain ⟨-, hpz, hz⟩ := h.parent_of_open hopen
  exact ⟨hpz.trans hz, .inr (by simp [hopen])⟩

/-- The states of a closed zone that is no region join those of its parent. -/
theorem nodes_exitZone (y : Nat) : (g.exitZone.2.zone y).nodes =
    if y = p ∧ (g.zone z).kind.isRegion = false then (g.zone p).nodes ++ (g.zone z).nodes
    else (g.zone y).nodes := by
  cases hk : (g.zone z).kind.isRegion with
  | true =>
    rw [exitZone_region g hopen hk]
    simp [zone]
  | false =>
    rw [exitZone_of_parent g hopen hk (h.parent_of_open hopen).1]
    by_cases hy : y = p
    · subst hy
      rw [if_pos ⟨rfl, rfl⟩]
      exact congrArg Zone.nodes (zone_modifyZone_self ({ g with openZones := y :: rest } : Graph)
        (fun x => { x with nodes := x.nodes ++ (g.zone z).nodes }) (h.parent_holds hopen).1)
    · rw [if_neg fun hyp => hy hyp.1]
      exact congrArg Zone.nodes (zone_modifyZone_of_ne ({ g with openZones := p :: rest } : Graph)
        (fun x => { x with nodes := x.nodes ++ (g.zone z).nodes }) hy)

/-- Every state is held afterwards, by the zone that held it or by the parent of the closed one. -/
theorem held_exitZone {s : Nat} (hs : s < g.states.size) :
    ∃ y, g.exitZone.2.Holds y ∧ s ∈ (g.exitZone.2.zone y).nodes := by
  obtain ⟨y, hy, hmem⟩ := h.held s hs
  by_cases hyz : y = z ∧ (g.zone z).kind.isRegion = false
  · obtain ⟨rfl, hk⟩ := hyz
    have hne : p ≠ y := (h.parent_of_open hopen).2.1.ne
    refine ⟨p, (h.holds_exitZone hopen).2 ⟨h.parent_holds hopen, fun heq => absurd heq hne⟩, ?_⟩
    rw [h.nodes_exitZone hopen, if_pos ⟨rfl, hk⟩]
    exact List.mem_append_right _ hmem
  · refine ⟨y, (h.holds_exitZone hopen).2 ⟨hy, fun heq => ?_⟩, ?_⟩
    · exact Bool.not_eq_false _ ▸ fun hk => hyz ⟨heq, hk⟩
    · rw [h.nodes_exitZone hopen]
      split
      · rename_i hyp
        exact List.mem_append_left _ (hyp.1 ▸ hmem)
      · exact hmem

/-- What the parent takes over belongs to no other zone. -/
theorem notMem_joined {y s : Nat} (hy : g.exitZone.2.Holds y) (hne : y ≠ p)
    (hk : (g.zone z).kind.isRegion = false) (hs : s ∈ (g.zone p).nodes ++ (g.zone z).nodes) :
    s ∉ (g.zone y).nodes := by
  obtain ⟨hy, hyz⟩ := (h.holds_exitZone hopen).1 hy
  have hz : g.Holds z := ⟨(h.parent_of_open hopen).2.2, .inr (by simp [hopen])⟩
  rcases List.mem_append.1 hs with hs | hs
  · exact h.apart p y (h.parent_holds hopen) hy hne.symm s hs
  · refine h.apart z y hz hy (fun heq => ?_) s hs
    rw [hyz heq.symm] at hk
    cases hk

/-- Closing a zone other than the top one. -/
theorem exitZone : g.exitZone.2.Shape := by
  have hkind := zone_exitZone_proj g Zone.kind (fun _ _ => rfl)
  have hparent := zone_exitZone_proj g Zone.parent (fun _ _ => rfl)
  have hregion := zone_exitZone_proj g Zone.region (fun _ _ => rfl)
  obtain ⟨hzp, hpz, hz⟩ := h.parent_of_open hopen
  have hholds {y : Nat} := (h.holds_exitZone hopen (y := y)).1
  -- the nodes of a zone that is no region go to the zone around it
  have hnodes := h.nodes_exitZone hopen
  constructor
  · exact h.zoned.congr (size_zones_exitZone g) hkind hparent hregion
  · have hout := h.outwards
    rw [hopen] at hout
    rw [openZones_exitZone, hopen]
    exact hout.2.2.mono (by simp) fun y _ => hparent y
  · intro s hs
    rw [states_exitZone] at hs
    rw [state_exitZone, size_zones_exitZone, hregion]
    exact h.home s hs
  · intro y hy s hs
    rw [size_zones_exitZone] at hy
    rw [hnodes] at hs
    rw [states_exitZone, state_exitZone, hregion]
    split at hs
    · rename_i hyp
      obtain ⟨rfl, hk⟩ := hyp
      rcases List.mem_append.1 hs with hs | hs
      · exact h.node y hy s hs
      · -- a zone that is no region belongs to the region of its parent
        have hsame : (g.zone z).region = (g.zone y).region := by
          rw [h.zoned.region z y hz hzp, hk]
          rfl
        exact hsame ▸ h.node z hz s hs
    · exact h.node y hy s hs
  · intro s hs
    rw [states_exitZone] at hs
    exact h.held_exitZone hopen hs
  · intro y hy
    rw [hnodes]
    split
    · have hzh : g.Holds z := ⟨hz, .inr (by simp [hopen])⟩
      exact List.Nodup.append (h.once p (h.parent_holds hopen)) (h.once z hzh)
        fun s hs hs' => h.apart p z (h.parent_holds hopen) hzh hpz.ne s hs hs'
    · exact h.once y (hholds hy).1
  · intro x y hx hy hne s hs hs'
    rw [hnodes] at hs hs'
    split at hs <;> split at hs'
    · rename_i hxp hyp
      exact hne (hxp.1.trans hyp.1.symm)
    · rename_i hxp _
      exact h.notMem_joined hopen hy (hxp.1 ▸ hne.symm) hxp.2 hs hs'
    · rename_i _ hyp
      exact h.notMem_joined hopen hx (hyp.1 ▸ hne) hyp.2 hs' hs
    · exact h.apart x y (hholds hx).1 (hholds hy).1 hne s hs hs'

end

end Shape

end Coroutine.Graph
