import Mathlib
import Coroutine.Proofs.Graph.Collapse
import Coroutine.Proofs.Graph.Reach
import Coroutine.Proofs.Graph.Simplified

/-!
# Simplified graphs stay as they are

Each pass leaves a graph in a form that it does not change: `collapse` leaves no no-op that goes on
to another state (`Collapsed`), `prune` no state that is out of reach (`Trimmed`), and `layout` gives
the orders that it gives again. The later passes keep what the earlier ones have reached. So
`simplify_simplify`: a second run with the same options finds nothing to do.

`bare` forgets the orders of emission, which no pass reads.
-/

namespace Coroutine.Graph

variable {g g' : Graph}

/-! ## Orders of emission -/

/-- The graph without its orders of emission. -/
def bare (g : Graph) : Graph := { g with states := g.states.map fun s => { s with order := 0 } }

/-- The order is all that a bare graph lacks. -/
theorem state_bare (s : Nat) : g.bare.state s = { g.state s with order := 0 } := by
  by_cases hs : s < g.states.size
  · simp [bare, state, Array.getD, hs]
  · rw [state_of_le g (not_lt.1 hs), state_of_le g.bare (by simpa [bare] using hs)]
    rfl

/-- Which states are skipped does not depend on the order. -/
theorem bypass?_bare (s : Nat) : g.bare.bypass? s = g.bypass? s := by
  simp only [bypass?, state_bare]
  rfl

/-- The successors of a state do not depend on the order. -/
theorem successors_bare (s : Nat) : g.bare.successors s = g.successors s := by
  simp only [successors, state_bare]

/-- A search finds the same whatever the order is: by induction on its fuel. -/
theorem reach_bare : ∀ (fuel : Nat) (queue seen : List Nat),
    g.bare.reach fuel queue seen = g.reach fuel queue seen
  | 0, _, _ => rfl
  | _ + 1, [], _ => rfl
  | fuel + 1, s :: queue, seen => by
    simp only [reach, state_bare, successors_bare, reach_bare fuel]

/-- What can be reached does not depend on the order. -/
theorem reachable_bare : g.bare.reachable = g.reachable := by
  simp only [reachable, reach_bare]
  simp [bare, roots, List.flatMap_map]

/-- The live nodes of a region do not depend on the order. -/
theorem liveNodes_bare (r : Nat) : g.bare.liveNodes r = g.liveNodes r := by
  simp only [liveNodes, state_bare]
  rfl

/-- Where a region starts does not depend on the order. -/
theorem regionStart?_bare (r : Nat) : g.bare.regionStart? r = g.regionStart? r := by
  simp only [regionStart?, state_bare]
  rfl

/-- How states are placed does not depend on the order: by induction on the fuel. -/
theorem place_bare : ∀ (fuel : Nat) (remaining : List Nat) (cursor : Option Nat),
    g.bare.place fuel remaining cursor = g.place fuel remaining cursor
  | 0, _, _ => rfl
  | fuel + 1, remaining, cursor => by simp only [place, state_bare, place_bare fuel]

/-- The placement of a region does not depend on the order. -/
theorem placement_bare (r : Nat) : g.bare.placement r = g.placement r := by
  simp only [placement, regionStart?_bare, liveNodes_bare, place_bare]

/-! ## Layout -/

/-- Sets orders of emission one after the other. -/
def setAll (g : Graph) (orders : List (Nat × Nat)) : Graph :=
  orders.foldl (fun g (id, order) => g.modifyState id fun s => { s with order }) g

/-- Setting the order of a state does not show in the bare graph. -/
theorem bare_modifyState (id order : Nat) :
    (g.modifyState id fun s => { s with order }).bare = g.bare := by
  have hstates : ((g.modifyState id fun s => { s with order }).bare).states = g.bare.states := by
    refine Array.ext (by simp [bare]) fun i h₁ h₂ => ?_
    by_cases hi : id = i
    · subst hi
      simp [bare, modifyState, Array.getElem_modify_self]
    · simp [bare, modifyState, Array.getElem_modify_of_ne hi]
  exact congrArg (fun states => { g with states }) hstates

/-- Setting many orders does not show in the bare graph. -/
theorem bare_setAll : ∀ (orders : List (Nat × Nat)) (g : Graph), (g.setAll orders).bare = g.bare
  | [], _ => rfl
  | (id, order) :: rest, _ => (bare_setAll rest _).trans (bare_modifyState id order)

/-- The last order that a state is given counts. -/
theorem order_setAll : ∀ (orders : List (Nat × Nat)) (g : Graph) {s : Nat}, s < g.states.size →
    ((g.setAll orders).state s).order = (orders.reverse.lookup s).getD (g.state s).order
  | [], _, _, _ => rfl
  | (id, order) :: rest, g, s, hs => by
    have hsize : s < (g.modifyState id fun s => { s with order }).states.size := by simpa using hs
    refine (order_setAll rest _ hsize).trans ?_
    rw [List.reverse_cons, List.lookup_append]
    cases rest.reverse.lookup s with
    | some _ => rfl
    | none =>
      by_cases hid : s = id
      · subst hid
        simp [state_modifyState_self g _ hs, List.lookup]
      · simp [state_modifyState_of_ne g _ hid, List.lookup, beq_eq_false_iff_ne.2 hid]

/-- A graph is determined by its bare form and its orders. -/
theorem eq_of_bare (h : g'.bare = g.bare)
    (horder : ∀ s < g.states.size, (g'.state s).order = (g.state s).order) : g' = g := by
  have hsize : g'.states.size = g.states.size := by
    simpa [bare] using congrArg (fun g => g.states.size) h
  have hstates : g'.states = g.states := by
    refine Array.ext hsize fun i h₁ h₂ => ?_
    have hbare : { g'.state i with order := 0 } = { g.state i with order := 0 } := by
      rw [← state_bare, ← state_bare, h]
    have hi := horder i h₂
    simp only [state, Array.getD, h₁, h₂, dif_pos, Array.getInternal_eq_getElem,
      State.mk.injEq] at hbare hi
    obtain ⟨hzone, hregion, -, hexpr, hresult, htrans, hpruned⟩ := hbare
    cases hx : g'.states[i]
    cases hy : g.states[i]
    simp_all
  cases g
  cases g'
  simp_all [bare]

/-- Orders that are set twice are set once. -/
theorem setAll_setAll (orders : List (Nat × Nat)) :
    (g.setAll orders).setAll orders = g.setAll orders := by
  have hsize : (g.setAll orders).states.size = g.states.size := by
    simpa [bare] using congrArg (fun g => g.states.size) (bare_setAll orders g)
  refine eq_of_bare (bare_setAll orders _) fun s hs => ?_
  rw [order_setAll orders _ hs, order_setAll orders g (hsize ▸ hs)]
  cases orders.reverse.lookup s <;> rfl

/-- The orders that a layout sets. -/
def orders (g : Graph) : List (Nat × Nat) := g.regions.flatMap fun r => (g.placement r).zipIdx

/-- The orders that a layout sets depend on the bare graph. -/
theorem orders_of_bare (h : g'.bare = g.bare) : g'.orders = g.orders := by
  have hregions : g'.regions = g.regions := congrArg (fun g => g.regions) h
  have hplacement : g'.placement = g.placement := funext fun r => by
    rw [← placement_bare r, h, placement_bare]
  rw [orders, orders, hregions, hplacement]

/-- The placement of a region does not depend on those before it. -/
theorem layout_eq : g.layout = g.setAll g.orders := by
  have hfold : ∀ (l : List Nat) (k : Graph), k.bare = g.bare →
      l.foldl (fun k r => k.setOrders (k.placement r)) k =
        k.setAll (l.flatMap fun r => (g.placement r).zipIdx) := by
    intro l
    induction l with
    | nil => exact fun _ _ => rfl
    | cons r l ih =>
      intro k hk
      have hplacement : k.placement r = g.placement r := by
        rw [← placement_bare r, hk, placement_bare]
      rw [List.foldl_cons, hplacement, List.flatMap_cons]
      refine (ih _ ((bare_setAll (g.placement r).zipIdx k).trans hk)).trans ?_
      exact (List.foldl_append ..).symm
  exact hfold g.regions g rfl

/-- A layout changes orders only. -/
theorem bare_layout : g.layout.bare = g.bare := by rw [layout_eq, bare_setAll]

/-- A second layout changes nothing. -/
theorem layout_layout : g.layout.layout = g.layout := by
  rw [layout_eq (g := g.layout), orders_of_bare bare_layout, layout_eq, setAll_setAll]

/-! ## No-ops -/

/-- No state goes on to another one without doing anything. -/
def Collapsed (g : Graph) : Prop := ∀ s t, g.bypass? s = some t → t = s

/-- What makes a state one that is skipped. -/
theorem bypass?_of {s t : Nat} (hexpr : (g.state s).expressions = [])
    (hresult : (g.state s).result = none) (htrans : (g.state s).transition = some (.goto t))
    (hpruned : (g.state s).pruned = false) (hregion : (g.state t).region = (g.state s).region) :
    g.bypass? s = some t := by
  simp [bypass?, State.isNoop, hexpr, hresult, htrans, hpruned, hregion]

/-- Whether no state is skipped does not depend on the order. -/
theorem Collapsed.of_bare (hg : g.Collapsed) (h : g'.bare = g.bare) : g'.Collapsed := by
  intro s t hst
  rw [← bypass?_bare, h, bypass?_bare] at hst
  exact hg s t hst

/-- Where no state is skipped, references stay as they are. -/
theorem Collapsed.remap (hg : g.Collapsed) (s : Nat) : g.remap s = s := by
  induction passed_remap (g := g) s with
  | here h => exact h
  | step hstep _ _ ih => rwa [hg _ _ hstep] at ih

/-- Where there is no no-op to pass by, collapsing changes nothing. -/
theorem Collapsed.collapse (hg : g.Collapsed) : g.collapse = (0, g) := by
  have hcount : g.liveStates.countP (fun x => g.remap x.1 != x.1) = 0 := by simp [hg.remap]
  have hstate : ∀ id (s : State), (if s.pruned then s else
      { s with transition := s.transition.map (·.mapReferences g.remap)
               pruned := g.remap id != id }) = s := by
    intro id s
    rw [show g.remap = fun s => s from funext hg.remap]
    cases s with
    | mk zone region order expressions result transition pruned =>
      cases pruned <;> simp
  have hlabels : (g.labels.map fun x => (x.1, { x.2 with state := g.remap x.2.state })) = g.labels := by
    simp [hg.remap]
  have hstates : g.states.mapIdx (fun id (s : State) => if s.pruned then s else
      { s with transition := s.transition.map (·.mapReferences g.remap)
               pruned := g.remap id != id }) = g.states := by
    simp only [hstate]
    exact Array.ext (by simp) fun i h₁ h₂ => by simp
  calc g.collapse = (g.liveStates.countP (fun x => g.remap x.1 != x.1), { g with
          states := g.states.mapIdx fun id (s : State) => if s.pruned then s else
            { s with transition := s.transition.map (·.mapReferences g.remap)
                     pruned := g.remap id != id }
          entry := g.remap g.entry
          labels := g.labels.map fun x => (x.1, { x.2 with state := g.remap x.2.state }) }) := rfl
    _ = (0, g) := by rw [hcount, hstates, hg.remap, hlabels]

/-- Collapsing passes all no-ops by; of a cycle of them one is left, which goes on to itself. -/
theorem collapsed_collapse : g.collapse.2.Collapsed := by
  intro s t hst
  obtain ⟨hexpr, hresult, htrans, hpruned, hregion, hs⟩ := bypass?_eq_some hst
  have hsize : g.collapse.2.states.size = g.states.size := by simp [Graph.collapse]
  rw [hsize] at hs
  have hregions : ∀ u, (g.collapse.2.state u).region = (g.state u).region := by
    intro u
    by_cases hu : u < g.states.size
    · rw [state_collapse hu]
      split <;> rfl
    · rw [state_of_le _ (not_lt.1 hu), state_of_le _ (hsize.le.trans (not_lt.1 hu))]
  rw [hregions, hregions] at hregion
  have hstate := state_collapse hs
  split at hstate
  · rename_i hp
    rw [hstate, hp] at hpruned
    cases hpruned
  · rename_i hp
    rw [hstate] at hexpr hresult htrans hpruned
    have hend : g.remap s = s := by simpa using hpruned
    obtain ⟨t', ht', hmap⟩ := Option.map_eq_some_iff.1 htrans
    cases t' with
    | goto u =>
      obtain rfl : g.remap u = t := by simpa [Transition.mapReferences] using hmap
      -- the no-op was there before, and its target lay in the same region
      have hbypass : g.bypass? s = some u :=
        bypass?_of hexpr hresult ht' (by simpa using hp) ((passed_remap u).region.symm.trans hregion)
      rw [remap_of_bypass? hbypass, hend]
    | _ => simp [Transition.mapReferences] at hmap

/-! ## States out of reach -/

/-- Every state that is left can be reached. -/
def Trimmed (g : Graph) : Prop := ∀ s, g.isLive s = true → s ∈ g.reachable

/-- Whether a state is live does not depend on the order. -/
theorem isLive_of_bare (h : g'.bare = g.bare) (s : Nat) : g'.isLive s = g.isLive s := by
  have hbare : ∀ k : Graph, k.bare.isLive s = k.isLive s := fun k => by
    rw [Bool.eq_iff_iff, isLive_iff, isLive_iff, state_bare]
    simp [bare]
  rw [← hbare, h, hbare]

/-- Whether all live states can be reached does not depend on the order. -/
theorem Trimmed.of_bare (hg : g.Trimmed) (h : g'.bare = g.bare) : g'.Trimmed := by
  intro s hs
  rw [← reachable_bare, h, reachable_bare]
  exact hg s (isLive_of_bare h s ▸ hs)

/-- Where everything can be reached, pruning changes nothing. -/
theorem Trimmed.prune (hg : g.Trimmed) : g.prune = (0, g) := by
  have hcount : g.liveStates.countP (fun x => !g.reachable.contains x.1) = 0 := by
    refine List.countP_eq_zero.2 fun x hx => ?_
    simpa using hg x.1 (mem_liveStates.1 hx).1
  have hstates : g.states.mapIdx (fun id (s : State) =>
      if g.reachable.contains id then s else { s with pruned := true }) = g.states := by
    refine Array.ext (by simp) fun i _ hi => ?_
    rw [Array.getElem_mapIdx]
    split
    · rfl
    · rename_i hmem
      have hstate : g.state i = g.states[i] := by simp [state, Array.getD, hi]
      have hpruned : (g.state i).pruned = true := by
        by_contra hp
        exact hmem (List.contains_iff_mem.2 (hg i (g.isLive_iff.2 ⟨hi, by simpa using hp⟩)))
      rw [← hstate, ← hpruned]
  calc g.prune = (g.liveStates.countP (fun x => !g.reachable.contains x.1), { g with
          states := g.states.mapIdx fun id (s : State) =>
            if g.reachable.contains id then s else { s with pruned := true } }) := rfl
    _ = (0, g) := by rw [hcount, hstates]

/-- A search never forgets what it has seen. -/
theorem subset_reach : ∀ (fuel : Nat) (queue seen : List Nat), seen ⊆ g.reach fuel queue seen
  | 0, _, _ => List.Subset.refl _
  | _ + 1, [], _ => List.Subset.refl _
  | fuel + 1, s :: queue, seen => by
    rw [reach]
    split
    · exact subset_reach fuel queue seen
    · exact List.Subset.trans (List.subset_cons_self s seen) (subset_reach fuel _ _)

/-- A search does not notice that states it does not take in are removed. -/
theorem reach_congr (hpruned : ∀ s, (g.state s).pruned = true → (g'.state s).pruned = true) :
    ∀ (fuel : Nat) (queue seen : List Nat),
      (∀ s ∈ g.reach fuel queue seen, g'.state s = g.state s) →
      g'.reach fuel queue seen = g.reach fuel queue seen
  | 0, _, _, _ => rfl
  | _ + 1, [], _, _ => rfl
  | fuel + 1, s :: queue, seen, h => by
    rw [reach] at h
    rw [reach, reach]
    by_cases hskip : (seen.contains s || (g.state s).pruned) = true
    · have hskip' : (seen.contains s || (g'.state s).pruned) = true := by
        simp only [Bool.or_eq_true] at hskip ⊢
        exact hskip.imp_right (hpruned s)
      rw [if_pos hskip] at h
      rw [if_pos hskip, if_pos hskip']
      exact reach_congr hpruned fuel queue seen h
    · rw [if_neg hskip] at h
      have hs : g'.state s = g.state s := h s (subset_reach _ _ _ List.mem_cons_self)
      rw [if_neg hskip, hs, if_neg hskip, successors, hs]
      exact reach_congr hpruned fuel _ _ h

/-- What is pruned stays pruned. -/
theorem pruned_prune {s : Nat} (h : (g.state s).pruned = true) :
    (g.prune.2.state s).pruned = true := by
  have hs : s < g.states.size := by
    by_contra hs
    rw [state_of_le g (not_lt.1 hs)] at h
    cases h
  rw [state_prune hs]
  split
  · exact h
  · rfl

/-- Pruning does not change what can be reached. -/
theorem reachable_prune : g.prune.2.reachable = g.reachable := by
  have hreferences : ∀ k : Graph, (k.states.toList.flatMap fun s =>
      (s.transition.map Transition.references).getD []) =
        (List.range k.states.size).flatMap k.successors := by
    intro k
    rw [toList_states, List.flatMap_map]
    refine List.flatMap_congr fun s _ => ?_
    simp only [successors]
    cases (k.state s).transition <;> rfl
  have hsuccessors : g.prune.2.successors = g.successors := funext fun s => by
    rw [successors, successors, proj_state_prune State.transition fun _ => rfl]
  have hsize : g.prune.2.states.size = g.states.size := by simp [Graph.prune]
  have hsame : ∀ s ∈ g.reachable, g.prune.2.state s = g.state s := by
    intro s hmem
    by_cases hs : s < g.states.size
    · rw [state_prune hs, if_pos (List.contains_iff_mem.2 hmem)]
    · rw [state_of_le g (not_lt.1 hs), state_of_le _ (hsize ▸ not_lt.1 hs)]
  rw [reachable, hreferences, hsuccessors, hsize, ← hreferences]
  exact reach_congr (fun _ => pruned_prune) _ _ _ hsame

/-- Pruning leaves what can be reached. -/
theorem trimmed_prune : g.prune.2.Trimmed := by
  intro s hs
  rw [reachable_prune]
  by_contra hmem
  obtain ⟨hlt, hp⟩ := (isLive_iff _).1 hs
  have hlt : s < g.states.size := by simpa [Graph.prune] using hlt
  rw [state_prune hlt, if_neg (by simpa using hmem)] at hp
  cases hp

/-- Pruning only takes no-ops away. -/
theorem Collapsed.of_prune (hg : g.Collapsed) : g.prune.2.Collapsed := by
  intro s t hst
  obtain ⟨hexpr, hresult, htrans, hpruned, hregion, -⟩ := bypass?_eq_some hst
  rw [proj_state_prune State.expressions fun _ => rfl] at hexpr
  rw [proj_state_prune State.result fun _ => rfl] at hresult
  rw [proj_state_prune State.transition fun _ => rfl] at htrans
  rw [proj_state_prune State.region fun _ => rfl, proj_state_prune State.region fun _ => rfl]
    at hregion
  have hp : (g.state s).pruned = false := by
    by_contra hp
    rw [pruned_prune (by simpa using hp)] at hpruned
    cases hpruned
  exact hg s t (bypass?_of hexpr hresult htrans hp hregion)

/-! ## All passes -/

/-- What the passes before the layout leave. -/
theorem simplify_eq_layout (g : Graph) (o : Options) : ∃ k : Graph, (g.simplify o).2 = k.layout ∧
    (o.optimize = true → k.Collapsed) ∧ (o.pruneUnreachable = true → k.Trimmed) := by
  have hcollapsed : o.optimize = true → (if o.optimize then g.collapse else (0, g)).2.Collapsed := by
    intro ho
    rw [if_pos ho]
    exact collapsed_collapse
  generalize hfirst : (if o.optimize then g.collapse else (0, g)).2 = first at hcollapsed
  refine ⟨(if o.pruneUnreachable then first.prune else (0, first)).2, ?_, fun ho => ?_, fun hp => ?_⟩
  · rw [← hfirst]
    rfl
  · split
    · exact (hcollapsed ho).of_prune
    · exact hcollapsed ho
  · rw [if_pos hp]
    exact trimmed_prune

/-- A second simplification changes nothing. -/
theorem simplify_simplify (g : Graph) (o : Options) :
    (g.simplify o).2.simplify o = (⟨0, 0⟩, (g.simplify o).2) := by
  obtain ⟨k, hk, hcollapsed, htrimmed⟩ := simplify_eq_layout g o
  have hcollapse : (if o.optimize then k.layout.collapse else (0, k.layout)) = (0, k.layout) := by
    split
    · rename_i ho
      exact ((hcollapsed ho).of_bare bare_layout).collapse
    · rfl
  have hprune : (if o.pruneUnreachable then k.layout.prune else (0, k.layout)) = (0, k.layout) := by
    split
    · rename_i hp
      exact ((htrimmed hp).of_bare bare_layout).prune
    · rfl
  rw [hk, simplify, hcollapse]
  dsimp only
  rw [hprune, layout_layout]

end Coroutine.Graph
