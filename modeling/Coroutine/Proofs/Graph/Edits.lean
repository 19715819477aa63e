import Mathlib
import Coroutine.Graph.Basic

/-!
# What the building edits do

Equations for reading states and zones back from a graph after one edit. An edit of a state leaves
the zones alone and the other way round, and both keep the numbers that are in use.
-/

namespace Coroutine.Graph

variable (g : Graph) {α : Type} {z : Nat}

/-- States beyond the last one are empty. -/
theorem state_of_le {s : Nat} (hs : g.states.size ≤ s) : g.state s = default := by
  simp [state, Array.getD, Nat.not_lt.2 hs]

/-- The live states are those that are there and not pruned. -/
theorem isLive_iff {s : Nat} :
    g.isLive s = true ↔ s < g.states.size ∧ (g.state s).pruned = false := by
  unfold isLive state
  by_cases h : s < g.states.size <;> simp [h, Array.getD]

/-! ## Changing a state -/

/-- Changing a state adds none, and touches neither zones nor declarations. -/
@[simp] theorem size_states_modifyState (i : Nat) (f : State → State) :
    (g.modifyState i f).states.size = g.states.size := by
  simp [modifyState]

@[simp] theorem zone_modifyState (i z : Nat) (f : State → State) :
    (g.modifyState i f).zone z = g.zone z := rfl

@[simp] theorem zones_modifyState (i : Nat) (f : State → State) :
    (g.modifyState i f).zones = g.zones := rfl

@[simp] theorem openZones_modifyState (i : Nat) (f : State → State) :
    (g.modifyState i f).openZones = g.openZones := rfl

@[simp] theorem labels_modifyState (i : Nat) (f : State → State) :
    (g.modifyState i f).labels = g.labels := rfl

@[simp] theorem vars_modifyState (i : Nat) (f : State → State) :
    (g.modifyState i f).vars = g.vars := rfl

@[simp] theorem params_modifyState (i : Nat) (f : State → State) :
    (g.modifyState i f).params = g.params := rfl

@[simp] theorem entry_modifyState (i : Nat) (f : State → State) :
    (g.modifyState i f).entry = g.entry := rfl

/-- The state that an edit changes. -/
theorem state_modifyState_self {i : Nat} (f : State → State) (hi : i < g.states.size) :
    (g.modifyState i f).state i = f (g.state i) := by
  simp [modifyState, state, Array.getD, hi, Array.getElem_modify_self]

/-- All other states stay as they are. -/
theorem state_modifyState_of_ne {i s : Nat} (f : State → State) (hs : s ≠ i) :
    (g.modifyState i f).state s = g.state s := by
  by_cases h : s < g.states.size
  · simp [modifyState, state, Array.getD, h, Array.getElem_modify_of_ne (Ne.symm hs)]
  · simp [modifyState, state, Array.getD, h]

/-- An edit that keeps a part of every state keeps it in the graph. -/
theorem state_modifyState_proj (π : State → α) {i : Nat} {f : State → State}
    (hf : ∀ x, π (f x) = π x) (s : Nat) : π ((g.modifyState i f).state s) = π (g.state s) := by
  by_cases hs : s = i
  · subst hs
    by_cases h : s < g.states.size
    · rw [state_modifyState_self g f h, hf]
    · simp [modifyState, state, Array.getD, h]
  · rw [state_modifyState_of_ne g f hs]

/-! ## Changing a zone -/

/-- Changing a zone adds none, and touches neither states nor declarations. -/
@[simp] theorem size_zones_modifyZone (z : Nat) (f : Zone → Zone) :
    (g.modifyZone z f).zones.size = g.zones.size := by
  simp [modifyZone]

@[simp] theorem state_modifyZone (z s : Nat) (f : Zone → Zone) :
    (g.modifyZone z f).state s = g.state s := rfl

@[simp] theorem states_modifyZone (z : Nat) (f : Zone → Zone) :
    (g.modifyZone z f).states = g.states := rfl

@[simp] theorem openZones_modifyZone (z : Nat) (f : Zone → Zone) :
    (g.modifyZone z f).openZones = g.openZones := rfl

@[simp] theorem labels_modifyZone (z : Nat) (f : Zone → Zone) :
    (g.modifyZone z f).labels = g.labels := rfl

@[simp] theorem vars_modifyZone (z : Nat) (f : Zone → Zone) :
    (g.modifyZone z f).vars = g.vars := rfl

@[simp] theorem params_modifyZone (z : Nat) (f : Zone → Zone) :
    (g.modifyZone z f).params = g.params := rfl

@[simp] theorem entry_modifyZone (z : Nat) (f : Zone → Zone) :
    (g.modifyZone z f).entry = g.entry := rfl

/-- The zone that an edit changes. -/
theorem zone_modifyZone_self (f : Zone → Zone) (hz : z < g.zones.size) :
    (g.modifyZone z f).zone z = f (g.zone z) := by
  simp [modifyZone, zone, Array.getD, hz, Array.getElem_modify_self]

/-- All other zones stay as they are. -/
theorem zone_modifyZone_of_ne {y : Nat} (f : Zone → Zone) (hy : y ≠ z) :
    (g.modifyZone z f).zone y = g.zone y := by
  by_cases h : y < g.zones.size
  · simp [modifyZone, zone, Array.getD, h, Array.getElem_modify_of_ne (Ne.symm hy)]
  · simp [modifyZone, zone, Array.getD, h]

/-- An edit that keeps a part of every zone keeps it in the graph. -/
theorem zone_modifyZone_proj (π : Zone → α) {f : Zone → Zone} (hf : ∀ x, π (f x) = π x) (y : Nat) :
    π ((g.modifyZone z f).zone y) = π (g.zone y) := by
  by_cases hy : y = z
  · subst hy
    by_cases h : y < g.zones.size
    · rw [zone_modifyZone_self g f h, hf]
    · simp [modifyZone, zone, Array.getD, h]
  · rw [zone_modifyZone_of_ne g f hy]

/-! ## New states and zones -/

/-- A new state gets the next number. -/
@[simp] theorem addState_fst : g.addState.1 = g.states.size := rfl

/-- One state is added, and none of the declarations change. -/
@[simp] theorem size_states_addState : g.addState.2.states.size = g.states.size + 1 := by
  simp [addState]

@[simp] theorem size_zones_addState : g.addState.2.zones.size = g.zones.size := by
  simp [addState]

@[simp] theorem openZones_addState : g.addState.2.openZones = g.openZones := rfl

@[simp] theorem labels_addState : g.addState.2.labels = g.labels := rfl

@[simp] theorem vars_addState : g.addState.2.vars = g.vars := rfl

@[simp] theorem params_addState : g.addState.2.params = g.params := rfl

@[simp] theorem entry_addState : g.addState.2.entry = g.entry := rfl

/-- The new state is empty and belongs to the innermost open zone. -/
theorem state_addState_self : g.addState.2.state g.states.size =
    { zone := g.currentZone, region := (g.zone g.currentZone).region } := by
  simp [addState, state, Array.getD]

/-- A new state leaves the others as they are. -/
theorem state_addState_of_ne {s : Nat} (hs : s ≠ g.states.size) :
    g.addState.2.state s = g.state s := by
  by_cases h : s < g.states.size
  · simp [addState, state, Array.getD, h, Nat.lt_succ_of_lt h, Array.getElem_push_lt]
  · have h' : ¬ s < g.states.size + 1 := by omega
    simp [addState, state, Array.getD, h, h']

/-- A new state joins the innermost open zone. -/
theorem zone_addState_current (hz : g.currentZone < g.zones.size) :
    g.addState.2.zone g.currentZone =
      { g.zone g.currentZone with
        nodes := (g.zone g.currentZone).nodes ++ [g.states.size] } := by
  unfold addState
  exact zone_modifyZone_self _ _ hz

/-- A new state leaves the other zones as they are. -/
theorem zone_addState_of_ne (hz : z ≠ g.currentZone) : g.addState.2.zone z = g.zone z := by
  unfold addState
  exact zone_modifyZone_of_ne _ _ hz

/-- A new state changes a zone in its states only. -/
theorem zone_addState_proj (π : Zone → α) (hπ : ∀ x nodes, π { x with nodes := nodes } = π x)
    (z : Nat) : π (g.addState.2.zone z) = π (g.zone z) := by
  unfold addState
  exact zone_modifyZone_proj _ π (fun x => hπ x _) z

/-- A new zone gets the next number. -/
@[simp] theorem enterZone_fst (kind : ZoneKind) : (g.enterZone kind).1 = g.zones.size := rfl

/-- One zone is added and opened; the states and declarations stay. -/
@[simp] theorem size_zones_enterZone (kind : ZoneKind) :
    (g.enterZone kind).2.zones.size = g.zones.size + 1 := by
  simp [enterZone]

@[simp] theorem state_enterZone (kind : ZoneKind) (s : Nat) :
    (g.enterZone kind).2.state s = g.state s := rfl

@[simp] theorem states_enterZone (kind : ZoneKind) :
    (g.enterZone kind).2.states = g.states := rfl

@[simp] theorem openZones_enterZone (kind : ZoneKind) :
    (g.enterZone kind).2.openZones = g.zones.size :: g.openZones := rfl

@[simp] theorem labels_enterZone (kind : ZoneKind) :
    (g.enterZone kind).2.labels = g.labels := rfl

@[simp] theorem vars_enterZone (kind : ZoneKind) : (g.enterZone kind).2.vars = g.vars := rfl

@[simp] theorem params_enterZone (kind : ZoneKind) : (g.enterZone kind).2.params = g.params := rfl

@[simp] theorem entry_enterZone (kind : ZoneKind) : (g.enterZone kind).2.entry = g.entry := rfl

/-- The new zone. -/
theorem zone_enterZone_self (kind : ZoneKind) : (g.enterZone kind).2.zone g.zones.size =
    { kind, parent := some g.currentZone,
      region := if kind.isRegion then g.zones.size else (g.zone g.currentZone).region } := by
  simp [enterZone, zone, Array.getD]

/-- A new zone leaves the others as they are. -/
theorem zone_enterZone_of_ne (kind : ZoneKind) (hz : z ≠ g.zones.size) :
    (g.enterZone kind).2.zone z = g.zone z := by
  by_cases h : z < g.zones.size
  · simp [enterZone, zone, Array.getD, h, Nat.lt_succ_of_lt h, Array.getElem_push_lt]
  · have h' : ¬ z < g.zones.size + 1 := by omega
    simp [enterZone, zone, Array.getD, h, h']

/-! ## Closing a zone -/

/-- Closing a region only takes it off the open zones. -/
theorem exitZone_region {rest : List Nat} (hopen : g.openZones = z :: rest)
    (hk : (g.zone z).kind.isRegion = true) : g.exitZone = (z, { g with openZones := rest }) := by
  simp only [exitZone, hopen, hk]

/-- Closing any other zone also hands its states over to its parent. -/
theorem exitZone_of_parent {p : Nat} {rest : List Nat} (hopen : g.openZones = z :: rest)
    (hk : (g.zone z).kind.isRegion = false) (hp : (g.zone z).parent = some p) :
    g.exitZone = (z, ({ g with openZones := rest } : Graph).modifyZone p fun x =>
      { x with nodes := x.nodes ++ (g.zone z).nodes }) := by
  simp only [exitZone, hopen, hk, hp]

/-- Closing a zone changes no state. -/
@[simp] theorem states_exitZone : g.exitZone.2.states = g.states := by
  unfold exitZone
  split
  · rfl
  · simp only
    split <;> rfl

@[simp] theorem state_exitZone (s : Nat) : g.exitZone.2.state s = g.state s := by
  simp [state]

/-- Closing a zone keeps it among the zones. -/
@[simp] theorem size_zones_exitZone : g.exitZone.2.zones.size = g.zones.size := by
  unfold exitZone
  split
  · rfl
  · simp only
    split <;> simp

/-- Closing a zone changes no declaration. -/
@[simp] theorem labels_exitZone : g.exitZone.2.labels = g.labels := by
  unfold exitZone
  split
  · rfl
  · simp only
    split <;> rfl

@[simp] theorem vars_exitZone : g.exitZone.2.vars = g.vars := by
  unfold exitZone
  split
  · rfl
  · simp only
    split <;> rfl

@[simp] theorem params_exitZone : g.exitZone.2.params = g.params := by
  unfold exitZone
  split
  · rfl
  · simp only
    split <;> rfl

@[simp] theorem entry_exitZone : g.exitZone.2.entry = g.entry := by
  unfold exitZone
  split
  · rfl
  · simp only
    split <;> rfl

/-- The innermost zone is closed. -/
theorem openZones_exitZone : g.exitZone.2.openZones = g.openZones.tail := by
  unfold exitZone
  split
  · simp_all
  · simp only [*, List.tail_cons]
    split <;> rfl

/-- Closing a zone changes zones in their states only. -/
theorem zone_exitZone_proj (π : Zone → α) (hπ : ∀ x nodes, π { x with nodes := nodes } = π x)
    (z : Nat) : π (g.exitZone.2.zone z) = π (g.zone z) := by
  unfold exitZone
  split
  · rfl
  · simp only
    split
    · exact zone_modifyZone_proj _ π (fun x => hπ x _) z
    · rfl

end Coroutine.Graph
