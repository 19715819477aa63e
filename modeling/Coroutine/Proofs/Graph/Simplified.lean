import Mathlib
import Coroutine.Proofs.Graph.Collapse
import Coroutine.Proofs.Graph.Reach
import Coroutine.Proofs.Lowering.Result

/-!
# Simplified graphs are regular

`Reduces φ g g'` is what the passes of simplification do to a graph: states keep their numbers and
their places, those that are left keep their work, and every reference goes to the end `φ` of the way
that it was passed along. What is left leads to states that are left. `simplify_regular`: a
simplified graph is regular if the graph was.
-/

namespace Coroutine.Graph

/-! ## References -/

/-- References that stay the same change nothing. -/
@[simp] theorem mapReferences_id (t : Transition) : t.mapReferences (fun s => s) = t := by
  cases t <;> simp [Transition.mapReferences]

/-- The references of a transition are renamed one by one. -/
theorem references_mapReferences (φ : Nat → Nat) (t : Transition) :
    (t.mapReferences φ).references = t.references.map φ := by
  cases t with
  | tryCatch t =>
    cases h : t.cleanup <;>
      simp [Transition.mapReferences, Transition.references, Function.comp_def, h]
  | _ => simp [Transition.mapReferences, Transition.references, Function.comp_def]

/-- The exits of a transition are renamed one by one. -/
theorem exits_mapReferences (φ : Nat → Nat) (t : Transition) :
    (t.mapReferences φ).exits = t.exits.map φ := by
  cases t with
  | tryCatch t =>
    cases h : t.cleanup <;>
      simp [Transition.mapReferences, Transition.exits, Function.comp_def, h]
  | _ => simp [Transition.mapReferences, Transition.exits, Transition.references]

/-- Renaming its references leaves the record of a transition alone. -/
@[simp] theorem record?_mapReferences (φ : Nat → Nat) (t : Transition) :
    (t.mapReferences φ).record? = t.record? := by
  cases t <;> rfl

/-! ## Passes -/

/-- What the passes of simplification do to a graph. `φ` gives the end of every state's way. -/
structure Reduces (φ : Nat → Nat) (g g' : Graph) : Prop where
  size : g'.states.size = g.states.size
  zones : g'.zones = g.zones
  name : g'.name = g.name
  kind : g'.kind = g.kind
  params : g'.params = g.params
  vars : g'.vars = g.vars
  home : ∀ s, (g'.state s).zone = (g.state s).zone
  region : ∀ s, (g'.state s).region = (g.state s).region
  passed : ∀ s, Passed g φ s
  kept : ∀ s, g'.isLive s = true → g.isLive s = true ∧ φ s = s
  expressions : ∀ s, g'.isLive s = true → (g'.state s).expressions = (g.state s).expressions
  result : ∀ s, g'.isLive s = true → (g'.state s).result = (g.state s).result
  transition : ∀ s, g'.isLive s = true →
    (g'.state s).transition = (g.state s).transition.map (·.mapReferences φ)
  records : ∀ s t', (g'.state s).transition = some t' →
    ∃ t, (g.state s).transition = some t ∧ t'.record? = t.record?
  leads : ∀ s, g'.isLive s = true → ∀ t, (g'.state s).transition = some t →
    ∀ r ∈ t.references, g'.isLive r = true
  entry : g'.entry = φ g.entry
  live_entry : g'.isLive g'.entry = true
  labels : g'.labels = g.labels.map fun (l, b) => (l, { b with state := φ b.state })
  live_label : ∀ l b, (l, b) ∈ g'.labels → g'.isLive b.state = true

variable {g g' : Graph} {φ : Nat → Nat} {n : Nat} {s : Nat}

/-- A state that is skipped leads to one of the same region. -/
theorem Passed.region (h : Passed g φ s) : (g.state (φ s)).region = (g.state s).region := by
  induction h with
  | here h => rw [h]
  | step hstep hend _ ih =>
    rw [← hend, ih]
    exact (bypass?_eq_some hstep).2.2.2.2.1

/-- What a live state is passed along to is live. -/
theorem Passed.live (hg : g.Regular n) (h : Passed g φ s) (hs : g.isLive s = true) :
    g.isLive (φ s) = true := by
  induction h with
  | here h => rwa [h]
  | step hstep hend _ ih =>
    obtain ⟨-, -, hgoto, -⟩ := bypass?_eq_some hstep
    obtain ⟨t, ht, hrefs⟩ := hg.leads _ hs
    obtain rfl := Option.some.inj (hgoto.symm.trans ht)
    rw [← hend]
    exact ih (hrefs _ List.mem_cons_self)

/-- What collapsing makes of a state. -/
theorem state_collapse (hs : s < g.states.size) :
    g.collapse.2.state s =
    if (g.state s).pruned then g.state s
    else { g.state s with
      transition := (g.state s).transition.map (·.mapReferences g.remap)
      pruned := g.remap s != s } := by
  simp only [collapse, state, Array.getD, Array.size_mapIdx, hs, dif_pos, Array.getInternal_eq_getElem,
    Array.getElem_mapIdx]
  rfl

/-- What pruning makes of a state. -/
theorem state_prune (hs : s < g.states.size) :
    g.prune.2.state s =
    if g.reachable.contains s then g.state s else { g.state s with pruned := true } := by
  simp only [prune, state, Array.getD, Array.size_mapIdx, hs, dif_pos, Array.getInternal_eq_getElem,
    Array.getElem_mapIdx]

/-- Pruning keeps everything of a state but whether it is left. -/
theorem proj_state_prune {α : Type} (π : State → α) (hπ : ∀ x, π { x with pruned := true } = π x)
    (s : Nat) : π (g.prune.2.state s) = π (g.state s) := by
  by_cases hs : s < g.states.size
  · rw [state_prune hs]
    split
    · rfl
    · exact hπ _
  · rw [state_of_le g (not_lt.1 hs), state_of_le _ (by simpa [Graph.prune] using hs)]

namespace Regular

variable (hg : g.Regular n)
include hg

/-- Nothing changes if no pass runs. -/
theorem reduces_refl : Reduces (fun s => s) g g where
  size := rfl
  zones := rfl
  name := rfl
  kind := rfl
  params := rfl
  vars := rfl
  home _ := rfl
  region _ := rfl
  passed _ := .here rfl
  kept s hs := ⟨hs, rfl⟩
  expressions _ _ := rfl
  result _ _ := rfl
  transition s _ := by simp
  records s t ht := ⟨t, ht, rfl⟩
  leads s hs t ht := by
    obtain ⟨t', ht', hrefs⟩ := hg.leads s hs
    obtain rfl := Option.some.inj (ht.symm.trans ht')
    exact hrefs
  entry := rfl
  live_entry := hg.entry.1
  labels := by simp
  live_label l b hb := (hg.label l b hb).1

/-- A reference of a live state leads to a live state. -/
theorem remap_live (hs : g.isLive s = true) : g.collapse.2.isLive (g.remap s) = true := by
  obtain ⟨hlt, hp⟩ := g.isLive_iff.1 ((passed_remap s).live hg hs)
  refine isLive_iff _ |>.2 ⟨by simpa [collapse] using hlt, ?_⟩
  rw [state_collapse hlt, hp]
  simpa using remap_remap s

/-- Collapsing lets every reference pass by the no-ops. -/
theorem reduces_collapse : Reduces g.remap g g.collapse.2 := by
  have hsize : g.collapse.2.states.size = g.states.size := by simp [collapse]
  have hout : ∀ s, g.states.size ≤ s → g.collapse.2.state s = g.state s := fun s hs => by
    rw [state_of_le _ (hsize.le.trans hs), state_of_le _ hs]
  -- a state that stays is its own end, and only its references change
  have hkept : ∀ s, g.collapse.2.isLive s = true → g.isLive s = true ∧ g.remap s = s ∧
      g.collapse.2.state s = { g.state s with
        transition := (g.state s).transition.map (·.mapReferences g.remap)
        pruned := g.remap s != s } := by
    intro s hs
    obtain ⟨hlt, hp⟩ := (isLive_iff _).1 hs
    rw [hsize] at hlt
    have heq := state_collapse hlt
    split at heq
    · rename_i hpruned
      rw [heq, hpruned] at hp
      cases hp
    · rename_i hpruned
      rw [heq] at hp
      exact ⟨g.isLive_iff.2 ⟨hlt, by simpa using hpruned⟩, by simpa using hp, heq⟩
  exact {
    size := hsize
    zones := rfl
    name := rfl
    kind := rfl
    params := rfl
    vars := rfl
    home := fun s => by
      by_cases hs : s < g.states.size
      · rw [state_collapse hs]
        split <;> rfl
      · rw [hout s (not_lt.1 hs)]
    region := fun s => by
      by_cases hs : s < g.states.size
      · rw [state_collapse hs]
        split <;> rfl
      · rw [hout s (not_lt.1 hs)]
    passed := passed_remap
    kept := fun s hs => ⟨(hkept s hs).1, (hkept s hs).2.1⟩
    expressions := fun s hs => by rw [(hkept s hs).2.2]
    result := fun s hs => by rw [(hkept s hs).2.2]
    transition := fun s hs => by rw [(hkept s hs).2.2]
    records := fun s t' ht' => by
      by_cases hs : s < g.states.size
      · rw [state_collapse hs] at ht'
        split at ht'
        · exact ⟨t', ht', rfl⟩
        · obtain ⟨t, ht, rfl⟩ := Option.map_eq_some_iff.1 ht'
          exact ⟨t, ht, record?_mapReferences _ t⟩
      · rw [hout s (not_lt.1 hs)] at ht'
        exact ⟨t', ht', rfl⟩
    leads := fun s hs t' ht' r hr => by
      obtain ⟨hlive, -, heq⟩ := hkept s hs
      obtain ⟨t, ht, hrefs⟩ := hg.leads s hlive
      rw [heq, ht] at ht'
      obtain rfl := Option.some.inj ht'
      rw [references_mapReferences] at hr
      obtain ⟨q, hq, rfl⟩ := List.mem_map.1 hr
      exact hg.remap_live (hrefs q hq)
    entry := rfl
    live_entry := hg.remap_live hg.entry.1
    labels := rfl
    live_label := fun l b' hb' => by
      obtain ⟨⟨_, b⟩, hb, heq⟩ := List.mem_map.1 hb'
      cases heq
      exact hg.remap_live (hg.label _ b hb).1 }

end Regular

namespace Reduces

variable (h : Reduces φ g g')
include h

/-- The roots of a graph are live. -/
theorem live_root {r : Nat} (hr : r ∈ g'.roots) : g'.isLive r = true := by
  rcases List.mem_cons.1 hr with rfl | hr
  · exact h.live_entry
  · obtain ⟨⟨l, b⟩, hb, rfl⟩ := List.mem_map.1 hr
    exact h.live_label l b hb

/-- Removing what nothing reaches. -/
theorem prune : Reduces φ g g'.prune.2 := by
  have hsize : g'.prune.2.states.size = g'.states.size := by simp [Graph.prune]
  -- what is left are the live states that can be reached
  have hlive : ∀ s, g'.prune.2.isLive s = true ↔ g'.isLive s = true ∧ s ∈ g'.reachable := by
    intro s
    rw [isLive_iff, isLive_iff, hsize, and_assoc]
    refine and_congr_right fun hs => ?_
    rw [state_prune hs]
    split
    · rename_i hmem
      simp [List.contains_iff_mem.1 hmem]
    · rename_i hmem
      simp [show s ∉ g'.reachable by simpa using hmem]
  have htrans := proj_state_prune (g := g') State.transition fun _ => rfl
  obtain ⟨hroots, hclosed⟩ := reachable_spec (g := g')
  -- the roots can be reached, so none of them is pruned
  have hreach : ∀ {r : Nat}, r ∈ g'.roots → g'.prune.2.isLive r = true := fun {r} hr =>
    (hlive r).2 ⟨h.live_root hr, hroots r hr ((isLive_iff _).1 (h.live_root hr)).2⟩
  exact { h with
    size := hsize.trans h.size
    home := fun s => (proj_state_prune State.zone (fun _ => rfl) s).trans (h.home s)
    region := fun s => (proj_state_prune State.region (fun _ => rfl) s).trans (h.region s)
    kept := fun s hs => h.kept s ((hlive s).1 hs).1
    expressions := fun s hs =>
      (proj_state_prune State.expressions (fun _ => rfl) s).trans (h.expressions s ((hlive s).1 hs).1)
    result := fun s hs =>
      (proj_state_prune State.result (fun _ => rfl) s).trans (h.result s ((hlive s).1 hs).1)
    transition := fun s hs => (htrans s).trans (h.transition s ((hlive s).1 hs).1)
    records := fun s t' ht' => h.records s t' ((htrans s).symm.trans ht')
    leads := fun s hs t ht r hr => by
      obtain ⟨hs, hmem⟩ := (hlive s).1 hs
      rw [htrans s] at ht
      have hr' := h.leads s hs t ht r hr
      refine (hlive r).2 ⟨hr', hclosed s hmem r ?_ ((isLive_iff _).1 hr').2⟩
      rwa [successors, ht]
    live_entry := hreach List.mem_cons_self
    live_label := fun l b hb =>
      hreach (List.mem_cons_of_mem _ (List.mem_map_of_mem (f := fun x => x.2.state) hb)) }

/-- Setting the order of emission of a state. -/
theorem setOrder (i order : Nat) :
    Reduces φ g (g'.modifyState i fun s => { s with order }) := by
  have hproj : ∀ {α : Type} (π : State → α), (∀ x o, π { x with order := o } = π x) → ∀ s,
      π ((g'.modifyState i fun s => { s with order }).state s) = π (g'.state s) :=
    fun π hπ s => state_modifyState_proj g' π (fun x => hπ x order) s
  have hlive : ∀ s, (g'.modifyState i fun s => { s with order }).isLive s = true ↔
      g'.isLive s = true := fun s => by
    rw [isLive_iff, isLive_iff, size_states_modifyState, hproj State.pruned fun _ _ => rfl]
  have htrans := hproj State.transition fun _ _ => rfl
  exact { h with
    size := (size_states_modifyState g' i _).trans h.size
    home := fun s => (hproj State.zone (fun _ _ => rfl) s).trans (h.home s)
    region := fun s => (hproj State.region (fun _ _ => rfl) s).trans (h.region s)
    kept := fun s hs => h.kept s ((hlive s).1 hs)
    expressions := fun s hs =>
      (hproj State.expressions (fun _ _ => rfl) s).trans (h.expressions s ((hlive s).1 hs))
    result := fun s hs =>
      (hproj State.result (fun _ _ => rfl) s).trans (h.result s ((hlive s).1 hs))
    transition := fun s hs => (htrans s).trans (h.transition s ((hlive s).1 hs))
    records := fun s t' ht' => h.records s t' ((htrans s).symm.trans ht')
    leads := fun s hs t ht r hr =>
      (hlive r).2 (h.leads s ((hlive s).1 hs) t ((htrans s).symm.trans ht) r hr)
    live_entry := (hlive _).2 h.live_entry
    live_label := fun l b hb => (hlive _).2 (h.live_label l b hb) }

/-- Setting orders reduces nothing further. -/
theorem setOrders (ids : List Nat) : Reduces φ g (g'.setOrders ids) := by
  unfold Graph.setOrders
  generalize ids.zipIdx = l
  induction l generalizing g' with
  | nil => exact h
  | cons x l ih => exact ih (h.setOrder x.1 x.2)

/-- A layout reduces nothing further. -/
theorem layout : Reduces φ g g'.layout := by
  unfold Graph.layout
  generalize g'.regions = l
  induction l generalizing g' with
  | nil => exact h
  | cons r l ih => exact ih (h.setOrders (g'.placement r))

/-! ## Regularity -/

/-- A reduced graph has the same zones. -/
theorem zone_eq (z : Nat) : g'.zone z = g.zone z := by rw [zone, zone, h.zones]

/-- The next region around a zone is the same in a reduced graph. -/
theorem parentRegion?_eq (r : Nat) : g'.parentRegion? r = g.parentRegion? r := by
  simp only [parentRegion?, h.zone_eq]

/-- The regions around a zone are the same in a reduced graph, up to any depth. -/
theorem regionsFrom_eq (fuel r : Nat) : g'.regionsFrom fuel r = g.regionsFrom fuel r := by
  induction fuel generalizing r with
  | zero => rfl
  | succ fuel ih => simp only [regionsFrom, h.parentRegion?_eq, ih]

/-- All regions around a zone are the same in a reduced graph. -/
theorem regionChain_eq (r : Nat) : g'.regionChain r = g.regionChain r := h.regionsFrom_eq _ r

/-- Variables are as usable in a reduced graph. -/
theorem usable_iff (i : Nat) : g'.Usable n i ↔ g.Usable n i := by
  rw [Usable, Usable, h.params, h.vars]

/-- Variables are as writable in a reduced graph. -/
theorem writable_iff (i : Nat) : g'.Writable n i ↔ g.Writable n i := by
  rw [Writable, Writable, h.usable_iff, Assignable, Assignable, h.vars]

/-- A reduced graph has the same variables for records. -/
theorem recording_iff (x : Var) : g'.Recording n x ↔ g.Recording n x := by
  rw [Recording, Recording, h.vars]

/-- The records of a region stay together in a reduced graph. -/
theorem filed {x y : Var} (hxy : g.Filed n x y) : g'.Filed n x y :=
  { hxy with mem := h.vars ▸ hxy.mem }

/-- What is bound stays bound. -/
theorem setting_eq : g'.setting n = g.setting n := by
  unfold setting Usable Assignable
  rw [h.params, h.vars]

/-- A reference goes to a state of the same region. -/
theorem inRegion (hg : g.Regular n) {r z : Nat} (hr : g.isLive r = true) (hz : g.InRegion r z) :
    g'.InRegion (φ r) z := by
  refine ⟨?_, ?_⟩
  · rw [h.size]
    exact (g.isLive_iff.1 ((h.passed r).live hg hr)).1
  · rw [h.region, (h.passed r).region]
    exact hz.2

/-- A reference goes to a state around the same region. -/
theorem around (hg : g.Regular n) {r z : Nat} (hr : g.isLive r = true) (hz : g.Around r z) :
    g'.Around (φ r) z := by
  obtain ⟨hlt, hregion⟩ := h.inRegion hg hr ⟨hz.1, rfl⟩
  refine ⟨hlt, ?_⟩
  rw [hregion, h.regionChain_eq]
  exact hz.2

/-- A sound transition is sound with its references renamed. -/
theorem transitionSound (hg : g.Regular n) {t : Transition}
    (hrefs : ∀ r ∈ t.references, g.isLive r = true) (ht : g.TransitionSound n s t) :
    g'.TransitionSound n s (t.mapReferences φ) := by
  cases t with
  | goto | loop | yieldBreak => trivial
  | conditional =>
    rw [Transition.mapReferences, TransitionSound, h.setting_eq]
    exact ht
  | switch value arms fallback =>
    rw [Transition.mapReferences, TransitionSound, h.setting_eq]
    refine ⟨ht.1, fun a' ha' => ?_⟩
    obtain ⟨a, ha, rfl⟩ := List.mem_map.1 ha'
    exact ht.2 a ha
  | tryCatch t =>
    obtain ⟨hkind, hlt, howner, haround, hbody, htry, hexc, hfiled, hcodes, hcleanup⟩ := ht
    -- zones, owners and records stay; only the references are renamed
    refine ⟨?_, ?_, ?_, ?_, ?_, ?_, ?_, h.filed hfiled, ?_, fun c' hc' => ?_⟩
    · rwa [h.zone_eq]
    · rwa [h.zones]
    · rwa [h.zone_eq]
    · rwa [h.parentRegion?_eq, h.region]
    · exact h.inRegion hg (hrefs t.body List.mem_cons_self) hbody
    · exact h.recording_iff _ |>.2 htry
    · exact h.usable_iff _ |>.2 hexc
    · simpa [Function.comp_def] using hcodes
    · obtain ⟨c, hc, rfl⟩ := Option.map_eq_some_iff.1 hc'
      rw [h.region]
      refine h.inRegion hg (hrefs c ?_) (hcleanup c hc)
      simp [Transition.references, hc]
  | cleanupExit e =>
    obtain ⟨htry, ⟨hexc, hfiled⟩, hlt, haround⟩ := ht
    refine ⟨(h.recording_iff _).2 htry, ⟨(h.usable_iff _).2 hexc, h.filed hfiled⟩, ?_, ?_⟩
    · rwa [h.zones]
    · rwa [h.parentRegion?_eq, h.region]
  | await a =>
    rw [Transition.mapReferences, TransitionSound, h.setting_eq, h.region]
    exact ⟨ht.1, (h.writable_iff _).2 ht.2.1, h.inRegion hg (hrefs _ List.mem_cons_self) ht.2.2⟩
  | awaitResult a => exact ⟨(h.writable_iff _).2 ht.1, fun x hx => (h.writable_iff _).2 (ht.2 x hx)⟩
  | yieldReturn value resume =>
    rw [Transition.mapReferences, TransitionSound, h.setting_eq, h.region]
    exact ⟨ht.1, h.inRegion hg (hrefs _ List.mem_cons_self) ht.2⟩
  | finish value =>
    cases value with
    | none => trivial
    | some value =>
      rw [Transition.mapReferences, TransitionSound, h.setting_eq]
      exact ht

/-- A reduced graph is regular. -/
theorem regular (hg : g.Regular n) : g'.Regular n where
  zoned := by
    obtain ⟨hpos, hparent, hregion, hkind, hinner, hzone⟩ := hg.zoned
    refine ⟨?_, ?_, ?_, ?_, ?_, ?_⟩ <;> simpa only [h.zones, h.zone_eq]
  region s hs := by
    rw [h.region, h.zones, h.zone_eq]
    exact hg.region s (h.size ▸ hs)
  node z hz hk s hs := by
    rw [h.zone_eq] at hk hs
    obtain ⟨hlt, hr⟩ := hg.node z (h.zones ▸ hz) hk s hs
    exact ⟨h.size ▸ hlt, (h.region s).trans hr⟩
  listed s hs := by
    rw [h.region, h.zone_eq]
    exact hg.listed s (h.size ▸ hs)
  once z hz hk := by
    rw [h.zone_eq] at hk ⊢
    exact hg.once z (h.zones ▸ hz) hk
  params := by
    rw [h.params]
    exact hg.params
  distinct := by
    rw [h.vars]
    exact hg.distinct
  sound s hs := by
    -- a live state was live before
    obtain ⟨hlive, -⟩ := h.kept s hs
    obtain ⟨hexpr, hresult, htrans, hroutes⟩ := hg.sound s hlive
    refine ⟨?_, ?_, fun t' ht' => ?_, fun t' ht' => ?_⟩
    · rwa [h.expressions s hs, h.setting_eq]
    · intro y e he
      rw [h.setting_eq, h.writable_iff]
      exact hresult y e (h.result s hs ▸ he)
    · obtain ⟨t, ht, hrefs⟩ := hg.leads s hlive
      rw [h.transition s hs, ht] at ht'
      obtain rfl := Option.some.inj ht'
      exact h.transitionSound hg hrefs (htrans t ht)
    · obtain ⟨t, ht, hrefs⟩ := hg.leads s hlive
      rw [h.transition s hs, ht] at ht'
      obtain rfl := Option.some.inj ht'
      intro r' hr'
      rw [exits_mapReferences] at hr'
      obtain ⟨r, hr, rfl⟩ := List.mem_map.1 hr'
      rw [h.region]
      exact h.around hg (hrefs r (Transition.mem_references_of_mem_exits hr)) (hroutes t ht r hr)
  leads s hs := by
    obtain ⟨t, ht, -⟩ := hg.leads s (h.kept s hs).1
    have ht' : (g'.state s).transition = some (t.mapReferences φ) := by
      rw [h.transition s hs, ht]
      rfl
    exact ⟨_, ht', h.leads s hs _ ht'⟩
  entry := by
    refine ⟨h.live_entry, ?_⟩
    rw [h.entry, h.region, (h.passed _).region]
    exact hg.entry.2
  label l b' hb' := by
    refine ⟨h.live_label l b' hb', ?_⟩
    rw [h.labels] at hb'
    obtain ⟨⟨_, b⟩, hb, heq⟩ := List.mem_map.1 hb'
    cases heq
    exact fun x hx => (h.writable_iff _).2 ((hg.label l b hb).2 x hx)
  unique r r' i hr hr' := by
    -- each record was there before
    obtain ⟨s, t, ht, hrec⟩ := hr
    obtain ⟨s', t', ht', hrec'⟩ := hr'
    obtain ⟨u, hu, heq⟩ := h.records s t ht
    obtain ⟨u', hu', heq'⟩ := h.records s' t' ht'
    exact hg.unique r r' i ⟨s, u, hu, heq ▸ hrec⟩ ⟨s', u', hu', heq' ▸ hrec'⟩

end Reduces

/-- Simplification reduces a graph. Either all no-ops are passed by or none. -/
theorem Regular.reduces_simplify (hg : g.Regular n) (o : Options) :
    ∃ φ, (∀ s, φ s = s ∨ φ s = g.remap s) ∧ Reduces φ g (g.simplify o).2 := by
  have hprune : ∀ {φ : Nat → Nat} {g' : Graph}, Reduces φ g g' →
      Reduces φ g (if o.pruneUnreachable then g'.prune else (0, g')).2.layout := by
    intro φ g' h
    split
    · exact h.prune.layout
    · exact h.layout
  unfold simplify
  by_cases ho : o.optimize
  · exact ⟨g.remap, fun _ => .inr rfl, by simpa [ho] using hprune hg.reduces_collapse⟩
  · exact ⟨fun s => s, fun _ => .inl rfl, by simpa [ho] using hprune hg.reduces_refl⟩

end Coroutine.Graph
