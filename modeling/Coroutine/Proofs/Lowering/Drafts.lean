import Mathlib
import Coroutine.Graph.Lowering
import Coroutine.Proofs.Graph.Shape
import Coroutine.Proofs.Tree.Settings

/-!
# Drafts that lowering makes

`Draft.Sound n d` says what holds of every graph in the making, where `n` is the number of the first
temporary: its zones and states have a proper shape, its expressions use declared variables only and
never the variables in which regions record how they were left, the entry of a protected region
stands directly around it, and a state that suspends resumes in its own region.

Lowering makes two variables for every protected region, one after the other: the first records how
the region was left, the second holds what was thrown in it. Expressions and states assign neither.

`Draft.Extends` is how a draft may change: states, zones and variables are added, and what is there
keeps its place. A part of lowering *leads* from a sound draft to a sound one that extends it and has
the same open zones.
-/

namespace Coroutine

variable {r i : Nat} {f : State → State}

/-- The name of a variable that records how a region was left. -/
def Var.IsTryState (x : Var) : Prop := x.name = "$try_state" ++ toString x.word

/-- The name of a variable that holds what was thrown in a region. -/
def Var.IsException (x : Var) : Prop := x.name = "$exception" ++ toString x.word

/-- The region a transition keeps a record about, and the variable of the record. -/
def Transition.record? : Transition → Option (Nat × Nat)
  | .tryCatch t => some (t.region, t.tryState.id)
  | .cleanupExit e => some (e.region, e.tryState.id)
  | _ => none

/-- The states that a transition names, without the body of a region that it enters. -/
def Transition.exits : Transition → List Nat
  | .tryCatch t => t.handlers.map HandlerEntry.body ++ t.cleanup.toList ++ [t.join]
  | t => t.references

/-- An exit is one of the references. -/
theorem Transition.mem_references_of_mem_exits {t : Transition} (h : r ∈ t.exits) :
    r ∈ t.references := by
  cases t with
  | tryCatch t => exact List.mem_cons_of_mem _ h
  | _ => exact h

namespace Graph

/-! ## Variables -/

/-- The variables that expressions may use; `n` is the number of the first temporary. -/
def Usable (g : Graph) (n i : Nat) : Prop :=
  ∃ x ∈ g.params ++ g.vars, x.id = i ∧ ¬ (n ≤ i ∧ x.IsTryState)

/-- The variables for records. -/
def Recording (g : Graph) (n : Nat) (x : Var) : Prop := x ∈ g.vars ∧ n ≤ x.id ∧ x.IsTryState

/-- The variables that expressions and states may assign. -/
def Assignable (g : Graph) (n i : Nat) : Prop :=
  i < n ∨ ∃ x ∈ g.vars, x.id = i ∧ ¬ x.IsTryState ∧ ¬ x.IsException

/-- The variables that may be used and assigned. -/
def Writable (g : Graph) (n i : Nat) : Prop := g.Usable n i ∧ g.Assignable n i

/-- Two variables made for one region, the second right after the first. -/
structure Filed (g : Graph) (n : Nat) (x y : Var) : Prop where
  mem : y ∈ g.vars
  le : n ≤ y.id
  name : y.IsException
  next : y.id = x.id + 1

/-- The setting of the expressions in a graph. -/
def setting (g : Graph) (n : Nat) : Setting where
  inner i := i < n
  bound := g.Usable n
  assigned := g.Assignable n
  handling := false
  waits := false

/-- Whether some state keeps a record about a region in a variable. -/
def Records (g : Graph) (r i : Nat) : Prop :=
  ∃ s t, (g.state s).transition = some t ∧ t.record? = some (r, i)

/-! ## States -/

/-- A state that is there, in a region. -/
def InRegion (g : Graph) (s r : Nat) : Prop := s < g.states.size ∧ (g.state s).region = r

/-- A state that is there, in a region or in one around it. -/
def Around (g : Graph) (s r : Nat) : Prop :=
  s < g.states.size ∧ (g.state s).region ∈ g.regionChain r

/-- The region of a state is around it. -/
theorem InRegion.around {g : Graph} {s : Nat} (h : g.InRegion s r) : g.Around s r :=
  ⟨h.1, h.2 ▸ Zoned.mem_regionChain_self⟩

/-- The entry of a protected region, made by the state `s`. -/
structure EntrySound (g : Graph) (n s : Nat) (t : RegionEntry) : Prop where
  kind : (g.zone t.region).kind = .guarded
  lt : t.region < g.zones.size
  owner : (g.zone t.region).owner = some s
  around : g.parentRegion? t.region = some (g.state s).region
  body : g.InRegion t.body t.region
  tryState : g.Recording n t.tryState
  exception : g.Usable n t.exception.id
  filed : g.Filed n t.tryState t.exception
  codes : t.handlers.map HandlerEntry.code = (List.range' 1 t.handlers.length).map Int.ofNat
  cleanup : ∀ c ∈ t.cleanup, g.InRegion c (g.state s).region

/-- What holds of the transition of a state `s`. -/
def TransitionSound (g : Graph) (n s : Nat) : Transition → Prop
  | .goto _ | .loop _ | .yieldBreak | .finish none => True
  | .conditional test _ _ => test.Fits (g.setting n)
  | .switch value arms _ =>
    value.Fits (g.setting n) ∧ ∀ a ∈ arms, ∀ e ∈ a.tests, e.Fits (g.setting n)
  | .tryCatch t => g.EntrySound n s t
  | .cleanupExit e =>
    g.Recording n e.tryState ∧ (g.Usable n e.exception.id ∧ g.Filed n e.tryState e.exception) ∧
      e.region < g.zones.size ∧ g.parentRegion? e.region = some (g.state s).region
  | .await a =>
    a.awaitable.Fits (g.setting n) ∧ g.Writable n a.awaiter.id ∧
      g.InRegion a.completion (g.state s).region
  | .awaitResult a => g.Writable n a.awaiter.id ∧ ∀ x ∈ a.result, g.Writable n x.id
  | .yieldReturn value resume =>
    value.Fits (g.setting n) ∧ g.InRegion resume (g.state s).region
  | .finish (some value) => value.Fits (g.setting n)

/-- What holds of a state `x` with the number `s`. -/
structure StateSound (g : Graph) (n s : Nat) (x : State) : Prop where
  expressions : ∀ e ∈ x.expressions, e.Fits (g.setting n)
  result : ∀ y e, x.result = some (y, e) → g.Writable n y.id ∧ e.Fits (g.setting n)
  transition : ∀ t, x.transition = some t → g.TransitionSound n s t
  routes : ∀ t, x.transition = some t → ∀ r ∈ t.exits, g.Around r (g.state s).region

end Graph

namespace Lowering

/-- What holds of every graph in the making, where `n` is the number of the first temporary. -/
structure Draft.Sound (n : Nat) (d : Draft) : Prop where
  shape : d.graph.Shape
  first : n ≤ d.nextVar
  params : ∀ x ∈ d.graph.params, x.id < n
  vars : ∀ x ∈ d.graph.vars, x.id < d.nextVar
  distinct : (d.graph.vars.map Var.id).Nodup
  states : ∀ s < d.graph.states.size, d.graph.StateSound n s (d.graph.state s)
  live : ∀ s, (d.graph.state s).pruned = false
  labels : ∀ l b, (l, b) ∈ d.graph.labels →
    b.state < d.graph.states.size ∧ ∀ x ∈ b.var, d.graph.Writable n x.id
  records : ∀ r i, d.graph.Records r i → i < d.nextVar
  unique : ∀ r r' i, d.graph.Records r i → d.graph.Records r' i → r = r'

/-- A draft where all that another one has is in its place. -/
structure Draft.Keeps (d d' : Draft) : Prop where
  states : d.graph.states.size ≤ d'.graph.states.size
  region : ∀ s < d.graph.states.size, (d'.graph.state s).region = (d.graph.state s).region
  zones : d.graph.zones.size ≤ d'.graph.zones.size
  kind : ∀ z < d.graph.zones.size, (d'.graph.zone z).kind = (d.graph.zone z).kind
  parent : ∀ z < d.graph.zones.size, (d'.graph.zone z).parent = (d.graph.zone z).parent
  zoneRegion : ∀ z < d.graph.zones.size, (d'.graph.zone z).region = (d.graph.zone z).region
  owner : ∀ z o, (d.graph.zone z).owner = some o → (d'.graph.zone z).owner = some o
  params : d'.graph.params = d.graph.params
  vars : ∀ x ∈ d.graph.vars, x ∈ d'.graph.vars
  entry : d'.graph.entry = d.graph.entry

/-- A draft that adds to another one. Its new records are in new variables. -/
structure Draft.Extends (d d' : Draft) : Prop extends Draft.Keeps d d' where
  nextVar : d.nextVar ≤ d'.nextVar
  records : ∀ r i, d'.graph.Records r i → d.graph.Records r i ∨ d.nextVar ≤ i

namespace Draft.Keeps

variable {d d₁ d₂ : Draft} {n : Nat}

/-- A draft keeps itself. -/
theorem refl (d : Draft) : d.Keeps d :=
  ⟨le_rfl, fun _ _ => rfl, le_rfl, fun _ _ => rfl, fun _ _ => rfl, fun _ _ => rfl, fun _ _ h => h,
    rfl, fun _ h => h, rfl⟩

variable (h : d.Keeps d₁)
include h

/-- What is kept twice is kept. -/
theorem trans (h' : d₁.Keeps d₂) : d.Keeps d₂ where
  states := h.states.trans h'.states
  region s hs := (h'.region s (hs.trans_le h.states)).trans (h.region s hs)
  zones := h.zones.trans h'.zones
  kind z hz := (h'.kind z (hz.trans_le h.zones)).trans (h.kind z hz)
  parent z hz := (h'.parent z (hz.trans_le h.zones)).trans (h.parent z hz)
  zoneRegion z hz := (h'.zoneRegion z (hz.trans_le h.zones)).trans (h.zoneRegion z hz)
  owner z o ho := h'.owner z o (h.owner z o ho)
  params := h'.params.trans h.params
  vars x hx := h'.vars x (h.vars x hx)
  entry := h'.entry.trans h.entry

/-- Usable variables stay usable. -/
theorem usable (hi : d.graph.Usable n i) : d₁.graph.Usable n i := by
  obtain ⟨x, hx, hid, hn⟩ := hi
  refine ⟨x, ?_, hid, hn⟩
  rcases List.mem_append.1 hx with hx | hx
  · exact List.mem_append_left _ (h.params ▸ hx)
  · exact List.mem_append_right _ (h.vars x hx)

/-- Variables for records stay variables for records. -/
theorem recording {x : Var} (hx : d.graph.Recording n x) :
    d₁.graph.Recording n x := ⟨h.vars x hx.1, hx.2⟩

/-- Assignable variables stay assignable. -/
theorem assignable (hi : d.graph.Assignable n i) : d₁.graph.Assignable n i := by
  refine hi.imp_right ?_
  rintro ⟨x, hx, hrest⟩
  exact ⟨x, h.vars x hx, hrest⟩

/-- Writable variables stay writable. -/
theorem writable (hi : d.graph.Writable n i) : d₁.graph.Writable n i :=
  ⟨h.usable hi.1, h.assignable hi.2⟩

/-- The records of a region stay together. -/
theorem filed {x y : Var} (hf : d.graph.Filed n x y) : d₁.graph.Filed n x y :=
  { hf with mem := h.vars y hf.mem }

/-- All that is bound stays bound. -/
theorem setting : (d.graph.setting n).Within (d₁.graph.setting n) :=
  ⟨fun _ h => h, fun _ => h.usable, fun _ => h.assignable, id, id⟩

/-- An expression that fits a draft fits the ones that extend it. -/
theorem fits {e : Expr} (he : e.Fits (d.graph.setting n)) :
    e.Fits (d₁.graph.setting n) := he.mono h.setting

/-- A state stays in its region. -/
theorem inRegion {s : Nat} (hs : d.graph.InRegion s r) :
    d₁.graph.InRegion s r := ⟨hs.1.trans_le h.states, (h.region s hs.1).trans hs.2⟩

/-- The next region around a zone stays the same. -/
theorem parentRegion (hd : d.graph.Zoned) {z : Nat} (hz : z < d.graph.zones.size) :
    d₁.graph.parentRegion? z = d.graph.parentRegion? z := by
  unfold Graph.parentRegion?
  rw [h.parent z hz]
  cases hp : (d.graph.zone z).parent with
  | none => rfl
  | some p =>
    have hlt := (hd.parent_lt hz hp).trans hz
    simp only [Option.map_some, h.zoneRegion p hlt]

/-- The regions around a zone stay the same: by induction on the depth of the search. -/
theorem regionsFrom (hd : d.graph.Zoned) : ∀ (fuel : Nat) {z : Nat},
    z < d.graph.zones.size → d₁.graph.regionsFrom fuel z = d.graph.regionsFrom fuel z
  | 0, _, _ => rfl
  | fuel + 1, z, hz => by
    rw [Graph.regionsFrom, Graph.regionsFrom, h.parentRegion hd hz]
    cases hp : d.graph.parentRegion? z with
    | none => rfl
    | some p => simp only [regionsFrom hd fuel ((hd.parentRegion_lt hz hp).trans hz)]

/-- The regions around a region stay so. -/
theorem around (hd : d.graph.Zoned) {s z : Nat} (hz : z < d.graph.zones.size)
    (hs : d.graph.Around s z) : d₁.graph.Around s z := by
  refine ⟨hs.1.trans_le h.states, ?_⟩
  rw [h.region s hs.1, Graph.regionChain, h.regionsFrom hd _ hz]
  exact hs.2

/-- A sound transition stays sound. -/
theorem transitionSound (hd : d.graph.Zoned) {s : Nat} (hs : s < d.graph.states.size)
    {t : Transition} (ht : d.graph.TransitionSound n s t) : d₁.graph.TransitionSound n s t := by
  have hregion := h.region s hs
  cases t with
  | goto | loop | yieldBreak => trivial
  | conditional => exact h.fits ht
  | switch => exact ⟨h.fits ht.1, fun a ha e he => h.fits (ht.2 a ha e he)⟩
  | tryCatch t =>
    obtain ⟨hkind, hlt, howner, haround, hbody, htry, hexc, hfiled, hcodes, hcleanup⟩ := ht
    refine ⟨(h.kind _ hlt).trans hkind, hlt.trans_le h.zones, h.owner _ _ howner, ?_,
      h.inRegion hbody, h.recording htry, h.usable hexc, h.filed hfiled, hcodes,
      fun c hc => hregion ▸ h.inRegion (hcleanup c hc)⟩
    rw [h.parentRegion hd hlt, haround, hregion]
  | cleanupExit e =>
    obtain ⟨htry, hexc, hlt, haround⟩ := ht
    refine ⟨h.recording htry, ⟨h.usable hexc.1, h.filed hexc.2⟩, hlt.trans_le h.zones, ?_⟩
    rw [h.parentRegion hd hlt, haround, hregion]
  | await a => exact ⟨h.fits ht.1, h.writable ht.2.1, hregion ▸ h.inRegion ht.2.2⟩
  | awaitResult a => exact ⟨h.writable ht.1, fun x hx => h.writable (ht.2 x hx)⟩
  | yieldReturn => exact ⟨h.fits ht.1, hregion ▸ h.inRegion ht.2⟩
  | finish value =>
    cases value with
    | none => trivial
    | some value => exact h.fits ht

/-- A sound state stays sound. -/
theorem stateSound (hd : d.graph.Shape) {s : Nat} (hs : s < d.graph.states.size) {x : State}
    (hx : d.graph.StateSound n s x) :
    d₁.graph.StateSound n s x where
  expressions e he := h.fits (hx.expressions e he)
  result y e he := ⟨h.writable (hx.result y e he).1, h.fits (hx.result y e he).2⟩
  transition t ht := h.transitionSound hd.zoned hs (hx.transition t ht)
  routes t ht r hr := by
    rw [h.region s hs]
    exact h.around hd.zoned (hd.region_lt hs) (hx.routes t ht r hr)

end Draft.Keeps

namespace Draft.Extends

variable {d d₁ d₂ : Draft}

/-- A draft extends itself. -/
theorem refl (d : Draft) : d.Extends d := ⟨.refl d, le_rfl, fun _ _ h => .inl h⟩

/-- Extensions follow each other. -/
theorem trans (h : d.Extends d₁) (h' : d₁.Extends d₂) :
    d.Extends d₂ where
  toKeeps := h.toKeeps.trans h'.toKeeps
  nextVar := h.nextVar.trans h'.nextVar
  records r i hr := by
    rcases h'.records r i hr with hr | hi
    · exact h.records r i hr
    · exact .inr (h.nextVar.trans hi)

/-- What is known of a record stays so: later records are kept in later variables. -/
theorem own (h : d.Extends d₁) (hi : i < d.nextVar) (hr : ∀ q, d.graph.Records q i → q = r) :
    ∀ q, d₁.graph.Records q i → q = r := by
  intro q hq
  rcases h.records q i hq with hq | hle
  · exact hr q hq
  · omega

end Draft.Extends

/-! ## Edits of a sound draft -/

/-- A draft whose graph is another one. -/
def Draft.on (d : Draft) (g : Graph) : Draft := { d with graph := g }

/-- A draft in which the end of one more state is noted. -/
def Draft.noting (d : Draft) (s : Nat) (t : Transition) : Draft :=
  { d with ended := (s, t) :: d.ended }

/-- Noting a transition keeps a draft sound: the graph stays the same. -/
theorem Draft.Sound.noting {n : Nat} {d : Draft} (hd : d.Sound n) (s : Nat) (t : Transition) :
    (d.noting s t).Sound n :=
  ⟨hd.shape, hd.first, hd.params, hd.vars, hd.distinct, hd.states, hd.live, hd.labels, hd.records,
    hd.unique⟩

/-- What a draft keeps it keeps while a transition is noted. -/
theorem Draft.Keeps.noting {d d' : Draft} (h : d.Keeps d') (s : Nat) (t : Transition) :
    d.Keeps (d'.noting s t) :=
  ⟨h.states, h.region, h.zones, h.kind, h.parent, h.zoneRegion, h.owner, h.params, h.vars, h.entry⟩

/-- An extension is one while a transition is noted. -/
theorem Draft.Extends.noting {d d' : Draft} (h : d.Extends d') (s : Nat) (t : Transition) :
    d.Extends (d'.noting s t) := ⟨h.toKeeps.noting s t, h.nextVar, h.records⟩

/-- A graph with other zones, and with empty states added, but the same contents. -/
structure Rearranged (g g' : Graph) : Prop where
  states : g.states.size ≤ g'.states.size
  old : ∀ s < g.states.size, g'.state s = g.state s
  new : ∀ s, g.states.size ≤ s → (g'.state s).expressions = [] ∧ (g'.state s).result = none ∧
    (g'.state s).transition = none ∧ (g'.state s).pruned = false
  zones : g.zones.size ≤ g'.zones.size
  kind : ∀ z < g.zones.size, (g'.zone z).kind = (g.zone z).kind
  parent : ∀ z < g.zones.size, (g'.zone z).parent = (g.zone z).parent
  region : ∀ z < g.zones.size, (g'.zone z).region = (g.zone z).region
  owner : ∀ z o, (g.zone z).owner = some o → (g'.zone z).owner = some o
  params : g'.params = g.params
  vars : g'.vars = g.vars
  labels : g'.labels = g.labels
  entry : g'.entry = g.entry

/-- The transitions stay where states and zones are rearranged. -/
theorem Rearranged.transition {g g' : Graph} (h : Rearranged g g') (s : Nat) :
    (g'.state s).transition = (g.state s).transition := by
  by_cases hs : s < g.states.size
  · rw [h.old s hs]
  · rw [(h.new s (not_lt.1 hs)).2.2.1, Graph.state_of_le g (not_lt.1 hs)]
    rfl

/-- No record is added. -/
theorem Rearranged.records {g g' : Graph} (h : Rearranged g g') (hr : g'.Records r i) :
    g.Records r i := by
  obtain ⟨s, t, ht, hrec⟩ := hr
  exact ⟨s, t, by rw [← h.transition s, ht], hrec⟩

/-- A draft on a rearranged graph extends the draft. -/
theorem Rearranged.extends {d : Draft} {g : Graph} (h : Rearranged d.graph g) :
    d.Extends (d.on g) where
  states := h.states
  region s hs := congrArg State.region (h.old s hs)
  zones := h.zones
  kind := h.kind
  parent := h.parent
  zoneRegion := h.region
  owner := h.owner
  params := h.params
  vars _ hx := h.vars ▸ hx
  entry := h.entry
  nextVar := le_rfl
  records _ _ hr := .inl (h.records hr)

namespace Draft.Sound

variable {d : Draft} {n : Nat} (hd : d.Sound n)
include hd

/-- Rearranging zones and adding empty states keeps a draft sound. -/
theorem rearrange {g : Graph} (hshape : g.Shape) (h : Rearranged d.graph g) : (d.on g).Sound n where
  shape := hshape
  first := hd.first
  params x hx := hd.params x (h.params ▸ hx)
  vars x hx := hd.vars x (h.vars ▸ hx)
  distinct := by
    rw [show (d.on g).graph.vars = d.graph.vars from h.vars]
    exact hd.distinct
  states s hs := by
    -- old states stay as they are, and new ones are empty
    by_cases hlt : s < d.graph.states.size
    · rw [show (d.on g).graph.state s = d.graph.state s from h.old s hlt]
      exact h.extends.stateSound hd.shape hlt (hd.states s hlt)
    · obtain ⟨hexpr, hresult, htrans, -⟩ := h.new s (not_lt.1 hlt)
      refine ⟨fun e he => ?_, fun x e he => ?_, fun t ht => ?_, fun t ht => ?_⟩
      · rw [show (d.on g).graph.state s = g.state s from rfl, hexpr] at he
        cases he
      · exact absurd (hresult.symm.trans he) nofun
      · exact absurd (htrans.symm.trans ht) nofun
      · exact absurd (htrans.symm.trans ht) nofun
  live s := by
    by_cases hlt : s < d.graph.states.size
    · exact (congrArg State.pruned (h.old s hlt)).trans (hd.live s)
    · exact (h.new s (not_lt.1 hlt)).2.2.2
  labels l b hb := by
    obtain ⟨hstate, hvar⟩ := hd.labels l b (h.labels ▸ hb)
    exact ⟨hstate.trans_le h.states, fun x hx => h.extends.writable (hvar x hx)⟩
  records r i hr := hd.records r i (h.records hr)
  unique r r' i hr hr' := hd.unique r r' i (h.records hr) (h.records hr')

end Draft.Sound

/-! ### Zones and states -/

section

variable (g : Graph)

/-- A new state comes behind the others. -/
theorem rearranged_addState : Rearranged g g.addState.2 where
  states := by simp
  old s hs := Graph.state_addState_of_ne g hs.ne
  new s hs := by
    rcases hs.eq_or_lt with rfl | hlt
    · rw [Graph.state_addState_self]
      exact ⟨rfl, rfl, rfl, rfl⟩
    · rw [Graph.state_addState_of_ne g hlt.ne', Graph.state_of_le g hs]
      exact ⟨rfl, rfl, rfl, rfl⟩
  zones := by simp
  kind z _ := Graph.zone_addState_proj g Zone.kind (fun _ _ => rfl) z
  parent z _ := Graph.zone_addState_proj g Zone.parent (fun _ _ => rfl) z
  region z _ := Graph.zone_addState_proj g Zone.region (fun _ _ => rfl) z
  owner z o ho := (Graph.zone_addState_proj g Zone.owner (fun _ _ => rfl) z).trans ho
  params := rfl
  vars := rfl
  labels := rfl
  entry := rfl

/-- An edit that leaves the states alone and only adds zones. -/
theorem rearranged_of_states {g g' : Graph} (hstates : g'.states = g.states)
    (hsize : g.zones.size ≤ g'.zones.size)
    (hzone : ∀ z < g.zones.size, (g'.zone z).kind = (g.zone z).kind ∧
      (g'.zone z).parent = (g.zone z).parent ∧ (g'.zone z).region = (g.zone z).region)
    (howner : ∀ z o, (g.zone z).owner = some o → (g'.zone z).owner = some o)
    (hparams : g'.params = g.params) (hvars : g'.vars = g.vars) (hlabels : g'.labels = g.labels)
    (hentry : g'.entry = g.entry) : Rearranged g g' := by
  have hstate : ∀ s, g'.state s = g.state s := fun s => by simp only [Graph.state, hstates]
  refine ⟨hstates ▸ le_rfl, fun s _ => hstate s, fun s hs => ?_, hsize, fun z hz => (hzone z hz).1,
    fun z hz => (hzone z hz).2.1, fun z hz => (hzone z hz).2.2, howner, hparams, hvars, hlabels,
    hentry⟩
  rw [hstate, Graph.state_of_le g hs]
  exact ⟨rfl, rfl, rfl, rfl⟩

/-- Zones beyond the last one have no owner. -/
theorem rearranged_enterZone (kind : ZoneKind) : Rearranged g (g.enterZone kind).2 := by
  refine rearranged_of_states rfl (by simp) (fun z hz => ?_) (fun z o ho => ?_) rfl rfl rfl rfl
  · rw [Graph.zone_enterZone_of_ne g kind hz.ne]
    exact ⟨rfl, rfl, rfl⟩
  · by_cases hz : z < g.zones.size
    · rw [Graph.zone_enterZone_of_ne g kind hz.ne, ho]
    · simp [Graph.zone, Array.getD, hz] at ho
      cases ho

/-- Closing a zone rearranges the nodes of zones only. -/
theorem rearranged_exitZone : Rearranged g g.exitZone.2 :=
  rearranged_of_states (by simp) (by simp)
    (fun z _ => ⟨Graph.zone_exitZone_proj g Zone.kind (fun _ _ => rfl) z,
      Graph.zone_exitZone_proj g Zone.parent (fun _ _ => rfl) z,
      Graph.zone_exitZone_proj g Zone.region (fun _ _ => rfl) z⟩)
    (fun z o ho => (Graph.zone_exitZone_proj g Zone.owner (fun _ _ => rfl) z).trans ho)
    (by simp) (by simp) (by simp) (by simp)

/-- Only a region without an owner gets one. -/
theorem rearranged_setOwner (s : Nat) (hr : (g.zone r).owner = none) :
    Rearranged g (g.setOwner r s) := by
  have hkeep : ∀ {α : Type} (π : Zone → α), (∀ x : Zone, π { x with owner := some s } = π x) →
      ∀ z, π ((g.setOwner r s).zone z) = π (g.zone z) := fun π hπ z =>
    Graph.zone_modifyZone_proj g π hπ z
  refine rearranged_of_states rfl (by simp [Graph.setOwner])
    (fun z _ => ⟨hkeep Zone.kind (fun _ => rfl) z, hkeep Zone.parent (fun _ => rfl) z,
      hkeep Zone.region (fun _ => rfl) z⟩) (fun z o ho => ?_) rfl rfl rfl rfl
  have hne : z ≠ r := by
    rintro rfl
    rw [hr] at ho
    cases ho
  rw [Graph.setOwner, Graph.zone_modifyZone_of_ne g _ hne, ho]

end

/-! ### Contents of states -/

/-- An edit of one state that leaves it in its place. -/
structure Local (f : State → State) : Prop where
  zone : ∀ x, (f x).zone = x.zone
  region : ∀ x, (f x).region = x.region
  pruned : ∀ x, (f x).pruned = x.pruned

variable {b d : Draft} {n : Nat}

/-- Only the changed state can have a record that was not there. -/
theorem records_modifyState {g : Graph} {j : Nat} (h : (g.modifyState i f).Records r j) :
    g.Records r j ∨
      ∃ t, (f (g.state i)).transition = some t ∧ t.record? = some (r, j) := by
  obtain ⟨s, t, ht, hrec⟩ := h
  by_cases hs : s = i
  · subst hs
    by_cases hlt : s < g.states.size
    · rw [Graph.state_modifyState_self g f hlt] at ht
      exact .inr ⟨t, ht, hrec⟩
    · rw [Graph.state_of_le _ (by simpa using hlt)] at ht
      cases ht
  · rw [Graph.state_modifyState_of_ne g f hs] at ht
    exact .inl ⟨s, t, ht, hrec⟩

/-- A change of one state that keeps its region is kept to by all drafts. -/
theorem Draft.keeps_edit (hf : Local f) (d : Draft) (i : Nat) :
    d.Keeps (d.on (d.graph.modifyState i f)) where
  states := by simp [Draft.on]
  region s _ := Graph.state_modifyState_proj d.graph State.region hf.region s
  zones := le_rfl
  kind _ _ := rfl
  parent _ _ := rfl
  zoneRegion _ _ := rfl
  owner _ _ ho := ho
  params := rfl
  vars _ hx := hx
  entry := rfl

/-- Editing a state extends whatever the draft extends, if a new record is new. -/
theorem Draft.Extends.edit (h : b.Extends d) (hf : Local f) (i : Nat)
    (hrec : ∀ t r j, (f (d.graph.state i)).transition = some t → t.record? = some (r, j) →
      b.graph.Records r j ∨ b.nextVar ≤ j) : b.Extends (d.on (d.graph.modifyState i f)) where
  toKeeps := h.toKeeps.trans (d.keeps_edit hf i)
  nextVar := h.nextVar
  records r j hr := by
    rcases records_modifyState hr with hr | ⟨t, ht, hj⟩
    · exact h.records r j hr
    · exact hrec t r j ht hj

/-- Editing a state keeps a draft sound, if the state stays so and a new record is about the same
region as the others in its variable. -/
theorem Draft.Sound.edit (hd : d.Sound n) (hf : Local f) (i : Nat)
    (hstate : d.graph.StateSound n i (f (d.graph.state i)))
    (hrec : ∀ t r j, (f (d.graph.state i)).transition = some t → t.record? = some (r, j) →
      j < d.nextVar ∧ ∀ q, d.graph.Records q j → q = r) :
    (d.on (d.graph.modifyState i f)).Sound n where
  shape := hd.shape.modifyState i hf.zone hf.region
  first := hd.first
  params := hd.params
  vars := hd.vars
  distinct := hd.distinct
  states s hs := by
    have hlt : s < d.graph.states.size := by simpa [Draft.on] using hs
    refine (d.keeps_edit hf i).stateSound hd.shape hlt ?_
    by_cases hi : s = i
    · subst hi
      rw [show (d.on (d.graph.modifyState s f)).graph.state s = f (d.graph.state s) from
        Graph.state_modifyState_self _ f hlt]
      exact hstate
    · rw [show (d.on (d.graph.modifyState i f)).graph.state s = d.graph.state s from
        Graph.state_modifyState_of_ne _ f hi]
      exact hd.states s hlt
  live s := (Graph.state_modifyState_proj d.graph State.pruned hf.pruned s).trans (hd.live s)
  labels l b hb := by
    obtain ⟨hlt, hvar⟩ := hd.labels l b hb
    exact ⟨hlt.trans_le (d.keeps_edit hf i).states, hvar⟩
  records r j hr := by
    rcases records_modifyState hr with hr | ⟨t, ht, hj⟩
    · exact hd.records r j hr
    · exact (hrec t r j ht hj).1
  unique r r' j hr hr' := by
    -- two regions that use one variable: at most one of them can be new
    rcases records_modifyState hr with hr | ⟨t, ht, hj⟩ <;>
      rcases records_modifyState hr' with hr' | ⟨t', ht', hj'⟩
    · exact hd.unique r r' j hr hr'
    · exact (hrec t' r' j ht' hj').2 r hr
    · exact ((hrec t r j ht hj).2 r' hr').symm
    · obtain rfl : t = t' := Option.some.inj (ht.symm.trans ht')
      exact congrArg Prod.fst (Option.some.inj (hj.symm.trans hj'))

/-! ### Variables and labels -/

/-- A draft with one more variable. -/
def Draft.addVar (d : Draft) (x : Var) (next : Nat) : Draft :=
  { d with graph := { d.graph with vars := d.graph.vars ++ [x] }, nextVar := next }

/-- A draft with the same states and zones, and more variables. -/
theorem Draft.extends_of_eq {d d' : Draft} (hstates : d'.graph.states = d.graph.states)
    (hzones : d'.graph.zones = d.graph.zones) (hparams : d'.graph.params = d.graph.params)
    (hentry : d'.graph.entry = d.graph.entry) (hvars : ∀ x ∈ d.graph.vars, x ∈ d'.graph.vars)
    (hnext : d.nextVar ≤ d'.nextVar) : d.Extends d' := by
  have hstate : ∀ s, d'.graph.state s = d.graph.state s := fun s => by
    simp only [Graph.state, hstates]
  have hzone : ∀ z, d'.graph.zone z = d.graph.zone z := fun z => by simp only [Graph.zone, hzones]
  refine ⟨⟨by rw [hstates], fun s _ => by rw [hstate], by rw [hzones], fun z _ => by rw [hzone],
    fun z _ => by rw [hzone], fun z _ => by rw [hzone], fun z o ho => by rw [hzone, ho], hparams,
    hvars, hentry⟩, hnext, fun r i hr => .inl ?_⟩
  obtain ⟨s, t, ht, hrec⟩ := hr
  exact ⟨s, t, by rw [← hstate, ht], hrec⟩

/-- A variable is declared: the temporaries go on behind it. -/
theorem Draft.extends_addVar (d : Draft) (x : Var) {next : Nat} (hnext : d.nextVar ≤ next) :
    d.Extends (d.addVar x next) :=
  Draft.extends_of_eq rfl rfl rfl rfl (fun _ hy => List.mem_append_left _ hy) hnext

/-- A new variable keeps a draft sound. -/
theorem Draft.Sound.addVar (hd : d.Sound n) {x : Var} {next : Nat} (hnext : d.nextVar ≤ next)
    (hx : x.id < next) (hnew : ∀ y ∈ d.graph.vars, y.id ≠ x.id) : (d.addVar x next).Sound n where
  shape := hd.shape.congr rfl (fun _ => ⟨rfl, rfl⟩) rfl (fun _ => ⟨rfl, rfl, rfl, rfl⟩) rfl
  first := hd.first.trans hnext
  params := hd.params
  vars y hy := by
    rcases List.mem_append.1 hy with hy | hy
    · exact (hd.vars y hy).trans_le hnext
    · rw [List.mem_singleton.1 hy]
      exact hx
  distinct := by
    simp only [Draft.addVar, List.map_append, List.map_cons, List.map_nil]
    refine List.nodup_append.2 ⟨hd.distinct, by simp, fun i hi j hj => ?_⟩
    obtain ⟨y, hy, rfl⟩ := List.mem_map.1 hi
    rw [List.mem_singleton.1 hj]
    exact hnew y hy
  states s hs :=
    (d.extends_addVar x hnext).stateSound hd.shape hs (hd.states s hs)
  live := hd.live
  labels l b hb := by
    obtain ⟨hlt, hvar⟩ := hd.labels l b hb
    exact ⟨hlt, fun y hy => (d.extends_addVar x hnext).writable (hvar y hy)⟩
  records r i hr := (hd.records r i hr).trans_le hnext
  unique := hd.unique

/-- A draft with one more label. -/
def Draft.addLabel (d : Draft) (l : Nat) (b : LabelBinding) : Draft :=
  d.on { d.graph with labels := d.graph.labels ++ [(l, b)] }

/-- A label is bound: no state is touched. -/
theorem Draft.extends_addLabel (d : Draft) (l : Nat) (b : LabelBinding) :
    d.Extends (d.addLabel l b) := Draft.extends_of_eq rfl rfl rfl rfl (fun _ h => h) le_rfl

/-- A new label keeps a draft sound. -/
theorem Draft.Sound.addLabel (hd : d.Sound n) (l : Nat) {b : LabelBinding}
    (hstate : b.state < d.graph.states.size) (hvar : ∀ x ∈ b.var, d.graph.Writable n x.id) :
    (d.addLabel l b).Sound n where
  shape := hd.shape.congr rfl (fun _ => ⟨rfl, rfl⟩) rfl (fun _ => ⟨rfl, rfl, rfl, rfl⟩) rfl
  first := hd.first
  params := hd.params
  vars := hd.vars
  distinct := hd.distinct
  states s hs := (d.extends_addLabel l b).stateSound hd.shape hs (hd.states s hs)
  live := hd.live
  labels k c hc := by
    rcases List.mem_append.1 hc with hc | hc
    · exact hd.labels k c hc
    · obtain ⟨rfl, rfl⟩ := Prod.mk.inj (List.mem_singleton.1 hc)
      exact ⟨hstate, hvar⟩
  records := hd.records
  unique := hd.unique

end Lowering

end Coroutine
