import Mathlib
import Coroutine.Proofs.Machine.Exec
import Coroutine.Proofs.Program.Tables

/-!
# Machines stand where their regions nest

The blocks around a running block are those around its region: a block is entered only by the
instruction of the state that owns its region (`Image.Nested`). `Poised` is what holds before every
instruction of a run: the position is nested in this way, a state is stored exactly when the machine
is about to be parked, and the run has taken at least two steps for every block around. One step
keeps it (`Poised.step`), and so a run that suspends has stored a state of the region where it stands
(`Poised.run`).
-/

namespace Coroutine

open Assembly

namespace Graph.Regular

variable {g : Graph} {n : Nat} (hg : g.Regular n)
include hg

/-- The states of a region that are left. -/
theorem mem_regionNodes {q : Nat} (hq : q < g.zones.size)
    (hk : (g.zone q).kind.isRegion = true) {s : Nat} :
    s ∈ g.regionNodes q ↔ g.isLive s = true ∧ (g.state s).region = q := by
  have hmem : s ∈ g.regionNodes q ↔ s ∈ (g.zone q).nodes ∧ (g.state s).pruned = false := by
    rw [regionNodes, List.mem_mergeSort, liveNodes, List.mem_filter, Bool.not_eq_true']
  rw [hmem, isLive_iff]
  constructor
  · rintro ⟨hs, hp⟩
    obtain ⟨hlt, hr⟩ := hg.node q hq hk s hs
    exact ⟨⟨hlt, hp⟩, hr⟩
  · rintro ⟨⟨hlt, hp⟩, rfl⟩
    exact ⟨hg.listed s hlt, hp⟩

/-- A region lists its states once. -/
theorem nodup_regionNodes {q : Nat} (hq : q < g.zones.size)
    (hk : (g.zone q).kind.isRegion = true) : (g.regionNodes q).Nodup :=
  (List.mergeSort_perm _ _).nodup_iff.2 ((hg.once q hq hk).filter _)

/-- Where a live state resumes is a live state of the same region. -/
theorem resumeTarget_live {s r : Nat} {t : Transition} (hs : g.isLive s = true)
    (ht : (g.state s).transition = some t) (hr : t.resumeTarget? = some r) :
    g.isLive r = true ∧ (g.state r).region = (g.state s).region := by
  obtain ⟨t', ht', hrefs⟩ := hg.leads s hs
  obtain rfl := Option.some.inj (ht.symm.trans ht')
  have hsound := (hg.sound s hs).transition t ht
  cases t with
  | await a =>
    cases hr
    exact ⟨hrefs _ List.mem_cons_self, hsound.2.2.2⟩
  | yieldReturn value resume =>
    cases hr
    exact ⟨hrefs _ List.mem_cons_self, hsound.2.2⟩
  | _ => cases hr

end Graph.Regular

namespace Assembly.Image

variable {im : Image} {n : Nat}

/-- The blocks around a region: each one holds the instruction that enters the next. -/
def Nested (im : Image) : Nat → List Enclosing → Prop
  | r, [] => r = Graph.top
  | r, e :: rest => ∃ q s t, q ∈ im.regions ∧ s ∈ im.graph.regionNodes q ∧
      (im.graph.state s).transition = some (.tryCatch t) ∧ t.region = r ∧
      e.region = im.tryRegion s t ∧ e.block = im.block q ∧
      (im.block q).instrs[e.pc]? = some (.region e.region) ∧ im.Nested q rest

/-- What stands directly around a region. -/
structure Surrounds (im : Image) (q r s : Nat) (t : RegionEntry) : Prop where
  mem : s ∈ im.graph.regionNodes q
  live : im.graph.isLive s = true
  transition : (im.graph.state s).transition = some (.tryCatch t)
  region : t.region = r
  owner : (im.graph.zone r).owner = some s
  parent : im.graph.parentRegion? r = some q
  lt : r < im.graph.zones.size
  isRegion : (im.graph.zone r).kind.isRegion = true

/-- A region lies in the one of the state that enters it. -/
theorem surrounds (hg : im.graph.Regular n) {q s : Nat} {t : RegionEntry}
    (hq : q < im.graph.zones.size) (hk : (im.graph.zone q).kind.isRegion = true)
    (hs : s ∈ im.graph.regionNodes q)
    (ht : (im.graph.state s).transition = some (.tryCatch t)) : im.Surrounds q t.region s t := by
  obtain ⟨hlive, hregion⟩ := (hg.mem_regionNodes hq hk).1 hs
  have hentry : im.graph.EntrySound n s t := (hg.sound s hlive).transition _ ht
  refine ⟨hs, hlive, ht, rfl, hentry.owner, ?_, hentry.lt, ?_⟩
  · rw [hentry.around, hregion]
  · rw [hentry.kind]
    rfl

/-- A region starts with the body that its owner enters. -/
theorem Surrounds.start (hg : im.graph.Regular n) {q r s : Nat} {t : RegionEntry}
    (h : im.Surrounds q r s t) :
    im.graph.regionStart? r = some t.body ∧ t.body ∈ im.graph.regionNodes r := by
  obtain ⟨x, hx, hrefs⟩ := hg.leads s h.live
  obtain rfl := Option.some.inj (h.transition.symm.trans hx)
  have hentry : im.graph.EntrySound n s t := (hg.sound s h.live).transition _ h.transition
  have hne : r ≠ Graph.top := by
    rintro rfl
    cases hg.zoned.parentRegion_top.symm.trans h.parent
  refine ⟨?_, (hg.mem_regionNodes h.lt h.isRegion).2 ⟨hrefs _ List.mem_cons_self, ?_⟩⟩
  · simp only [Graph.regionStart?, if_neg hne, h.owner, Option.bind_eq_bind, Option.bind_some,
      h.transition]
  · exact hentry.body.2.trans h.region

/-- Blocks are nested like the regions of a graph: by induction on the blocks around. -/
theorem Nested.region (hg : im.graph.Regular n) : ∀ {enc : List Enclosing} {r : Nat},
    im.Nested r enc → r < im.graph.zones.size ∧ (im.graph.zone r).kind.isRegion = true
  | [], r, h => by
    obtain rfl : r = Graph.top := h
    refine ⟨hg.zoned.pos, ?_⟩
    rw [hg.zoned.top_kind]
    rfl
  | e :: rest, r, h => by
    obtain ⟨q, s, t, -, hs, ht, rfl, -, -, -, hrest⟩ := h
    obtain ⟨hq, hk⟩ := hrest.region hg
    have hsur := surrounds hg hq hk hs ht
    exact ⟨hsur.lt, hsur.isRegion⟩

/-- The regions around a region, seen from its blocks. -/
theorem Nested.surrounds (hg : im.graph.Regular n) {e : Enclosing} {rest : List Enclosing} {r : Nat}
    (h : im.Nested r (e :: rest)) : ∃ q s t, q ∈ im.regions ∧ im.Surrounds q r s t ∧
      e.region = im.tryRegion s t ∧ e.block = im.block q ∧
      (im.block q).instrs[e.pc]? = some (.region e.region) ∧ im.Nested q rest := by
  obtain ⟨q, s, t, hmem, hs, ht, rfl, hregion, hblock, hinstr, hrest⟩ := h
  obtain ⟨hq, hk⟩ := hrest.region hg
  exact ⟨q, s, t, hmem, Image.surrounds hg hq hk hs ht, hregion, hblock, hinstr, hrest⟩

/-- The blocks around a region are those of the regions around it. -/
theorem Nested.chain (hg : im.graph.Regular n) (him : im.Faithful) : ∀ {enc : List Enclosing}
    {r : Nat}, im.Nested r enc →
      r :: enc.map (fun e => e.block.region) = im.graph.regionChain r
  | [], r, h => by
    obtain rfl : r = Graph.top := h
    rw [hg.zoned.regionChain_top]
    rfl
  | e :: rest, r, h => by
    obtain ⟨q, s, t, hmem, hsur, -, hblock, -, hrest⟩ := h.surrounds hg
    rw [hg.zoned.regionChain_of_parent hsur.lt hsur.parent, ← hrest.chain hg him, List.map_cons,
      hblock, (him.renders q hmem).region]

/-- The blocks around a region are determined by it. -/
theorem Nested.unique (hg : im.graph.Regular n) (him : im.Faithful) : ∀ {enc enc' : List Enclosing}
    {r : Nat}, im.Nested r enc → im.Nested r enc' → enc = enc'
  | [], [], _, _, _ => rfl
  | [], e' :: rest', r, h, h' => by
    obtain rfl : r = Graph.top := h
    obtain ⟨q, s, t, -, hsur, -⟩ := h'.surrounds hg
    cases hg.zoned.parentRegion_top.symm.trans hsur.parent
  | e :: rest, [], r, h, h' => by
    obtain rfl : r = Graph.top := h'
    obtain ⟨q, s, t, -, hsur, -⟩ := h.surrounds hg
    cases hg.zoned.parentRegion_top.symm.trans hsur.parent
  | e :: rest, e' :: rest', r, h, h' => by
    obtain ⟨q, s, t, hq, hsur, hregion, hblock, hinstr, hrest⟩ := h.surrounds hg
    obtain ⟨q', s', t', -, hsur', hregion', hblock', hinstr', hrest'⟩ := h'.surrounds hg
    obtain rfl : q = q' := Option.some.inj (hsur.parent.symm.trans hsur'.parent)
    obtain rfl : s = s' := Option.some.inj (hsur.owner.symm.trans hsur'.owner)
    have ht := Option.some.inj (hsur.transition.symm.trans hsur'.transition)
    cases ht
    obtain ⟨hlt, hk⟩ := hrest.region hg
    have hnodup := hg.nodup_regionNodes hlt hk
    -- the region is run by one instruction of the block
    obtain ⟨pc, hpc, hpos⟩ := (him.renders q hq).position_region hnodup hinstr
    obtain ⟨pc', hpc', hpos'⟩ := (him.renders q hq).position_region hnodup hinstr'
    rw [hregion] at hpos
    rw [hregion'] at hpos'
    obtain rfl := Option.some.inj (hpos.symm.trans hpos')
    obtain ⟨region, block, pc₁⟩ := e
    obtain ⟨region', block', pc₂⟩ := e'
    simp only at hregion hregion' hblock hblock' hpc hpc'
    rw [hregion, hregion', hblock, hblock', hpc, hpc', hrest.unique hg him hrest']

/-- Every block around a region is the block of a region, with its own blocks around. -/
theorem Nested.suffix {e : Enclosing} {rest : List Enclosing} : ∀ {pre : List Enclosing} {r : Nat},
    im.Nested r (pre ++ e :: rest) → ∃ q, q ∈ im.regions ∧ e.block = im.block q ∧
      (im.block q).instrs[e.pc]? = some (.region e.region) ∧ im.Nested q rest
  | [], r, h => by
    obtain ⟨q, s, t, hmem, -, -, -, -, hblock, hinstr, hrest⟩ := h
    exact ⟨q, hmem, hblock, hinstr, hrest⟩
  | _ :: pre, r, h => by
    obtain ⟨q, s, t, -, -, -, -, -, -, -, hrest⟩ := h
    exact hrest.suffix

end Assembly.Image

/-! ## Runs -/

/-- The steps that an instruction needs to have been made before it: a region is entered behind its
label. -/
def Instr.entryCost : Instr → Nat
  | .region _ => 1
  | _ => 0

/-- An instruction with targets neither parks nor stores a state. -/
theorem Instr.plain_of_targets {i : Instr} {target : Target} (h : target ∈ i.targets) :
    i.isParking = false ∧ i.stored? = none := by
  cases i <;> first | exact ⟨rfl, rfl⟩ | cases h

/-- An instruction with expressions neither parks nor stores a state. -/
theorem Instr.plain_of_exprs {i : Instr} (h : i.exprs ≠ []) :
    i.isParking = false ∧ i.stored? = none := by
  cases i <;> first | exact ⟨rfl, rfl⟩ | exact absurd rfl h

/-- An instruction enters one block at most. -/
theorem Instr.entryCost_le (i : Instr) : i.entryCost ≤ 1 := by
  cases i <;> simp [entryCost]

namespace Assembly.Image

/-- A state to resume at, of a region. -/
def Resumes (im : Image) (r : Nat) (state : Int) : Prop :=
  ∃ c : Nat, state = Int.ofNat c ∧ c ∈ im.graph.regionNodes r ∧ c ∈ im.graph.resumeStates

/-- What holds before every instruction of a run. -/
structure Poised (im : Image) (r : Nat) (p : Position) (d : Durable) (steps : Nat) : Prop where
  mem : r ∈ im.regions
  block : p.block = im.block r
  nested : im.Nested r p.enclosing
  stored : ∀ i, p.block.instrs[p.pc]? = some i →
    if i.isParking then im.Resumes r d.state else d.state = startState
  budget : ∀ i, p.block.instrs[p.pc]? = some i → 2 * p.enclosing.length + i.entryCost ≤ steps

namespace Poised

variable {im : Image} {n r steps : Nat} {p : Position} {d : Durable}

/-- A run may go on at a label of the block. -/
theorem jump (h : im.Poised r p d steps) {target : Target} {pc : Nat}
    (hpos : p.block.position? target = some pc) {d' : Durable} (hstart : d'.state = startState)
    {steps' : Nat} (hsteps : 2 * p.enclosing.length ≤ steps') :
    im.Poised r { p with pc } d' steps' := by
  have hlabel := Block.getElem?_of_position? hpos
  refine ⟨h.mem, h.block, h.nested, fun i hi => ?_, fun i hi => ?_⟩
  · obtain rfl := Option.some.inj (hlabel.symm.trans hi)
    exact hstart
  · obtain rfl := Option.some.inj (hlabel.symm.trans hi)
    exact hsteps

/-- A run may go on after a region around. -/
theorem of_lands (him : im.Faithful) {enc : List Enclosing} (hnested : im.Nested r enc)
    (hstart : d.state = startState) (hsteps : 2 * enc.length ≤ steps) {p' : Position}
    (hp' : CompiledMachine.LandsIn enc p') : ∃ q, im.Poised q p' d (steps + 1) := by
  obtain ⟨pre, e, rest, rfl, rfl⟩ := hp'
  obtain ⟨q, hq, hblock, hinstr, hrest⟩ := hnested.suffix
  refine ⟨q, hq, hblock, hrest, fun i hi => ?_, fun i hi => ?_⟩
  · have hpark : i.isParking = false :=
      (him.renders q hq).isParking_after hinstr (by rw [← hblock]; exact hi)
    rw [hpark]
    exact hstart
  · have hcost := i.entryCost_le
    rw [List.length_append, List.length_cons] at hsteps
    simp only
    omega

/-- A run that enters a region goes on at its first state. -/
theorem enter (him : im.Faithful) (h : im.Poised r p d steps)
    {region : TryRegion} (hi : p.block.instrs[p.pc]? = some (.region region)) :
    ∃ q, im.Poised q ⟨region.block, 0, ⟨region, p.block, p.pc⟩ :: p.enclosing⟩ d (steps + 1) := by
  have hstart : d.state = startState := h.stored _ hi
  have hbudget := h.budget _ hi
  rw [h.block] at hi
  obtain ⟨s, hs, next, hmem⟩ := (him.renders r h.mem).mem_instrs (Block.mem_of_getElem? hi)
  obtain ⟨t, ht, rfl⟩ := region_mem_stateCode hmem
  have hq : t.region ∈ im.regions := ((him.renders r h.mem).states s hs).inner _ ht _ _ rfl
  refine ⟨t.region, hq, rfl, ⟨r, s, t, h.mem, hs, ht, rfl, rfl, h.block, hi, h.nested⟩,
    fun i hi' => ?_, fun i hi' => ?_⟩
  · obtain ⟨s', rfl⟩ := (him.renders _ hq).head_label hi'
    exact hstart
  · obtain ⟨s', rfl⟩ := (him.renders _ hq).head_label hi'
    simp only [Instr.entryCost, List.length_cons] at hbudget ⊢
    omega

/-- A run goes on behind an instruction that lets it. -/
theorem advance (hg : im.graph.Regular n) (him : im.Faithful) (h : im.Poised r p d steps)
    {i : Instr} (hi : p.block.instrs[p.pc]? = some i) (hadv : i.advances = true) {d' : Durable}
    (hd' : d'.state = i.stored?.getD d.state) :
    im.Poised r { p with pc := p.pc + 1 } d' (steps + 1) := by
  have hrenders := him.renders r h.mem
  have hblock := h.block
  have hbudget := h.budget i hi
  have hstored := h.stored i hi
  refine ⟨h.mem, h.block, h.nested, fun j hj => ?_, fun j hj => ?_⟩
  -- a state is stored right before control is given back
  · rw [hblock] at hi hj
    rw [hrenders.isParking_after hi hj]
    cases i with
    | setState c =>
      obtain ⟨s, hs, next, hmem⟩ := hrenders.mem_instrs (Block.mem_of_getElem? hi)
      obtain ⟨t, c, ht, hc, rfl⟩ := setState_mem_stateCode hmem
      obtain ⟨hq, hk⟩ := h.nested.region hg
      obtain ⟨hlive, hregion⟩ := (hg.mem_regionNodes hq hk).1 hs
      obtain ⟨hlive', hregion'⟩ := hg.resumeTarget_live hlive ht hc
      exact ⟨c, hd', (hg.mem_regionNodes hq hk).2 ⟨hlive', hregion'.trans hregion⟩,
        Graph.mem_resumeStates.2 ⟨s, t, hlive, ht, hc⟩⟩
    | register awaiter binder =>
      obtain ⟨c, hc, hrest⟩ : im.Resumes r d.state := hstored
      exact ⟨c, hd'.trans hc, hrest⟩
    | suspend => cases hadv
    | _ => exact hd'.trans hstored
  · have hcost := j.entryCost_le
    simp only
    omega

end Poised

end Assembly.Image

namespace CompiledMachine

variable {im : Image} {n r : Nat}

/-- Without a stored state a block is entered at its start. -/
theorem entryPoint_start {b : Block} {d : Durable} (hd : d.state = startState) (w : World σ) :
    entryPoint b (d, w) = some (.ok 0, (d, w)) := by
  change (if d.state = startState then _ else _ : Exec σ Nat) (d, w) = _
  rw [if_pos hd]
  rfl

/-- What holds when a run has suspended: a state of the region where it stands is stored, and the
limit allows for the steps to come back to it. -/
def Parked (im : Image) (limit : Option Nat) (state : Int) : Prop :=
  ∃ r enc, r ∈ im.regions ∧ im.Nested r enc ∧ im.Resumes r state ∧
    ∀ k ≤ 2 * enc.length, limitReached limit k = false

/-- What one step of a run comes to. -/
def StepsTo (im : Image) (p : Position) (steps : Nat) (res : Except RunError (Position ⊕ Flow))
    (d : Durable) : Prop :=
  (∀ p', res = .ok (.inl p') → ∃ q, im.Poised q p' d (steps + 1)) ∧
    ∀ kind, res = .ok (.inr (.suspend kind)) → ∃ q, q ∈ im.regions ∧ im.Nested q p.enclosing ∧
      im.Resumes q d.state ∧ 2 * p.enclosing.length ≤ steps

namespace StepsTo

variable {p : Position} {d : Durable} {steps : Nat}

/-- A step may end with an error. -/
theorem error (e : RunError) : StepsTo im p steps (.error e) d :=
  ⟨by simp, by simp⟩

/-- A step may lead to where the run is poised to go on. -/
theorem on {p' : Position} (h : ∃ q, im.Poised q p' d (steps + 1)) :
    StepsTo im p steps (.ok (.inl p')) d := by
  refine ⟨fun p₁ hp => ?_, by simp⟩
  cases hp
  exact h

end StepsTo

/-- One step keeps a run poised, and it suspends only with a state stored. -/
theorem step_poised (hg : im.graph.Regular n) (him : im.Faithful) (env : Env σ) (fuel : Nat)
    (m : CompiledMachine) {p : Position} {d : Durable} {steps : Nat} (h : im.Poised r p d steps)
    {i : Instr} (hi : p.block.instrs[p.pc]? = some i) (w : World σ) :
    Exec.Ensures (m.stepAt env fuel p i) (d, w) fun res s' => StepsTo im p steps res s'.1 := by
  have hbudget : 2 * p.enclosing.length ≤ steps := (Nat.le_add_right _ _).trans (h.budget i hi)
  have hstored := h.stored i hi
  -- only instructions that park a machine run while a state is stored
  have hplain : ∀ {d' : Durable}, d'.state = i.stored?.getD d.state → i.isParking = false →
      i.stored? = none → d'.state = startState := by
    intro d' hd' hpark hnone
    rw [hpark] at hstored
    rw [hd', hnone]
    exact hstored
  have hjump : ∀ {target : Target} {d' : Durable} {w' : World σ}, d'.state = startState →
      Exec.Ensures (proceed p (.jump target)) (d', w') fun res s' => StepsTo im p steps res s'.1 := by
    intro target d' w' hstart
    rw [proceed]
    split
    · rename_i pc hpos
      exact .pure (.on ⟨r, h.jump hpos hstart (hbudget.trans (Nat.le_succ _))⟩)
    · refine .bind fun res s₁ hres => ?_
      obtain ⟨hkeeps, hlands⟩ := leaveTo_lands env fuel m target p.enclosing d' w' res s₁ hres
      cases res with
      | error e => exact .error e
      | ok p₁ =>
        exact .pure (.on (Image.Poised.of_lands him h.nested (hkeeps.trans hstart) hbudget
          (hlands p₁ rfl)))
  refine stepAt_ensures env fuel m ?_ ?_ ?_
  · rintro next ⟨d', w'⟩ hexec
    have hfollows := exec_follows env fuel m i _ _ _ hexec next rfl
    obtain ⟨hstate, -⟩ := exec_durable env fuel m i _ _ _ _ hexec
    cases hfollows with
    | advance hadv => exact .pure (.on ⟨r, h.advance hg him hi hadv hstate⟩)
    | jump ht => exact hjump (hplain hstate (Instr.plain_of_targets ht).1 (Instr.plain_of_targets ht).2)
    | escape he _ => exact hjump (hplain hstate (Instr.plain_of_exprs he).1 (Instr.plain_of_exprs he).2)
    | suspend kind =>
      refine .pure ⟨by simp, fun kind' hkind => ⟨r, h.mem, h.nested, ?_, hbudget⟩⟩
      rw [hstate]
      exact hstored
    | complete v => exact .pure ⟨by simp, by simp⟩
    | enter region =>
      have hstart : d'.state = startState := hplain hstate rfl rfl
      refine .bind fun res s₁ hres => ?_
      rw [entryPoint_start hstart] at hres
      cases hres
      have hstored' : im.Poised r p d' steps :=
        ⟨h.mem, h.block, h.nested, fun j hj => by
          obtain rfl := Option.some.inj (hi.symm.trans hj)
          exact hstart, h.budget⟩
      exact .pure (.on (hstored'.enter him hi))
  · rintro e ⟨d', w'⟩ hexec
    have hno := fun hpark => exec_parks env fuel m hpark _ _ _ hexec e rfl
    obtain ⟨hstate, -⟩ := exec_durable env fuel m i _ _ _ _ hexec
    have hstart : d'.state = startState := by
      refine hplain hstate ?_ ?_
      · by_contra hpark
        exact hno (.inr (by simpa using hpark))
      · cases i with
        | setState => exact absurd (.inl rfl) hno
        | _ => rfl
    intro res s₁ hres
    obtain ⟨hkeeps, hlands⟩ := catchIn_lands env fuel m e p.enclosing d' w' res s₁ hres
    cases res with
    | error e => exact .error e
    | ok p₁ =>
      exact .on (Image.Poised.of_lands him h.nested (hkeeps.trans hstart) hbudget (hlands p₁ rfl))
  · exact fun e s' _ => .error e

/-- A limit that has not been reached was not reached before. -/
theorem limitReached_mono {limit : Option Nat} {k l : Nat} (hkl : k ≤ l)
    (hl : limitReached limit l = false) : limitReached limit k = false := by
  cases limit with
  | none => rfl
  | some bound =>
    simp only [limitReached, decide_eq_false_iff_not, not_le] at hl ⊢
    omega

/-- A run that suspends has stored where it resumes. -/
theorem run_poised (hg : im.graph.Regular n) (him : im.Faithful) (env : Env σ)
    (m : CompiledMachine) (fuel : Nat) {steps : Nat} {p : Position} {d : Durable}
    (h : im.Poised r p d steps) (w : World σ) :
    Exec.Ensures (m.runFrom env fuel steps p) (d, w) fun res s' =>
      ∀ kind, res = .ok (.suspend kind) → Parked im m.limit s'.1.state := by
  -- by induction on the fuel: every step that goes on leaves the machine poised
  induction fuel generalizing r steps p d w with
  | zero =>
    intro res s' hrun
    cases hrun
  | succ fuel ih =>
    unfold runFrom
    split
    · exact .throw nofun
    · rename_i i hi
      split
      · exact .throw nofun
      · rename_i hlimit
        have hlimit : limitReached m.limit steps = false := by simpa using hlimit
        refine .bind ((step_poised hg him env fuel m h hi w).mono ?_)
        rintro (e | (p' | flow)) ⟨d', w'⟩ ⟨hon, hstop⟩
        · nofun
        · obtain ⟨q, hq⟩ := hon p' rfl
          exact ih hq w'
        · refine .pure fun kind hkind => ?_
          cases hkind
          obtain ⟨q, hq, hnested, hresumes, hbudget⟩ := hstop kind rfl
          exact ⟨q, p.enclosing, hq, hnested, hresumes, fun k hk =>
            limitReached_mono (hk.trans hbudget) hlimit⟩

end CompiledMachine

end Coroutine
