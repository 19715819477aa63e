import Mathlib
import Coroutine.Proofs.Machine.Resumption

/-!
# Codes and records of regions

A region records by a code how it was left. The codes of its exits are numbered on from those of its
handlers, one for every target outside, so the instructions that go on as the region was left can
map each code back to its target: `Image.sortsOut`.

The record is kept in two variables that belong to the region alone (`Graph.Regular.owner_unique`).
The instructions of a program assign them only where a region is about to be entered.
-/

namespace Coroutine

open Assembly

variable {next : Option Nat} {exception : Var} {cases : List (Int × Target)} {rethrows : Bool}
  {fallback : Target} {s' : Nat}

/-! ## Regions of a program -/

namespace Program

/-- The protected regions of a program, at any depth. -/
def Protects (p : Program) (r : TryRegion) : Prop :=
  ∃ b ∈ p.entry.blocks, .region r ∈ b.instrs.toList

/-- The words of the variables that hold the records of a program's regions. -/
def Holds (p : Program) (i : Nat) : Prop :=
  ∃ r, p.Protects r ∧ (i = r.tryState.word ∨ i = r.exception.word)

/-- What tells the ways out of a region apart. -/
structure SortsOut (p : Program) (r : TryRegion) : Prop where
  targets : (r.exits.map RegionExit.target).Nodup
  codes : (r.exits.map RegionExit.code).Nodup
  handlers : ∀ x ∈ r.exits, ∀ h ∈ r.handlers, x.code ≠ h.2
  reserved : ∀ x ∈ r.exits, x.code ≠ notLeft ∧ x.code ≠ unhandled
  /-- Wherever control goes on as the region was left, a code leads to its target. -/
  maps : ∀ b ∈ p.entry.blocks, ∀ exception cases rethrows fallback,
    .dispatch r.tryState exception cases rethrows fallback ∈ b.instrs.toList →
      ∀ x ∈ r.exits, cases.lookup x.code = some x.target

end Program

/-- A block is one of the blocks inside it. -/
theorem Block.mem_blocks_self (b : Block) : b ∈ b.blocks := by
  obtain ⟨region, table, ⟨instrs⟩⟩ := b
  exact List.mem_cons_self

/-- The blocks inside an instruction are inside all of them. -/
theorem Instr.mem_blocksList {b : Block} {i : Instr} : ∀ {is : List Instr}, i ∈ is →
    b ∈ i.blocks → b ∈ Instr.blocksList is
  | j :: is, hi, hb => by
    rcases List.mem_cons.1 hi with rfl | hi
    · exact List.mem_append_left _ hb
    · exact List.mem_append_right _ (mem_blocksList hi hb)

section

variable {b : Block} {r : TryRegion}

/-- The blocks inside a region's block are inside the region. -/
theorem Instr.mem_blocks_region : b ∈ r.block.blocks → b ∈ (Instr.region r).blocks := by
  obtain ⟨owner, block, tryState, exception, handlers, catchAll, exits⟩ := r
  exact id

mutual

/-- The block of a region is inside whatever instruction the block with the region is inside. -/
theorem Instr.blocks_inside (hr : .region r ∈ b.instrs.toList) : ∀ {i : Instr}, b ∈ i.blocks →
    r.block ∈ i.blocks
  | .region ⟨_, _, _, _, _, _, _⟩, hb => Block.blocks_inside hr hb

/-- The block of a region is inside whatever instructions the block with the region is inside. -/
theorem Instr.blocksList_inside (hr : .region r ∈ b.instrs.toList) : ∀ {is : List Instr},
    b ∈ Instr.blocksList is → r.block ∈ Instr.blocksList is
  | i :: is, hb => by
    rcases List.mem_append.1 hb with hb | hb
    · exact List.mem_append_left _ (Instr.blocks_inside hr hb)
    · exact List.mem_append_right _ (Instr.blocksList_inside hr hb)

/-- A block inside a block inside is a block inside. -/
theorem Block.blocks_inside (hr : .region r ∈ b.instrs.toList) : ∀ {b₀ : Block}, b ∈ b₀.blocks →
    r.block ∈ b₀.blocks
  | ⟨region, table, ⟨instrs⟩⟩, hb => by
    refine List.mem_cons_of_mem _ ?_
    rcases List.mem_cons.1 hb with rfl | hb
    · exact Instr.mem_blocksList hr (Instr.mem_blocks_region (Block.mem_blocks_self _))
    · exact Instr.blocksList_inside hr hb

end

end

namespace Assembly

/-! ## Codes -/

/-- Exits are numbered one after the other. -/
theorem exitCodes_codes {g : Graph} {r : Nat} : ∀ {targets : List (Target × String)} {k : Nat}
    {exits : List RegionExit}, exitCodes g r (Int.ofNat k) targets = .ok exits →
      exits.map RegionExit.code = (List.range' k exits.length).map Int.ofNat
  | [], k, exits, h => by
    cases h
    rfl
  | (.reentry s, name) :: targets, k, exits, h => by cases h
  | (.state s, name) :: targets, k, exits, h => by
    rw [exitCodes] at h
    split at h
    · cases h
    · split at h
      · cases h
      · obtain ⟨rest, hrest, h⟩ := bind_eq_ok.1 h
        cases h
        rw [List.map_cons, List.length_cons, List.range'_succ, List.map_cons,
          exitCodes_codes (k := k + 1) hrest]

/-- Each target outside a block is listed once. -/
theorem nodup_outside (instrs : List Instr) (targets : List (Target × String)) :
    ((outside instrs targets).map Prod.fst).Nodup := by
  have hfold : ∀ (l seen : List (Target × String)), (seen.map Prod.fst).Nodup →
      ((l.foldl (fun seen t => if seen.any (·.1 == t.1) then seen else seen ++ [t]) seen).map
        Prod.fst).Nodup := by
    intro l
    induction l with
    | nil => exact fun _ h => h
    | cons t l ih =>
      intro seen h
      rw [List.foldl_cons]
      refine ih _ ?_
      split
      · exact h
      · rename_i hnew
        rw [List.map_append]
        refine List.nodup_append.2 ⟨h, List.nodup_singleton _, fun a ha b hb hab => hnew ?_⟩
        obtain ⟨t', ht', rfl⟩ := List.mem_map.1 ha
        refine List.any_eq_true.2 ⟨t', ht', ?_⟩
        rw [hab, List.mem_singleton.1 hb]
        exact beq_self_eq_true _
  exact hfold _ _ List.nodup_nil

namespace Image

variable {im : Image} {n q r s : Nat} {t : RegionEntry}

/-- A region whose block is part of the program. -/
structure Entered (im : Image) (q : Nat) : Prop where
  mem : q ∈ im.regions
  lt : q < im.graph.zones.size
  isRegion : (im.graph.zone q).kind.isRegion = true

/-- The nodes of a region that is entered are live. -/
theorem Entered.live (hg : im.graph.Regular n) (h : im.Entered q)
    (hs : s ∈ im.graph.regionNodes q) : im.graph.isLive s = true :=
  ((hg.mem_regionNodes h.lt h.isRegion).1 hs).1

/-- A region that is nested around a place is entered. -/
theorem Nested.entered (hg : im.graph.Regular n) {enc : List Enclosing} (h : im.Nested q enc)
    (hq : q ∈ im.regions) : im.Entered q :=
  ⟨hq, (h.region hg).1, (h.region hg).2⟩

section

variable (hg : im.graph.Regular n) (him : im.Faithful)
include hg him

/-- The outermost region is always entered. -/
theorem entered_top : im.Entered Graph.top := by
  have hnested : im.Nested Graph.top [] := rfl
  exact hnested.entered hg him.top

/-- What the state that enters a region and the region have to do with each other. -/
theorem Entered.surrounds (h : im.Entered q) (hs : s ∈ im.graph.regionNodes q)
    (ht : (im.graph.state s).transition = some (.tryCatch t)) :
    im.Surrounds q t.region s t ∧ im.Entered t.region := by
  have hsur := Image.surrounds hg h.lt h.isRegion hs ht
  exact ⟨hsur, ((him.renders q h.mem).states s hs).inner _ ht _ _ rfl, hsur.lt, hsur.isRegion⟩

/-- The blocks of a program are those of the regions entered in it. -/
theorem mem_program_blocks {b : Block} (hb : b ∈ im.program.entry.blocks) :
    ∃ q, im.Entered q ∧ b = im.block q := by
  refine Inherits.block (fun q hq i hi r hr => ?_) ⟨_, entered_top hg him, rfl⟩ hb
  obtain ⟨s, hs, next, hcode⟩ := (him.renders q hq.mem).mem_instrs (hr ▸ hi)
  obtain ⟨t, ht, rfl⟩ := region_mem_stateCode hcode
  exact ⟨t.region, (hq.surrounds hg him hs ht).2, rfl⟩

/-- A region of a program is entered by a state. -/
theorem protects {region : TryRegion} (h : im.program.Protects region) :
    ∃ q s t, im.Entered q ∧ im.Surrounds q t.region s t ∧
      im.Entered t.region ∧ region = im.tryRegion s t := by
  obtain ⟨b, hb, hmem⟩ := h
  obtain ⟨q, hq, rfl⟩ := mem_program_blocks hg him hb
  obtain ⟨s, hs, next, hcode⟩ := (him.renders q hq.mem).mem_instrs hmem
  obtain ⟨t, ht, rfl⟩ := region_mem_stateCode hcode
  obtain ⟨hsur, hinner⟩ := hq.surrounds hg him hs ht
  exact ⟨q, s, t, hq, hsur, hinner, rfl⟩

end

/-- The block of a region is part of the program, and so are the regions around it. -/
theorem Nested.mem_blocks : ∀ {enc : List Enclosing} {r : Nat}, im.Nested r enc →
    im.block r ∈ im.program.entry.blocks ∧ ∀ e ∈ enc, im.program.Protects e.region
  | [], r, h => by
    obtain rfl : r = Graph.top := h
    exact ⟨Block.mem_blocks_self _, nofun⟩
  | e :: rest, r, h => by
    obtain ⟨q, s, t, -, -, -, rfl, hregion, -, hinstr, hrest⟩ := h
    obtain ⟨hq, hall⟩ := hrest.mem_blocks
    have hmem := Block.mem_of_getElem? hinstr
    have hinside := Block.blocks_inside hmem hq
    rw [hregion] at hinside
    exact ⟨hinside, List.forall_mem_cons.2 ⟨⟨_, hq, hmem⟩, hall⟩⟩

/-! ## Exits -/

/-- The handlers of a region are those of its entry. -/
theorem Surrounds.handlerCount (hsur : im.Surrounds q r s t) :
    handlerCount im.graph r = t.handlers.length := by
  simp [Assembly.handlerCount, hsur.owner, hsur.transition]

/-- No target has two exits. -/
theorem Renders.nodup_targets (hr : im.Renders r) :
    ((im.exits r).map RegionExit.target).Nodup := by
  obtain ⟨labels, -, hexits⟩ := hr.exists_exits
  rw [(exitCodes_eq_ok hexits).1]
  exact nodup_outside _ _

/-! ## Dispatches -/

/-- The instructions that go on as a region was left: behind a region without a cleanup, and at the
end of a cleanup. -/
theorem dispatch_mem_stateCode {tryState : Var}
    (h : .dispatch tryState exception cases rethrows fallback ∈ im.stateCode next s) :
    (∃ t, (im.graph.state s).transition = some (.tryCatch t) ∧ t.cleanup = none ∧
      tryState = t.tryState ∧ exception = t.exception ∧ rethrows = false ∧
      cases = (t.handlers.map fun h => (h.code, Target.state h.body)) ++ im.exitCases t.region) ∨
    ∃ e, (im.graph.state s).transition = some (.cleanupExit e) ∧ tryState = e.tryState ∧
      exception = e.exception ∧ rethrows = true ∧ cases = im.exitCases e.region := by
  cases emits_of_mem h with
  | own ht h =>
    cases h with
    | dispatch t hcleanup => exact .inl ⟨t, ht, hcleanup, rfl, rfl, rfl, rfl⟩
    | leave e => exact .inr ⟨e, ht, rfl, rfl, rfl, rfl⟩

section

variable (hg : im.graph.Regular n) (hsur : im.Surrounds q r s t)
include hg hsur

/-- The codes of the handlers and of the exits of a region are the numbers from one on. -/
theorem Surrounds.codes (hr : im.Renders r) :
    t.handlers.map HandlerEntry.code ++ (im.exits r).map RegionExit.code =
      (List.range' 1 (t.handlers.length + (im.exits r).length)).map Int.ofNat := by
  have hentry : im.graph.EntrySound n s t := (hg.sound s hsur.live).transition _ hsur.transition
  obtain ⟨labels, -, hexits⟩ := hr.exists_exits
  rw [hsur.handlerCount] at hexits
  rw [hentry.codes, exitCodes_codes (k := t.handlers.length + 1) hexits, ← List.map_append,
    Nat.add_comm t.handlers.length 1, List.range'_append_1]

/-- No two codes of a region are the same. -/
theorem Surrounds.nodup_codes (hr : im.Renders r) :
    (t.handlers.map HandlerEntry.code ++ (im.exits r).map RegionExit.code).Nodup := by
  rw [hsur.codes hg hr]
  have hrange : (List.range' 1 (t.handlers.length + (im.exits r).length)).Nodup :=
    List.nodup_range'
  exact hrange.map fun a b hab => Int.ofNat.inj hab

/-- The code of an exit is a positive number. -/
theorem Surrounds.code_pos (hr : im.Renders r) {x : RegionExit} (hx : x ∈ im.exits r) :
    0 < x.code := by
  have hmem : x.code ∈ t.handlers.map HandlerEntry.code ++ (im.exits r).map RegionExit.code :=
    List.mem_append_right _ (List.mem_map_of_mem hx)
  rw [hsur.codes hg hr] at hmem
  obtain ⟨k, hk, heq⟩ := List.mem_map.1 hmem
  have hpos := (List.mem_range'_1.1 hk).1
  rw [← heq]
  exact Int.ofNat_lt.2 hpos

/-- A dispatch of the record of a region belongs to the region. -/
theorem Surrounds.dispatch (hlive : im.graph.isLive s' = true)
    (h : .dispatch t.tryState exception cases rethrows fallback ∈ im.stateCode next s') :
    (s' = s ∧ t.cleanup = none ∧ exception = t.exception ∧ rethrows = false ∧
      cases = (t.handlers.map fun h => (h.code, Target.state h.body)) ++ im.exitCases r) ∨
    ∃ e, (im.graph.state s').transition = some (.cleanupExit e) ∧ e.region = r ∧
      e.tryState = t.tryState ∧ exception = e.exception ∧ rethrows = true ∧
      cases = im.exitCases r := by
  have hrecords : im.graph.Records r t.tryState.id :=
    ⟨s, _, hsur.transition, by rw [Transition.record?, hsur.region]⟩
  rcases dispatch_mem_stateCode h with
    ⟨t', ht', hcleanup, hvar, hexc, hre, hcases⟩ | ⟨e, he, hvar, hexc, hre, hcases⟩
  · have hrecords' : im.graph.Records t'.region t.tryState.id :=
      ⟨s', _, ht', by rw [Transition.record?, hvar]⟩
    have hregion := hg.unique _ _ _ hrecords' hrecords
    have hentry : im.graph.EntrySound n s' t' := (hg.sound s' hlive).transition _ ht'
    have howner := hentry.owner
    rw [hregion] at howner
    obtain rfl : s = s' := Option.some.inj (hsur.owner.symm.trans howner)
    cases hsur.transition.symm.trans ht'
    exact .inl ⟨rfl, hcleanup, hexc, hre, hregion ▸ hcases⟩
  · have hrecords' : im.graph.Records e.region t.tryState.id :=
      ⟨s', _, he, by rw [Transition.record?, hvar]⟩
    have hregion := hg.unique _ _ _ hrecords' hrecords
    exact .inr ⟨e, he, hregion, hvar.symm, hexc, hre, hregion ▸ hcases⟩

/-- A dispatch of the record of a region maps the code of an exit to its target. -/
theorem Surrounds.maps (hr : im.Renders r) (hlive : im.graph.isLive s' = true)
    (h : .dispatch t.tryState exception cases rethrows fallback ∈ im.stateCode next s')
    {x : RegionExit} (hx : x ∈ im.exits r) : cases.lookup x.code = some x.target := by
  have hnodup := hsur.nodup_codes hg hr
  have hmem : (x.code, x.target) ∈ im.exitCases r := List.mem_map_of_mem hx
  have hcodes : (im.exitCases r).map Prod.fst = (im.exits r).map RegionExit.code := by
    rw [exitCases, List.map_map]
    rfl
  rcases hsur.dispatch hg hlive h with ⟨-, -, -, -, rfl⟩ | ⟨e, -, -, -, -, -, rfl⟩
  · refine lookup_of_mem ?_ (List.mem_append_right _ hmem)
    rw [List.map_append, hcodes, List.map_map]
    exact hnodup
  · refine lookup_of_mem ?_ hmem
    rw [hcodes]
    exact hnodup.of_append_right

end

/-- The ways out of every region of a program are told apart. -/
theorem sortsOut (hg : im.graph.Regular n) (him : im.Faithful) {region : TryRegion}
    (h : im.program.Protects region) : im.program.SortsOut region := by
  obtain ⟨q, s, t, hq, hsur, hinner, rfl⟩ := protects hg him h
  have hr := him.renders _ hinner.mem
  have hnodup := hsur.nodup_codes hg hr
  refine ⟨hr.nodup_targets, hnodup.of_append_right, fun x hx h hh => ?_, fun x hx => ?_, ?_⟩
  · obtain ⟨h', hh', rfl⟩ := List.mem_map.1 hh
    exact ((List.nodup_append.1 hnodup).2.2 _ (List.mem_map_of_mem hh') _
      (List.mem_map_of_mem hx)).symm
  · have hpos := hsur.code_pos hg hr hx
    exact ⟨hpos.ne', by rw [unhandled]; omega⟩
  · intro b hb exception cases rethrows fallback hmem x hx
    obtain ⟨q', hq', rfl⟩ := mem_program_blocks hg him hb
    obtain ⟨s', hs', next, hcode⟩ := (him.renders q' hq'.mem).mem_instrs hmem
    exact hsur.maps hg hr (hq'.live hg hs') hcode hx

end Image

end Assembly

/-! ## Records -/

/-- The words of the two variables for the record of a region. -/
def RegionEntry.Holds (t : RegionEntry) (i : Nat) : Prop :=
  i = t.tryState.word ∨ i = t.exception.word

/-- The record of how a region was left is not that of its exception. -/
theorem Var.not_isException {x : Var} (h : x.IsTryState) : ¬x.IsException := by
  intro h'
  have heq : ("$try_state" ++ toString x.word).toList = ("$exception" ++ toString x.word).toList :=
    congrArg String.toList (h.symm.trans h')
  rw [String.toList_append, String.toList_append] at heq
  exact absurd (List.append_cancel_right heq) (by decide)

/-- The numbers of all variables, temporaries included, are words. -/
def Graph.InRange (g : Graph) : Prop := ∀ x ∈ g.params ++ g.vars, x.id < UInt32.size

instance (g : Graph) : Decidable g.InRange := inferInstanceAs (Decidable (∀ x ∈ _, _))

/-- A tidy graph of which each variable has a word of its own. -/
structure Graph.Narrow (n : Nat) (g : Graph) : Prop extends g.Tidy n where
  range : g.InRange

/-- The variables of a narrow graph are their own words. -/
theorem Graph.Narrow.word {g : Graph} {n : Nat} (h : g.Narrow n) {x : Var} (hx : x ∈ g.vars) :
    x.word = x.id :=
  word_of_lt (h.range x (List.mem_append_right _ hx))

namespace Graph.Regular

variable {g : Graph} {n s i : Nat} {t : RegionEntry} (hg : g.Regular n)
include hg

/-- Variables of a tidy graph with one number are the same. -/
theorem var_eq {x y : Var} (hx : x ∈ g.vars) (hy : y ∈ g.vars) (h : x.id = y.id) : x = y :=
  List.inj_on_of_nodup_map hg.distinct hx hy h

/-- The variables of a record are not assigned by expressions and states. -/
theorem not_assignable (hnarrow : g.Narrow n) (hs : g.isLive s = true)
    (ht : (g.state s).transition = some (.tryCatch t)) (hi : t.Holds (word i)) :
    ¬g.Assignable n i := by
  have hentry : g.EntrySound n s t := (hg.sound s hs).transition _ ht
  have hfiled : g.Filed n t.tryState t.exception :=
    ((hnarrow.states s hs).transition _ ht).filed (t.tryState, t.exception) rfl
  obtain ⟨hmem, hle, hname⟩ := hentry.tryState
  rw [RegionEntry.Holds, hnarrow.word hmem, hnarrow.word hfiled.mem] at hi
  rintro (hlt | ⟨y, hy, rfl, hnotry, hnoexc⟩)
  · have hlimit := hnarrow.range _ (List.mem_append_right _ hmem)
    rw [word_of_lt (by omega)] at hi
    have := hfiled.le
    omega
  · rw [show word y.id = y.id from hnarrow.word hy] at hi
    rcases hi with hi | hi
    · exact hnotry (hg.var_eq hy hmem hi ▸ hname)
    · exact hnoexc (hg.var_eq hy hfiled.mem hi ▸ hfiled.name)

/-- The variables of a record belong to one region. -/
theorem owner_unique (hnarrow : g.Narrow n) {t' : RegionEntry} (hs : g.isLive s = true)
    (ht : (g.state s).transition = some (.tryCatch t)) (hs' : g.isLive s' = true)
    (ht' : (g.state s').transition = some (.tryCatch t')) (hi : t.Holds i) (hi' : t'.Holds i) :
    s = s' := by
  have hentry : g.EntrySound n s t := (hg.sound s hs).transition _ ht
  have hentry' : g.EntrySound n s' t' := (hg.sound s' hs').transition _ ht'
  have hfiled : g.Filed n t.tryState t.exception :=
    ((hnarrow.states s hs).transition _ ht).filed (t.tryState, t.exception) rfl
  have hfiled' : g.Filed n t'.tryState t'.exception :=
    ((hnarrow.states s' hs').transition _ ht').filed (t'.tryState, t'.exception) rfl
  rw [RegionEntry.Holds, hnarrow.word hentry.tryState.1, hnarrow.word hfiled.mem] at hi
  rw [RegionEntry.Holds, hnarrow.word hentry'.tryState.1, hnarrow.word hfiled'.mem] at hi'
  -- the two kinds of variables have different names
  have hapart : ∀ {x y : Var}, g.Recording n x → y ∈ g.vars → y.IsException → x.id ≠ y.id := by
    intro x y hx hy hname hid
    exact Var.not_isException hx.2.2 (hg.var_eq hx.1 hy hid ▸ hname)
  have hsame : t.tryState.id = t'.tryState.id → s = s' := by
    intro hid
    have hregion : t.region = t'.region :=
      hg.unique _ _ t.tryState.id ⟨s, _, ht, rfl⟩ ⟨s', _, ht', by rw [Transition.record?, hid]⟩
    have howner := hentry.owner
    rw [hregion, hentry'.owner] at howner
    exact (Option.some.inj howner).symm
  rcases hi with hi | hi <;> rcases hi' with hi' | hi'
  · exact hsame (hi.symm.trans hi')
  · exact absurd (hi.symm.trans hi') (hapart hentry.tryState hfiled'.mem hfiled'.name)
  · exact absurd (hi'.symm.trans hi) (hapart hentry'.tryState hfiled.mem hfiled.name)
  · have h₁ := hfiled.next
    have h₂ := hfiled'.next
    exact hsame (by omega)

end Graph.Regular

namespace Assembly.Image

variable {im : Image} {n q s i : Nat} {t : RegionEntry}

/-- What holds a record of the program is not assigned by expressions and states. -/
theorem not_holds_of_assignable (hg : im.graph.Regular n) (hnarrow : im.graph.Narrow n)
    (him : im.Faithful) (hi : im.graph.Assignable n i) :
    ¬im.program.Holds (word i) := by
  rintro ⟨region, hregion, hholds⟩
  obtain ⟨q, s, t, -, hsur, -, rfl⟩ := protects hg him hregion
  exact hg.not_assignable hnarrow hsur.live hsur.transition hholds hi

end Assembly.Image

end Coroutine
