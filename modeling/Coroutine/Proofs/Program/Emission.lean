import Mathlib
import Coroutine.Compiler
import Coroutine.Proofs.Graph.Discipline
import Coroutine.Proofs.Graph.Placement
import Coroutine.Proofs.Graph.Stable
import Coroutine.Proofs.Program.Dispatch
import Coroutine.Proofs.Program.Places

/-!
# What is emitted

Assembly moves the block of a region into the instruction that enters it. `Program.Emits` says that
nothing is lost or doubled on the way: every state that runs can come to has its label in one place,
in the block of its region, and so has every region that is entered again. Blocks inside a block
belong to different regions, since a region has one owner and lies inside one region
(`Image.Entered.blocks_apart`). What a run can come to lies in regions whose blocks are there, since
control goes outwards, or inwards by the instruction that holds the block
(`Image.standing_of_attains`).
-/

namespace Coroutine

open Assembly

/-! ## Labels -/

/-- The target whose label an instruction is. -/
def Instr.label? : Instr → Option Target
  | .label target => some target
  | _ => none

/-- The labels of a block, in order. -/
def Block.labels (b : Block) : List Target := b.instrs.toList.filterMap Instr.label?

/-- The regions of the blocks where the label of a target stands, once for each time it does. -/
def Program.sites (p : Program) (target : Target) : List Nat :=
  p.entry.blocks.flatMap fun b => (b.labels.filter (· == target)).map fun _ => b.region

/-- The states that runs can come to: along transitions, and along jumps out of expressions. -/
inductive Graph.Attains (g : Graph) (resolve : Expr.Resolver) : Nat → Prop
  | entry : g.Attains resolve g.entry
  | transition {s r : Nat} {t : Transition} (hs : g.Attains resolve s)
    (ht : (g.state s).transition = some t) (hr : r ∈ t.references) : g.Attains resolve r
  | escape {s l : Nat} {e : Expr} {c : Code} {b : LabelBinding} (hs : g.Attains resolve s)
    (he : e ∈ (g.state s).exprs) (hc : Code.build resolve true e = .ok c) (hl : l ∈ c.escapes)
    (hb : g.labels.lookup l = some b) : g.Attains resolve b.state

/-- A program holds a state graph: nothing is lost or doubled, and blocks start where their regions
do. -/
structure Program.Emits (p : Program) (g : Graph) (resolve : Expr.Resolver) : Prop where
  state : ∀ s, g.Attains resolve s → p.sites (.state s) = [(g.state s).region]
  reentry : ∀ s t, g.Attains resolve s → (g.state s).transition = some (.tryCatch t) →
    p.sites (.reentry s) = [(g.state s).region]
  apart : (p.entry.blocks.map Block.region).Nodup
  position : ∀ b ∈ p.entry.blocks, ∀ target pc,
    b.position? target = some pc ↔ b.instrs[pc]? = some (.label target)
  rendered : ∀ b ∈ p.entry.blocks, b.region ∈ schedule g
  order : ∀ r ∈ schedule g,
    (g.regionNodes r).map (fun s => (g.state s).order) = List.range (g.regionNodes r).length
  start : ∀ b ∈ p.entry.blocks, ∃ s, g.regionStart? b.region = some s ∧
    b.instrs[0]? = some (.label (.state s))

/-- A block with different labels has each where it is looked for. -/
theorem Block.position?_iff {b : Block} (h : b.labels.Nodup) (target : Target) (pc : Nat) :
    b.position? target = some pc ↔ b.instrs[pc]? = some (.label target) := by
  refine ⟨getElem?_of_position?, fun hpc => ?_⟩
  obtain ⟨k, hk⟩ := Option.isSome_iff_exists.1 (Image.isSome_position? (mem_of_getElem? hpc))
  have hk' := getElem?_of_position? hk
  rw [← Array.getElem?_toList] at hpc hk'
  obtain ⟨hlt, hpc⟩ := List.getElem?_eq_some_iff.1 hpc
  obtain ⟨hlt', hk'⟩ := List.getElem?_eq_some_iff.1 hk'
  have hapart := List.pairwise_iff_getElem.1 (List.pairwise_filterMap.1 h)
  rcases lt_trichotomy k pc with hlt'' | rfl | hlt''
  · exact absurd rfl (hapart _ _ hlt' hlt hlt'' _ (by rw [hk']; rfl) _ (by rw [hpc]; rfl))
  · exact hk
  · exact absurd rfl (hapart _ _ hlt hlt' hlt'' _ (by rw [hpc]; rfl) _ (by rw [hk']; rfl))

/-- The labels that are emitted for a state: its own, and one to enter its region again. -/
def Graph.labelsOf (g : Graph) (s : Nat) : List Target :=
  .state s :: match (g.state s).transition with
    | some (.tryCatch _) => [.reentry s]
    | _ => []

/-- A state has a label of its own, and one for its reentry. -/
theorem Graph.mem_labelsOf {g : Graph} {s : Nat} {target : Target} (h : target ∈ g.labelsOf s) :
    target = .state s ∨ target = .reentry s := by
  unfold labelsOf at h
  split at h
  · simpa using h
  · simpa using Or.inl h

/-- The label of a state is not that of its reentry. -/
theorem Graph.nodup_labelsOf (g : Graph) (s : Nat) : (g.labelsOf s).Nodup := by
  unfold labelsOf
  split <;> simp

namespace Assembly.Image

variable {im : Image} {n r s : Nat}

/-- A jump has no label. -/
theorem labels_jump (next : Option Nat) (target : Nat) :
    (im.jump next target).filterMap Instr.label? = [] := by
  unfold jump
  split <;> rfl

/-- A state's code has the labels of the state. -/
theorem labels_stateCode (im : Image) (next : Option Nat) (s : Nat) :
    (im.stateCode next s).filterMap Instr.label? = im.graph.labelsOf s := by
  have hbody : (im.bodyCode (im.graph.state s)).filterMap Instr.label? = [] := by
    refine List.filterMap_eq_nil_iff.2 fun i hi => ?_
    rcases mem_bodyCode hi with ⟨_, -, rfl⟩ | ⟨_, _, -, rfl⟩ <;> rfl
  simp only [stateCode, Graph.labelsOf]
  rw [List.filterMap_cons, List.filterMap_append, hbody, List.nil_append]
  refine congrArg (Target.state s :: ·) ?_
  cases (im.graph.state s).transition with
  | none => rfl
  | some t =>
    simp only [Option.map_some, Option.getD_some]
    cases t with
    | tryCatch t =>
      have hafter : (im.afterRegion next t).filterMap Instr.label? = [] := by
        unfold afterRegion
        split
        · exact labels_jump next _
        · rfl
      exact congrArg (Target.reentry s :: ·) hafter
    | goto | loop | conditional | awaitResult => exact labels_jump next _
    | _ => rfl

/-- The code of several states has the labels of each. -/
theorem labels_statesCode (im : Image) : ∀ ids : List Nat,
    (im.statesCode ids).filterMap Instr.label? = ids.flatMap im.graph.labelsOf
  | [] => rfl
  | s :: ids => by
    rw [statesCode, List.filterMap_append, labels_stateCode, labels_statesCode im ids]
    rfl

/-- The labels of a block are those of the states of its region. -/
theorem Renders.labels (h : im.Renders r) :
    (im.block r).labels = (im.graph.regionNodes r).flatMap im.graph.labelsOf := by
  rw [Block.labels, h.instrs, labels_statesCode]

/-- No label is there twice in a block. -/
theorem Renders.nodup_labels (h : im.Renders r) (hnodup : (im.graph.regionNodes r).Nodup) :
    (im.block r).labels.Nodup := by
  rw [h.labels, List.nodup_flatMap]
  refine ⟨fun s _ => im.graph.nodup_labelsOf s, hnodup.imp fun {s s'} hne target hs hs' => hne ?_⟩
  rcases Graph.mem_labelsOf hs with rfl | rfl <;> rcases Graph.mem_labelsOf hs' with heq | heq <;>
    cases heq <;> rfl

end Assembly.Image

/-! ## Blocks inside blocks -/

/-- The blocks inside some instructions, one by one. -/
theorem Instr.blocksList_eq : ∀ is : List Instr, Instr.blocksList is = is.flatMap Instr.blocks
  | [] => rfl
  | i :: is => by rw [blocksList, blocksList_eq is, List.flatMap_cons]

/-- A block and the blocks inside it. -/
theorem Block.blocks_eq (b : Block) : b.blocks = b :: b.instrs.toList.flatMap Instr.blocks := by
  obtain ⟨region, table, ⟨instrs⟩⟩ := b
  rw [blocks, Instr.blocksList_eq]

/-- Two regions around a region that lie directly inside the same one are the same. -/
theorem Graph.Zoned.eq_of_parentRegion {g : Graph} (hg : g.Zoned) {q r c c' : Nat}
    (hq : q < g.zones.size) (hc : c ∈ g.regionChain q) (hc' : c' ∈ g.regionChain q)
    (hr : g.parentRegion? c = some r) (hr' : g.parentRegion? c' = some r) : c = c' := by
  obtain ⟨l, hl⟩ := takeWhile_regionChain hg hq hc hr
  obtain ⟨l', hl'⟩ := takeWhile_regionChain hg hq hc' hr'
  have hlast := congrArg List.getLast? (hl.symm.trans hl')
  simpa using hlast

namespace Assembly.Image

variable {im : Image} {n q r s : Nat}

/-- The blocks inside the instructions of a state. -/
def inner (im : Image) (s : Nat) : List Block :=
  match (im.graph.state s).transition with
  | some (.tryCatch t) => (im.block t.region).blocks
  | _ => []

/-- Blocks inside a state are those of the region that it enters. -/
theorem mem_inner {b : Block} (h : b ∈ im.inner s) : ∃ t,
    (im.graph.state s).transition = some (.tryCatch t) ∧ im.inner s = (im.block t.region).blocks := by
  unfold inner at h ⊢
  split at h
  · rename_i t ht
    exact ⟨t, ht, rfl⟩
  · cases h

/-- A jump has no block inside. -/
theorem blocks_jump (next : Option Nat) (target : Nat) :
    (im.jump next target).flatMap Instr.blocks = [] := by
  unfold jump
  split <;> rfl

/-- A state's code has the blocks inside the state. -/
theorem blocks_stateCode (im : Image) (next : Option Nat) (s : Nat) :
    (im.stateCode next s).flatMap Instr.blocks = im.inner s := by
  have hbody : (im.bodyCode (im.graph.state s)).flatMap Instr.blocks = [] := by
    refine List.flatMap_eq_nil_iff.2 fun i hi => ?_
    rcases mem_bodyCode hi with ⟨_, -, rfl⟩ | ⟨_, _, -, rfl⟩ <;> rfl
  simp only [stateCode, inner]
  rw [List.flatMap_cons, List.flatMap_append, hbody, List.nil_append]
  cases (im.graph.state s).transition with
  | none => rfl
  | some t =>
    simp only [Option.map_some, Option.getD_some]
    cases t with
    | tryCatch t =>
      have hafter : (im.afterRegion next t).flatMap Instr.blocks = [] := by
        unfold afterRegion
        split
        · exact blocks_jump next _
        · rfl
      simp [transitionCode, Instr.blocks, tryRegion, hafter]
    | goto | loop => exact blocks_jump next _
    | conditional | awaitResult => simp [transitionCode, Instr.blocks, blocks_jump]
    | _ => rfl

/-- The code of several states has the blocks inside each. -/
theorem blocks_statesCode (im : Image) : ∀ ids : List Nat,
    (im.statesCode ids).flatMap Instr.blocks = ids.flatMap im.inner
  | [] => rfl
  | s :: ids => by
    rw [statesCode, List.flatMap_append, blocks_stateCode, blocks_statesCode im ids]
    rfl

/-- The blocks of a region, state by state. -/
theorem Renders.blocks (h : im.Renders r) :
    (im.block r).blocks = im.block r :: (im.graph.regionNodes r).flatMap im.inner := by
  rw [Block.blocks_eq, h.instrs, blocks_statesCode]

variable (hg : im.graph.Regular n) (him : im.Faithful)
include hg him

/-- The blocks inside the block of a region belong to different regions inside it. -/
theorem Entered.blocks_apart (hr : im.Entered r) :
    ((im.block r).blocks.map Block.region).Nodup ∧ ∀ b ∈ (im.block r).blocks,
      b.region < im.graph.zones.size ∧ r ∈ im.graph.regionChain b.region := by
  -- regions inside have larger numbers
  induction hk : im.graph.zones.size - r using Nat.strong_induction_on generalizing r with
  | _ k ih =>
    have hrenders := him.renders r hr.mem
    have hchild : ∀ {s t}, s ∈ im.graph.regionNodes r →
        (im.graph.state s).transition = some (.tryCatch t) → im.Surrounds r t.region s t ∧
          ((im.block t.region).blocks.map Block.region).Nodup ∧
          ∀ b ∈ (im.block t.region).blocks, b.region < im.graph.zones.size ∧
            t.region ∈ im.graph.regionChain b.region := by
      intro s t hs ht
      obtain ⟨hsur, hinner⟩ := hr.surrounds hg him hs ht
      have hlt := hg.zoned.parentRegion_lt hsur.lt hsur.parent
      have hlt' := hsur.lt
      exact ⟨hsur, ih _ (by omega) hinner rfl⟩
    have hinner : ∀ s ∈ im.graph.regionNodes r, ∀ b ∈ im.inner s, ∃ t, im.Surrounds r t.region s t ∧
        b.region < im.graph.zones.size ∧ t.region ∈ im.graph.regionChain b.region := by
      intro s hs b hb
      obtain ⟨t, ht, heq⟩ := mem_inner hb
      obtain ⟨hsur, -, hall⟩ := hchild hs ht
      exact ⟨t, hsur, hall b (heq ▸ hb)⟩
    have hbelow : ∀ b ∈ (im.graph.regionNodes r).flatMap im.inner,
        b.region < im.graph.zones.size ∧ r ∈ im.graph.regionChain b.region ∧ b.region ≠ r := by
      intro b hb
      obtain ⟨s, hs, hb⟩ := List.mem_flatMap.1 hb
      obtain ⟨t, hsur, hlt, hin⟩ := hinner s hs b hb
      have hup : r ∈ im.graph.regionChain t.region := by
        rw [hg.zoned.regionChain_of_parent hsur.lt hsur.parent]
        exact List.mem_cons_of_mem _ Graph.Zoned.mem_regionChain_self
      have hle := hg.zoned.le_of_mem_regionChain hlt hin
      have hlt' := hg.zoned.parentRegion_lt hsur.lt hsur.parent
      exact ⟨hlt, hg.zoned.mem_regionChain_trans hlt hin hup, by omega⟩
    rw [hrenders.blocks, List.map_cons, List.nodup_cons, hrenders.region]
    refine ⟨⟨fun hmem => ?_, ?_⟩, List.forall_mem_cons.2 ⟨?_, fun b hb => ?_⟩⟩
    · obtain ⟨b, hb, heq⟩ := List.mem_map.1 hmem
      exact (hbelow b hb).2.2 heq
    · rw [List.map_flatMap, List.nodup_flatMap]
      refine ⟨fun s hs => ?_, (hg.nodup_regionNodes hr.lt hr.isRegion).imp_of_mem ?_⟩
      · unfold inner
        split
        · rename_i t ht
          exact (hchild hs ht).2.1
        · exact List.nodup_nil
      · intro s s' hs hs' hne q hq hq'
        obtain ⟨b, hb, rfl⟩ := List.mem_map.1 hq
        obtain ⟨b', hb', heq⟩ := List.mem_map.1 hq'
        obtain ⟨t, hsur, hlt, hin⟩ := hinner s hs b hb
        obtain ⟨t', hsur', -, hin'⟩ := hinner s' hs' b' hb'
        -- the same region lies inside both, so they are the same, with the same owner
        have hsame := hg.zoned.eq_of_parentRegion hlt hin (heq ▸ hin') hsur.parent hsur'.parent
        have howner := hsur'.owner
        rw [← hsame, hsur.owner] at howner
        exact hne (Option.some.inj howner)
    · rw [hrenders.region]
      exact ⟨hr.lt, Graph.Zoned.mem_regionChain_self⟩
    · exact ⟨(hbelow b hb).1, (hbelow b hb).2.1⟩

/-! ## States that runs come to -/

/-- A state whose region has its block in the program. -/
structure Standing (im : Image) (s : Nat) : Prop where
  live : im.graph.isLive s = true
  mem : (im.graph.state s).region ∈ im.regions
  nested : ∃ enc, im.Nested (im.graph.state s).region enc

omit him in
/-- A state that stands is in a region that is entered. -/
theorem Standing.entered (h : im.Standing s) : im.Entered (im.graph.state s).region := by
  obtain ⟨enc, hnested⟩ := h.nested
  exact hnested.entered hg h.mem

omit him in
/-- A state that stands is one of the nodes of its region. -/
theorem Standing.mem_regionNodes (h : im.Standing s) :
    s ∈ im.graph.regionNodes (im.graph.state s).region := by
  have hentered := h.entered hg
  exact (hg.mem_regionNodes hentered.lt hentered.isRegion).2 ⟨h.live, rfl⟩

/-- Control goes outwards to blocks that are there. -/
theorem Standing.outwards (h : im.Standing s) (hlive : im.graph.isLive q = true)
    (hq : (im.graph.state q).region ∈ im.graph.regionChain (im.graph.state s).region) :
    im.Standing q := by
  obtain ⟨enc, hnested⟩ := h.nested
  rw [← hnested.chain hg him, List.mem_cons, List.mem_map] at hq
  rcases hq with heq | ⟨e, he, heq⟩
  · exact ⟨hlive, heq ▸ h.mem, enc, heq ▸ hnested⟩
  · obtain ⟨pre, rest, rfl⟩ := List.append_of_mem he
    obtain ⟨r, hr, hblock, -, hrest⟩ := hnested.suffix
    rw [hblock, (him.renders r hr).region] at heq
    exact ⟨hlive, heq ▸ hr, rest, heq ▸ hrest⟩

/-- Control goes inwards by the instruction that holds the block. -/
theorem Standing.inwards (h : im.Standing s) {t : RegionEntry}
    (ht : (im.graph.state s).transition = some (.tryCatch t)) : im.Standing t.body := by
  obtain ⟨enc, hnested⟩ := h.nested
  have hs := h.mem_regionNodes hg
  obtain ⟨hsur, hinner⟩ := (h.entered hg).surrounds hg him hs ht
  obtain ⟨hlive, hregion⟩ := (hg.mem_regionNodes hinner.lt hinner.isRegion).1 (hsur.start hg).2
  obtain ⟨pc, post, -, hafter⟩ := (him.renders _ h.mem).position_reentry hs ht
  have hinstr : (im.block (im.graph.state s).region).instrs[pc + 1]? =
      some (.region (im.tryRegion s t)) := by
    rw [Block.getElem?_instrs, Block.after_succ hafter]
    rfl
  refine ⟨hlive, hregion ▸ hinner.mem,
    ⟨im.tryRegion s t, im.block (im.graph.state s).region, pc + 1⟩ :: enc, ?_⟩
  exact ⟨_, s, t, h.mem, hs, ht, hregion.symm, rfl, rfl, hinstr, hnested⟩

omit hg him in
/-- The expressions of a state stand in its instructions. -/
theorem expr_mem_stateCode (next : Option Nat) {e : Expr} (he : e ∈ (im.graph.state s).exprs) :
    ∃ i ∈ im.stateCode next s, im.expr e ∈ i.exprs := by
  rcases List.mem_append.1 he with he | he
  · rcases List.mem_append.1 he with he | he
    · exact ⟨.eval _, List.mem_cons_of_mem _ (List.mem_append_left _ (List.mem_append_left _
        (List.mem_map_of_mem he))), List.mem_singleton_self _⟩
    · obtain ⟨⟨y, e⟩, hy, rfl⟩ := List.mem_map.1 he
      exact ⟨.assign y _, List.mem_cons_of_mem _ (List.mem_append_left _ (List.mem_append_right _
        (List.mem_map_of_mem hy))), List.mem_singleton_self _⟩
  · cases ht : (im.graph.state s).transition with
    | none => simp [ht] at he
    | some t =>
      rw [ht] at he
      suffices h : ∃ i ∈ im.transitionCode next s t, im.expr e ∈ i.exprs by
        obtain ⟨i, hi, hexpr⟩ := h
        exact ⟨i, by simp [stateCode, ht, hi], hexpr⟩
      cases t with
      | conditional | await | yieldReturn =>
        obtain rfl := List.mem_singleton.1 he
        exact ⟨_, List.mem_cons_self, List.mem_singleton_self _⟩
      | switch value arms fallback =>
        refine ⟨_, List.mem_cons_self, ?_⟩
        rcases List.mem_cons.1 he with rfl | he
        · exact List.mem_cons_self
        · obtain ⟨a, ha, he⟩ := List.mem_flatMap.1 he
          exact List.mem_cons_of_mem _ (List.mem_flatMap.2
            ⟨_, List.mem_map_of_mem ha, List.mem_map_of_mem he⟩)
      | finish value =>
        refine ⟨_, List.mem_cons_self, ?_⟩
        cases value with
        | none => cases he
        | some e' =>
          obtain rfl := List.mem_singleton.1 he
          exact List.mem_singleton_self _
      | _ => cases he

/-- What runs come to stands in the program. -/
theorem standing_of_attains (h : im.graph.Attains im.resolve s) : im.Standing s := by
  induction h with
  | entry =>
    obtain ⟨hlive, hregion⟩ := hg.entry
    exact ⟨hlive, hregion ▸ him.top, [], hregion⟩
  | @transition s r t hs ht hr ih =>
    obtain ⟨t', ht', hrefs⟩ := hg.leads s ih.live
    obtain rfl := Option.some.inj (ht.symm.trans ht')
    have hroutes := (hg.sound s ih.live).routes t ht
    cases t with
    -- a region is entered from outside, and all other references lead to the same block or out of
    -- it
    | tryCatch t =>
      rcases List.mem_cons.1 hr with rfl | hr'
      · exact ih.inwards hg him ht
      · exact ih.outwards hg him (hrefs r hr) (hroutes r hr').2
    | _ => exact ih.outwards hg him (hrefs r hr) (hroutes r hr).2
  | @escape s l e c b hs he hc hl hb ih =>
    have hrenders := him.renders _ ih.mem
    -- the expression that escapes stands in an instruction of the state
    obtain ⟨pc, pre, post, -, -, hafter⟩ := hrenders.position_state (ih.mem_regionNodes hg)
    obtain ⟨i, hi, hexpr⟩ := expr_mem_stateCode post.head? he
    have hmem : i ∈ (im.block (im.graph.state s).region).instrs.toList := by
      refine List.mem_of_mem_drop (i := pc) ?_
      rw [← Block.after, hafter]
      exact List.mem_append_left _ hi
    have hcode : (im.expr e).code = c := by
      rw [expr, compiled, hc]
      rfl
    obtain ⟨b', hb', hreaches⟩ := hrenders.reaches_escape hmem hexpr (hcode ▸ hl)
    obtain rfl := Option.some.inj (hb.symm.trans hb')
    refine ih.outwards hg him (hg.label l b (mem_of_lookup hb)).1 ?_
    -- the label stands in the block itself, or is one of its exits
    rcases hreaches with hpos | hexit
    · obtain ⟨pc', hpc'⟩ := Option.isSome_iff_exists.1 hpos
      have hnode := hrenders.mem_of_label (Block.mem_of_getElem? (Block.getElem?_of_position? hpc'))
      have hentered := ih.entered hg
      rw [((hg.mem_regionNodes hentered.lt hentered.isRegion).1 hnode).2]
      exact Graph.Zoned.mem_regionChain_self
    · obtain ⟨x, hx, htarget⟩ := List.mem_map.1 hexit
      obtain ⟨a, ha, -, -, hencl⟩ := hrenders.mem_exits hx
      cases htarget.symm.trans ha
      exact Graph.Zoned.encloses_iff.1 hencl

/-! ## The program -/

/-- A label of a region stands in the block of the region only. -/
theorem sites_eq (hs : im.Standing s) {target : Target} (hmem : target ∈ im.graph.labelsOf s) :
    im.program.sites target = [(im.graph.state s).region] := by
  have hentered := hs.entered hg
  have hrenders := him.renders _ hs.mem
  obtain ⟨enc, hnested⟩ := hs.nested
  have hapart := ((entered_top hg him).blocks_apart hg him).1
  obtain ⟨pre, post, hsplit⟩ := List.append_of_mem hnested.mem_blocks.1
  have hblocks : (im.block Graph.top).blocks = pre ++ im.block (im.graph.state s).region :: post :=
    hsplit
  -- two states do not share a label, so one of another block would be in two regions
  have hother : ∀ b ∈ pre ++ post, target ∉ b.labels := by
    intro b hb hlabel
    have hb' : b ∈ im.program.entry.blocks := by
      rw [hsplit, List.mem_append, List.mem_cons]
      rcases List.mem_append.1 hb with hb | hb <;> simp [hb]
    obtain ⟨q, hq, rfl⟩ := mem_program_blocks hg him hb'
    rw [(him.renders q hq.mem).labels] at hlabel
    obtain ⟨s', hs', hlabel⟩ := List.mem_flatMap.1 hlabel
    have hsame : s' = s := by
      rcases Graph.mem_labelsOf hmem with rfl | rfl <;>
        rcases Graph.mem_labelsOf hlabel with heq | heq <;> cases heq <;> rfl
    have hregion := ((hg.mem_regionNodes hq.lt hq.isRegion).1 hs').2
    rw [hblocks, List.map_append, List.map_cons, List.nodup_middle, List.nodup_cons,
      ← List.map_append] at hapart
    refine hapart.1 (List.mem_map.2 ⟨_, hb, ?_⟩)
    rw [hrenders.region, (him.renders q hq.mem).region, ← hregion, hsame]
  have hnone : ∀ bs ⊆ pre ++ post, (bs.flatMap fun b : Block =>
      (b.labels.filter (· == target)).map fun _ => b.region) = [] := by
    intro bs hbs
    refine List.flatMap_eq_nil_iff.2 fun b hb => ?_
    rw [List.map_eq_nil_iff, List.filter_eq_nil_iff]
    intro x hx heq
    exact hother b (hbs hb) (eq_of_beq heq ▸ hx)
  -- in the block itself the label stands once
  have hcount : (im.block (im.graph.state s).region).labels.count target = 1 := by
    refine List.count_eq_one_of_mem (hrenders.nodup_labels
      (hg.nodup_regionNodes hentered.lt hentered.isRegion)) ?_
    rw [hrenders.labels]
    exact List.mem_flatMap.2 ⟨s, hs.mem_regionNodes hg, hmem⟩
  rw [Program.sites, hsplit, List.flatMap_append, List.flatMap_cons,
    hnone pre (List.subset_append_left _ _), hnone post (List.subset_append_right _ _),
    List.filter_beq, hcount, hrenders.region]
  rfl

/-- A block starts with the state that runs first in its region. -/
theorem starts (hlaid : im.graph.layout = im.graph) {b : Block}
    (hb : b ∈ im.program.entry.blocks) : ∃ s, im.graph.regionStart? b.region = some s ∧
      b.instrs[0]? = some (.label (.state s)) := by
  have hentry := (hg.mem_regionNodes (entered_top hg him).lt (entered_top hg him).isRegion).2 hg.entry
  obtain ⟨q, ⟨hq, s, hstart, hs⟩, rfl⟩ : ∃ q, (im.Entered q ∧ ∃ s,
      im.graph.regionStart? q = some s ∧ s ∈ im.graph.regionNodes q) ∧ b = im.block q := by
    refine Inherits.block (fun q hq i hi r hr => ?_)
      ⟨Graph.top, ⟨entered_top hg him, _, if_pos rfl, hentry⟩, rfl⟩ hb
    obtain ⟨s, hs, next, hcode⟩ := (him.renders q hq.1.mem).mem_instrs (hr ▸ hi)
    obtain ⟨t, ht, rfl⟩ := region_mem_stateCode hcode
    obtain ⟨hsur, hinner⟩ := hq.1.surrounds hg him hs ht
    exact ⟨t.region, ⟨hinner, t.body, hsur.start hg⟩, rfl⟩
  have hrenders := him.renders q hq.mem
  refine ⟨s, by rw [hrenders.region]; exact hstart, ?_⟩
  obtain ⟨rest, hnodes⟩ := List.head?_eq_some_iff.1
    (hg.head?_regionNodes hlaid hq.lt hq.isRegion hstart hs)
  rw [← Array.getElem?_toList, hrenders.instrs, hnodes]
  rfl

omit hg him in
/-- A region that is rendered has a state that runs first. -/
theorem exists_regionStart {g : Graph} (hr : r ∈ schedule g) :
    (r < g.zones.size ∧ (g.zone r).kind.isRegion = true) ∧ ∃ s, g.regionStart? r = some s := by
  obtain ⟨hregion, hentered⟩ := List.mem_filter.1 (List.mem_mergeSort.1 hr)
  refine ⟨Graph.mem_regions.1 hregion, ?_⟩
  by_cases htop : r = Graph.top
  · exact ⟨g.entry, if_pos htop⟩
  · rw [isEntered, beq_false_of_ne htop, Bool.false_or] at hentered
    split at hentered
    · exact Option.isSome_iff_exists.1 (Bool.and_eq_true_iff.1 hentered).2
    · cases hentered

end Assembly.Image

/-- Compiling a lambda loses no state that runs come to and doubles none. Labels are where they are
looked for, the states of a region are numbered from zero on, and blocks start where regions do. -/
theorem Lambda.compile_emits {l : Lambda} {resolve : Expr.Resolver} {o : Options} {c : Compiled}
    (h : l.compile resolve o = .ok c) : c.program.Emits c.graph resolve := by
  obtain ⟨raw, hraw, h⟩ := bind_eq_ok.1 h
  obtain ⟨program, hprogram, h⟩ := bind_eq_ok.1 h
  cases h
  obtain ⟨facts, hcheck, -⟩ := bind_eq_ok.1 hraw
  obtain ⟨hregular, -⟩ := Lambda.lower_regular_of_check hcheck hraw
  obtain ⟨φ, -, hreduces⟩ := hregular.reduces_simplify o
  have hlaid : (raw.simplify o).2.layout = (raw.simplify o).2 := by
    obtain ⟨k, hk, -⟩ := Graph.simplify_eq_layout raw o
    rw [hk, Graph.layout_layout]
  obtain ⟨im, hgraph, rfl, -, hregions, him, rfl⟩ := assemble_image hprogram
  have hg := hreduces.regular hregular
  simp only [← hgraph] at hg hlaid hregions ⊢
  have hstanding {s : Nat} (hs : im.graph.Attains im.resolve s) := im.standing_of_attains hg him hs
  exact {
    state := fun s hs => Image.sites_eq hg him (hstanding hs) List.mem_cons_self
    reentry := fun s t hs ht => Image.sites_eq hg him (hstanding hs) (by simp [Graph.labelsOf, ht])
    apart := ((Image.entered_top hg him).blocks_apart hg him).1
    position := fun b hb => by
      obtain ⟨q, hq, rfl⟩ := Image.mem_program_blocks hg him hb
      exact Block.position?_iff
        ((him.renders q hq.mem).nodup_labels (hg.nodup_regionNodes hq.lt hq.isRegion))
    rendered := fun b hb => by
      obtain ⟨q, hq, rfl⟩ := Image.mem_program_blocks hg him hb
      rw [(him.renders q hq.mem).region]
      exact (hregions q).1 hq.mem
    order := fun r hr => by
      obtain ⟨⟨hlt, hk⟩, s, hs⟩ := Image.exists_regionStart hr
      exact hg.map_order_regionNodes hlaid hlt hk hs
    start := fun b hb => Image.starts hg him hlaid hb }

/-- Waiting inside two protected bodies makes three blocks, one inside the other. -/
theorem Lambda.guardedWait_emits : ∃ c, Lambda.guardedWait.compile .tasks {} = .ok c ∧
    c.program.entry.blocks.map Block.region = [0, 1, 2] ∧
    c.program.Emits c.graph .tasks := by
  have hrun : ((Lambda.guardedWait.compile .tasks {}).toOption.map fun c =>
      c.program.entry.blocks.map Block.region) = some [0, 1, 2] := by cbv
  obtain ⟨c, hc, hblocks⟩ := Option.map_eq_some_iff.1 hrun
  have hc := eq_ok_of_toOption hc
  exact ⟨c, hc, hblocks, Lambda.compile_emits hc⟩

end Coroutine
