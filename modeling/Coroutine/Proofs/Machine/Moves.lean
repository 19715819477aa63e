import Mathlib
import Coroutine.Proofs.Machine.Records

/-!
# Runs of compiled machines, one instruction at a time

`CompiledMachine.Visits` are the points that the runs of a program go through, over all suspensions
and resumptions. Before every instruction the machine is placed where it may be: at an instruction of
a block around which its regions nest, or on the way back to a state that it stored (`Image.Placed`).
Its variables are bound, and neither expressions nor closures assign the records of its regions
(`Steady`). A move keeps this (`Steady.move`), so it holds wherever a run comes: `Visits.steady`.
-/

namespace Coroutine

open Assembly

variable {σ : Type} {enc : List Enclosing} {p : Position} {d : Durable} {w : World σ}

/-! ## Visited points -/

/-- The scopes that closures have captured are there. -/
def World.Closed (w : World σ) : Prop := ∀ c, ∀ k ∈ (w.closure c).captured, k < w.scopes.size

/-- A host that gets at the variables of a machine only through closures. -/
structure Env.Modest (env : Env σ) : Prop where
  tame : env.Tame
  discreet : ∀ v, env.Discreet v

/-- What may happen to a world from outside: nothing goes, and variables change only through
closures. -/
structure World.Evolves (w w' : World σ) : Prop where
  keeps : w.Sound → w.Keeps w'
  spares : ∀ v, w.Minds v → w.Spares v w'

namespace CompiledMachine

/-- A machine runs the instruction that it has come to. If that suspends, the machine is resumed, and
in between its durable state and the world may be changed from outside, but for where it stands. -/
inductive Moves (m : CompiledMachine) (a : Point σ) : Instr → Point σ → Prop
  | step {env : Env σ} {fuel : Nat} {i : Instr} {b : Point σ} (henv : env.Modest)
      (hi : a.instr? = some i)
      (h : m.stepAt env fuel a.position i (a.durable, a.world) =
        some (.ok (.inl b.position), (b.durable, b.world))) : Moves m a i b
  | resume {kind : SuspendKind} {d : Durable} {w : World σ} {b : Point σ}
      (hi : a.instr? = some (.suspend kind)) (hstate : d.state = a.durable.state)
      (hscopes : d.scopes = a.durable.scopes) (hw : a.world.Evolves w)
      (h : m.Begins { d with success := false } w b) : Moves m a (.suspend kind) b

/-- The points that the runs of a program go through. -/
inductive Visits (program : Program) (limit : Option Nat) (m : CompiledMachine) : Point σ → Prop
  | start {args : List Value} {w w' : World σ} {a : Point σ} (hw : w.Sound) (hclosed : w.Closed)
      (hnew : CompiledMachine.new program limit args w = .ok (m, w'))
      (h : m.Begins m.durable w' a) : Visits program limit m a
  | move {a b : Point σ} {i : Instr} (before : Visits program limit m a) (h : m.Moves a i b) :
      Visits program limit m b

end CompiledMachine

/-! ## Places -/

namespace Assembly.Image

variable {im : Image} {n q r : Nat}

/-- The regions around a region belong to its blocks. -/
theorem Nested.inner (hg : im.graph.Regular n) {enc : List Enclosing} : ∀ {pre : List Enclosing}
    {r : Nat}, im.Nested r (pre ++ enc) → r ∈ im.regions →
      ∃ q, q ∈ im.regions ∧ q ∈ im.graph.regionChain r ∧ im.Nested q enc
  | [], r, h, hr => ⟨r, hr, Graph.Zoned.mem_regionChain_self, h⟩
  | e :: pre, r, h, hr => by
    obtain ⟨o, s, t, ho, hsur, -, -, -, hrest⟩ := h.surrounds hg
    obtain ⟨q, hq, hchain, hnested⟩ := hrest.inner hg ho
    refine ⟨q, hq, ?_, hnested⟩
    rw [hg.zoned.regionChain_of_parent hsur.lt hsur.parent]
    exact List.mem_cons_of_mem _ hchain

/-- A region is determined by the blocks around it. -/
theorem Nested.inj (h : im.Nested q enc) (h' : im.Nested r enc) : q = r := by
  cases enc with
  | nil => exact Eq.trans h (Eq.symm h')
  | cons e rest =>
    obtain ⟨-, s, t, -, -, ht, rfl, hregion, -⟩ := h
    obtain ⟨-, s', t', -, -, ht', rfl, hregion', -⟩ := h'
    have hs : s = s' := congrArg TryRegion.owner (hregion.symm.trans hregion')
    rw [hs, ht'] at ht
    cases ht
    rfl

/-- A machine on its way back to a stored state: at the entry of a region around it, or at the label
before. -/
def Routed (im : Image) (p : Position) (d : Durable) : Prop :=
  ∃ r pre e, r ∈ im.regions ∧ im.Nested r (pre ++ e :: p.enclosing) ∧ im.Resumes r d.state ∧
    p.block = e.block ∧ (p.pc = e.pc ∨ p.pc + 1 = e.pc)

/-- Where a machine may be before it runs an instruction. -/
def Placed (im : Image) (p : Position) (d : Durable) : Prop :=
  (∃ r steps, im.Poised r p d steps ∧ p.Inside) ∨ im.Routed p d

/-- What a machine runs on its way back. -/
theorem Routed.instr (hg : im.graph.Regular n) (him : im.Faithful) (h : im.Routed p d) :
    ∃ r pre e, r ∈ im.regions ∧ im.Nested r (pre ++ e :: p.enclosing) ∧
      im.Resumes r d.state ∧ p.block = e.block ∧
      (p.pc = e.pc ∧ p.block.instrs[p.pc]? = some (.region e.region) ∨
        p.pc + 1 = e.pc ∧ p.block.instrs[p.pc]? = some (.label (.reentry e.region.owner))) := by
  obtain ⟨r, pre, e, hr, hnested, hresumes, hblock, hpc⟩ := h
  refine ⟨r, pre, e, hr, hnested, hresumes, hblock, ?_⟩
  obtain ⟨q, hq, heq, hinstr, hrest⟩ := hnested.suffix
  rw [hblock, heq]
  rcases hpc with hpc | hpc
  · exact .inl ⟨hpc, hpc ▸ hinstr⟩
  · obtain ⟨hlt, hk⟩ := hrest.region hg
    obtain ⟨pc, hpos, hlabel⟩ :=
      (him.renders q hq).position_region (hg.nodup_regionNodes hlt hk) hinstr
    obtain rfl : pc = p.pc := by omega
    exact .inr ⟨hpc, Block.getElem?_of_position? hlabel⟩

/-- The block in which a machine is. -/
theorem Placed.entered (hg : im.graph.Regular n) (h : im.Placed p d) :
    ∃ q, im.Entered q ∧ p.block = im.block q ∧ im.Nested q p.enclosing := by
  rcases h with ⟨r, steps, hpoised, -⟩ | ⟨r, pre, e, hr, hnested, -, hblock, -⟩
  · exact ⟨r, hpoised.nested.entered hg hpoised.mem, hpoised.block, hpoised.nested⟩
  · obtain ⟨q, hq, heq, -, hrest⟩ := hnested.suffix
    exact ⟨q, hrest.entered hg hq, hblock.trans heq, hrest⟩

section

variable (hg : im.graph.Regular n) (him : im.Faithful)
include hg him

/-- A machine that is not on its way back is poised. -/
theorem Placed.poised (h : im.Placed p d) {i : Instr} (hi : p.block.instrs[p.pc]? = some i)
    (hroutes : i.routes = false) : ∃ r steps, im.Poised r p d steps := by
  rcases h with ⟨r, steps, hpoised, -⟩ | hrouted
  · exact ⟨r, steps, hpoised⟩
  · obtain ⟨_, _, _, -, -, -, -, ⟨-, hj⟩ | ⟨-, hj⟩⟩ := hrouted.instr hg him
    all_goals
      rw [hi] at hj
      cases hj
      cases hroutes

/-- A block on the way to a stored state is entered at the state or at the label of the next region
around it. -/
theorem Nested.placed {pre : List Enclosing} (h : im.Nested r (pre ++ enc)) (hr : r ∈ im.regions)
    (hq : q ∈ im.regions) (hnested : im.Nested q enc) (hd : im.Resumes r d.state) (w : World σ) :
    ∃ pc d', CompiledMachine.entryPoint (im.block q) (d, w) = some (.ok pc, (d', w)) ∧
      d'.scopes = d.scopes ∧ im.Placed ⟨im.block q, pc, enc⟩ d' := by
  obtain ⟨c, hstate, hmem, hc⟩ := hd
  obtain ⟨hlt, hk⟩ := h.region hg
  have hregion : (im.graph.state c).region = r := ((hg.mem_regionNodes hlt hk).1 hmem).2
  rcases List.eq_nil_or_concat pre with rfl | ⟨pre, e, rfl⟩
  · obtain rfl : r = q := h.inj hnested
    obtain ⟨pc, hpos, hentry⟩ := entryPoint_home (him.renders r hr) hc hmem hregion hstate w
    have hlabel := Block.getElem?_of_position? hpos
    refine ⟨pc, _, hentry, rfl, .inl ⟨r, 2 * enc.length, ⟨hr, rfl, hnested, fun i hi => ?_,
      fun i hi => ?_⟩, Option.isSome_iff_exists.2 ⟨_, hlabel⟩⟩⟩
    · obtain rfl := Option.some.inj (hlabel.symm.trans hi)
      rfl
    · obtain rfl := Option.some.inj (hlabel.symm.trans hi)
      exact le_rfl
  · rw [List.concat_eq_append, List.append_assoc, List.singleton_append] at h
    obtain ⟨o, ho, hchain, hinner⟩ := h.inner hg hr
    obtain ⟨q', s, t, hq', hsur, heq, hblock, hinstr, hrest⟩ := hinner.surrounds hg
    obtain rfl : q' = q := hrest.inj hnested
    obtain ⟨pc, hentry, hlabel, hregion'⟩ := entryPoint_inner hg (him.renders q' hq) hsur hc
      (hregion ▸ hlt) (hregion ▸ hchain) hstate w
    obtain ⟨hlt', hk'⟩ := hrest.region hg
    have hnodup := hg.nodup_regionNodes hlt' hk'
    -- the region is run by one instruction of the block
    obtain ⟨pc₁, hpc₁, hpos₁⟩ := (him.renders q' hq).position_region hnodup hinstr
    obtain ⟨pc₂, hpc₂, hpos₂⟩ := (him.renders q' hq).position_region hnodup hregion'
    rw [heq] at hpos₁
    obtain rfl : pc₁ = pc₂ := Option.some.inj (hpos₁.symm.trans hpos₂)
    exact ⟨pc, d, hentry, rfl, .inr ⟨r, pre, e, hr, h, ⟨c, hstate, hmem, hc⟩, hblock.symm,
      .inr (hpc₂.trans hpc₁.symm)⟩⟩

end

end Assembly.Image

/-! ## Moves -/

namespace CompiledMachine

variable {m : CompiledMachine} {im : Image} {n k : Nat} {a b : Point σ} {i : Instr}

/-- What holds of the variables of a machine with the scope `k`. -/
structure Intact (im : Image) (n k : Nat) (d : Durable) (w : World σ) : Prop where
  scopes : d.scopes = [k]
  sound : w.Sound
  binds : w.Binds [k] (im.graph.running n)
  minds : w.Minds (im.program.reserve k)

/-- What holds before every instruction. -/
structure Steady (im : Image) (n k : Nat) (a : Point σ) : Prop where
  intact : Intact im n k a.durable a.world
  placed : im.Placed a.position a.durable

theorem Intact.keeps {d' : Durable} {w' : World σ} (h : Intact im n k d w) (hw : w.Keeps w')
    (hd : d'.scopes = [k]) (hminds : w'.Minds (im.program.reserve k)) : Intact im n k d' w' :=
  ⟨hd, hw.sound, h.binds.grows hw.grows, hminds⟩

/-- What runs safely and keeps to the rules leaves the variables of a machine in order. -/
theorem Intact.ensures {α : Type} (h : Intact im n k d w) {x : Exec σ α}
    {P Q : α → Prop} (hsafe : Exec.Safe [k] (im.graph.running n) x (d, w) P)
    (hspares : Exec.Spares (im.program.reserve k) (fun _ => False) x (d, w) Q) :
    Exec.Ensures x (d, w) fun r s' => Intact im n k s'.1 s'.2 ∧ Orderly P r := by
  intro r s' hrun
  obtain ⟨hd, hk, hr⟩ := hsafe h.scopes h.sound h.binds r s' hrun
  obtain ⟨-, hminds, -⟩ := hspares h.scopes h.minds r s' hrun
  exact ⟨h.keeps hk hd hminds, hr⟩

/-- A resumption begins in the world in which the machine is resumed. -/
theorem Begins.world (h : m.Begins d w b) : b.world = w := by
  have hentry : Exec.Ensures (entryPoint m.program.entry) (d, w) fun _ s' => s'.2 = w := by
    refine .bind (.durably ?_)
    simp only
    split
    · exact .pure rfl
    · split
      · exact .throw rfl
      · split
        · refine .bind (.modifyDurable ?_)
          simp only
          split
          · exact .pure rfl
          · exact .throw rfl
        · split
          · exact .pure rfl
          · exact .throw rfl
  exact hentry _ _ h.entry

section

variable (hg : im.graph.Regular n) (him : im.Faithful)
include hg him

/-- A resumption begins where a machine may be. -/
theorem Begins.steady (hm : m.program = im.program) {r : Nat} (hr : r ∈ im.regions)
    (hnested : im.Nested r enc) (hd : im.Resumes r d.state) (hintact : Intact im n k d w)
    (h : m.Begins d w b) : Steady im n k b := by
  have hentry : m.program.entry = im.block Graph.top := by
    rw [hm]
    rfl
  have hnested' : im.Nested r (enc ++ []) := by
    rw [List.append_nil]
    exact hnested
  obtain ⟨pc, d', hpc, hd', hplaced⟩ := hnested'.placed hg him hr him.top rfl hd w
  obtain ⟨⟨block, pc', enc'⟩, d₁, w₁⟩ := b
  obtain rfl : block = m.program.entry := h.block
  obtain rfl : enc' = [] := h.enclosing
  have heq := h.entry
  rw [hentry, hpc] at heq
  cases heq
  refine ⟨⟨hd'.trans hintact.scopes, hintact.sound, hintact.binds, hintact.minds⟩, ?_⟩
  rw [hentry]
  exact hplaced

/-- A machine that has stopped has stored a state of the region where it stands. -/
theorem Steady.resumes (h : Steady im n k a) {kind : SuspendKind}
    (hi : a.instr? = some (.suspend kind)) :
    ∃ r ∈ im.regions,
      im.Nested r a.position.enclosing ∧ im.Resumes r a.durable.state := by
  obtain ⟨r, steps, hpoised⟩ := h.placed.poised hg him hi rfl
  exact ⟨r, hpoised.mem, hpoised.nested, hpoised.stored _ hi⟩

/-- A new machine is steady where its first run begins. -/
theorem steady_new {limit : Option Nat} {args : List Value} {w' : World σ} (hw : w.Sound)
    (hclosed : w.Closed) (hnew : CompiledMachine.new im.program limit args w = .ok (m, w'))
    (h : m.Begins m.durable w' a) : ∃ k, Steady im n k a := by
  have hsettled : Settled im n m w' := settled_new hw hnew
  obtain ⟨sc, rfl, rfl, -⟩ := new_eq_ok hnew
  obtain ⟨⟨block, pc, enc⟩, d, w₁⟩ := a
  obtain rfl : block = im.block Graph.top := h.block
  obtain rfl : enc = [] := h.enclosing
  have hentry := h.entry
  rw [entryPoint_start rfl] at hentry
  cases hentry
  refine ⟨w.scopes.size, ⟨rfl, hsettled.sound, hsettled.binds, ?_, fun c hc => ?_⟩, .inl ?_⟩
  · simp [Program.reserve]
  · -- no closure has captured the new scope
    exact absurd (hclosed c _ hc) (Nat.lt_irrefl _)
  · have hrenders := him.renders _ him.top
    have hhead : ((im.block Graph.top).instrs[0]?).isSome = true :=
      hrenders.isSome_head ((hg.mem_regionNodes hg.zoned.pos (Image.entered_top hg him).isRegion).2
        hg.entry)
    refine ⟨Graph.top, 0, ⟨him.top, rfl, rfl, fun i hi => ?_, fun i hi => ?_⟩, hhead⟩
    · obtain ⟨s, rfl⟩ := hrenders.head_label hi
      rfl
    · obtain ⟨s, rfl⟩ := hrenders.head_label hi
      exact le_rfl

end

section

variable (hg : im.graph.Regular n) (hnarrow : im.graph.Narrow n) (him : im.Faithful)
  (hm : m.program = im.program)
include hg hnarrow him hm

theorem labelsSpare (k : Nat) : m.LabelsSpare (im.program.reserve k) := by
  intro label slot hslot x hx
  rw [hm] at hslot
  exact Image.not_holds_label hg hnarrow him hslot hx

/-- A step of a placed machine keeps what its instruction does not assign, unless it belongs to the
records of the regions around. -/
theorem Steady.spares {env : Env σ} {fuel : Nat} (henv : env.Modest) (h : Steady im n k a)
    (hi : a.instr? = some i) {K : Nat → Prop} (hK : ∀ j, K j → im.program.Holds j)
    (hwritten : ∀ x ∈ i.written, ¬K x.word) (henc : Apart K a.position.enclosing) :
    Exec.Spares (im.program.reserve k) K (m.stepAt env fuel a.position i) (a.durable, a.world)
      fun _ => True := by
  obtain ⟨q, hq, hblock, -⟩ := h.placed.entered hg
  have hmem : i ∈ (im.block q).instrs.toList := by
    rw [← hblock]
    exact Block.mem_of_getElem? hi
  exact stepAt_spares (henv.discreet _) hK (labelsSpare hg hnarrow him hm k)
    (fun e he => Image.obeys_of_mem_instrs hg hnarrow him hq hmem k he) hwritten henc

/-- A step keeps a machine steady. -/
theorem Steady.step {env : Env σ} {fuel : Nat} (henv : env.Modest) (h : Steady im n k a)
    (hi : a.instr? = some i)
    (hstep : m.stepAt env fuel a.position i (a.durable, a.world) =
      some (.ok (.inl b.position), (b.durable, b.world))) : Steady im n k b := by
  have hspares : Exec.Spares (im.program.reserve k) (fun _ => False)
      (m.stepAt env fuel a.position i) _ _ :=
    h.spares hg hnarrow him hm henv hi nofun (fun _ _ => id) fun _ _ => ⟨id, id⟩
  obtain ⟨hscopes, hminds, -⟩ := hspares h.intact.scopes h.intact.minds _ _ hstep
  -- the machine is poised for its next instruction, or still on its way back
  rcases h.placed with ⟨r, steps, hpoised, -⟩ | hrouted
  · have hbinds : a.world.Binds a.durable.scopes (im.graph.running n) := by
      rw [h.intact.scopes]
      exact h.intact.binds
    obtain ⟨-, hk, hinside⟩ :=
      step_safe hg him henv.tame hm hpoised hi h.intact.sound hbinds _ _ hstep
    obtain ⟨hon, -⟩ := step_poised hg him env fuel m hpoised hi _ _ _ hstep
    obtain ⟨q, hq⟩ := hon _ rfl
    exact ⟨h.intact.keeps hk hscopes hminds, .inl ⟨q, steps + 1, hq, hinside _ rfl⟩⟩
  · -- on the way back nothing changes but the position
    obtain ⟨r, pre, e, hr, hnested, hresumes, hblock, ⟨hpc, hj⟩ | ⟨hpc, hj⟩⟩ :=
      hrouted.instr hg him
    · obtain rfl := Option.some.inj (hi.symm.trans hj)
      obtain ⟨o, ho, -, hinner⟩ := hnested.inner hg hr
      obtain ⟨q, s, t, hq, hsur, heq, hblock', -, -⟩ := hinner.surrounds hg
      have hinner' : e.region.block = im.block o := by
        rw [heq, ← hsur.region]
        rfl
      obtain ⟨pc, d', hentry, hd', hplaced⟩ := hnested.placed hg him hr ho hinner hresumes a.world
      have hrun : m.stepAt env fuel a.position (.region e.region) (a.durable, a.world) =
          some (.ok (.inl ⟨e.region.block, pc, ⟨e.region, a.position.block, a.position.pc⟩ ::
            a.position.enclosing⟩), (d', a.world)) :=
        Exec.bind_ok (hinner' ▸ hentry)
      rw [hrun] at hstep
      obtain ⟨p, d, w⟩ := b
      cases hstep
      refine ⟨h.intact.keeps (.refl h.intact.sound) hscopes hminds, ?_⟩
      rw [hinner', hpc, hblock]
      exact hplaced
    · obtain rfl := Option.some.inj (hi.symm.trans hj)
      obtain ⟨p, d, w⟩ := b
      cases hstep
      exact ⟨h.intact, .inr ⟨r, pre, e, hr, hnested, hresumes, hblock, .inl hpc⟩⟩

/-- A move keeps a machine steady. -/
theorem Steady.move (h : Steady im n k a) (hmove : m.Moves a i b) : Steady im n k b := by
  cases hmove with
  | step henv hi hstep => exact h.step hg hnarrow him hm henv hi hstep
  | @resume kind d w _ hi hstate hscopes hw hbegins =>
    obtain ⟨r, hr, hnested, hresumes⟩ := h.resumes hg him hi
    have hintact : Intact im n k { d with success := false } w :=
      h.intact.keeps (hw.keeps h.intact.sound) (hscopes.trans h.intact.scopes)
        (hw.spares _ h.intact.minds).minds
    have hresumes' : im.Resumes r { d with success := false }.state := by
      rw [← hstate] at hresumes
      exact hresumes
    exact hbegins.steady hg him hm hr hnested hresumes' hintact

end

/-- A machine is steady wherever its runs come. -/
theorem Visits.steady (hg : im.graph.Regular n) (hnarrow : im.graph.Narrow n) (him : im.Faithful)
    {limit : Option Nat} (h : Visits im.program limit m a) :
    m.program = im.program ∧ ∃ k, Steady im n k a := by
  induction h with
  | start hw hclosed hnew hbegins =>
    have hm : m.program = im.program := by
      obtain ⟨sc, rfl, -⟩ := new_eq_ok hnew
      rfl
    exact ⟨hm, steady_new hg him hw hclosed hnew hbegins⟩
  | move before hmove ih =>
    obtain ⟨hm, k, hsteady⟩ := ih
    exact ⟨hm, k, hsteady.move hg hnarrow him hm hmove⟩

end CompiledMachine

end Coroutine
