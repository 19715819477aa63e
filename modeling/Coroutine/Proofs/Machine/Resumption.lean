import Mathlib
import Coroutine.Compiler
import Coroutine.Proofs.Graph.Simplified
import Coroutine.Proofs.Lowering.Records
import Coroutine.Proofs.Machine.Fuel
import Coroutine.Proofs.Program.Exits

/-!
# Resumption by a single entry

A machine that has suspended is resumed through the tables of the blocks around the state it stored:
each block leads to where the next region is entered again, and the last one to the state itself. On
the way there are only labels and entries of regions, so nothing changes but the durable state, which
is used up on arrival. This holds of every machine that a compiled lambda can come to.
-/

namespace Coroutine

open Assembly

variable {σ : Type}

/-! ## Traces -/

/-- A machine in the middle of a run. -/
structure Point (σ : Type) where
  position : Position
  durable : Durable
  world : World σ

/-- The instruction that a machine has come to. -/
def Point.instr? (a : Point σ) : Option Instr := a.position.block.instrs[a.position.pc]?

namespace CompiledMachine

/-- A machine runs the instruction it has come to, and goes on. -/
def Executes (env : Env σ) (m : CompiledMachine) (a : Point σ) (i : Instr) (b : Point σ) : Prop :=
  a.instr? = some i ∧ ∀ fuel, m.stepAt env fuel a.position i (a.durable, a.world) =
    some (.ok (.inl b.position), (b.durable, b.world))

/-- A machine runs some instructions one after the other. -/
inductive Trace (env : Env σ) (m : CompiledMachine) (a : Point σ) : List Instr → Point σ → Prop
  | nil : Trace env m a [] a
  | snoc {is : List Instr} {i : Instr} {b c : Point σ} (h : Trace env m a is b)
      (hi : Executes env m b i c) : Trace env m a (is ++ [i]) c

/-- Where a resumption starts. -/
structure Begins (m : CompiledMachine) (d : Durable) (w : World σ) (a : Point σ) : Prop where
  block : a.position.block = m.program.entry
  enclosing : a.position.enclosing = []
  entry : entryPoint m.program.entry (d, w) = some (.ok a.position.pc, (a.durable, a.world))

variable {env : Env σ} {m : CompiledMachine} {a b : Point σ} {is : List Instr}

theorem Executes.run {i : Instr} (h : Executes env m a i b) {steps : Nat}
    (hlimit : limitReached m.limit steps = false) (fuel : Nat) :
    m.runFrom env (fuel + 1) steps a.position (a.durable, a.world) =
      m.runFrom env fuel (steps + 1) b.position (b.durable, b.world) := by
  obtain ⟨hi, hstep⟩ := h
  have hi : a.position.block.instrs[a.position.pc]? = some i := hi
  rw [runFrom, hi]
  simp only [hlimit]
  exact Exec.bind_ok (hstep fuel)

/-- A run goes through a trace. -/
theorem Trace.run (h : Trace env m a is b) {steps : Nat}
    (hlimit : ∀ k < is.length, limitReached m.limit (steps + k) = false) (fuel : Nat) :
    m.runFrom env (is.length + fuel) steps a.position (a.durable, a.world) =
      m.runFrom env fuel (steps + is.length) b.position (b.durable, b.world) := by
  induction h generalizing fuel with
  | nil =>
    rw [List.length_nil, Nat.zero_add]
    rfl
  | snoc h hi ih =>
    simp only [List.length_append, List.length_singleton] at hlimit ⊢
    rw [show ∀ k : Nat, k + 1 + fuel = k + (fuel + 1) by omega,
      ih (fun k hk => hlimit k (hk.trans (Nat.lt_succ_self _))) (fuel + 1),
      hi.run (hlimit _ (Nat.lt_succ_self _)) fuel, Nat.add_assoc]

end CompiledMachine

/-! ## The way to a stored state -/

/-- Whether an instruction only leads on to another place. -/
def Instr.routes : Instr → Bool
  | .label _ | .region _ => true
  | _ => false

/-- The region that an instruction enters. -/
def Instr.entered? : Instr → Option Nat
  | .region r => some r.block.region
  | _ => none

namespace Assembly.Image

variable {im : Image} {n c r : Nat}

theorem row?_eq (hr : im.Renders r) (hc : c ∈ im.graph.resumeStates) :
    (im.block r).row? (Int.ofNat c) = tableRow? im.graph r c := by
  rw [Block.row?, hr.table, find?_table hc]

/-- Where a block starts for a stored state, given its entry in the table. -/
theorem entryPoint_row {b : Block} {d : Durable} {row : TableRow} {pc : Nat}
    (hd : d.state ≠ startState) (hrow : b.row? d.state = some row)
    (hpos : b.position? row.target = some pc) (w : World σ) :
    CompiledMachine.entryPoint b (d, w) =
      some (.ok pc, (if row.nested then d else { d with state := startState }, w)) := by
  change (if d.state = startState then _ else _ : Exec σ Nat) (d, w) = _
  rw [if_neg hd, hrow]
  simp only [hpos]
  cases row.nested <;> rfl

theorem ofNat_ne_startState (c : Nat) : Int.ofNat c ≠ startState := by
  simp [startState]

/-- A block leads to its own states directly. -/
theorem entryPoint_home (hr : im.Renders r) (hc : c ∈ im.graph.resumeStates)
    (hmem : c ∈ im.graph.regionNodes r) (hregion : (im.graph.state c).region = r) {d : Durable}
    (hd : d.state = Int.ofNat c) (w : World σ) :
    ∃ pc, (im.block r).position? (.state c) = some pc ∧
      CompiledMachine.entryPoint (im.block r) (d, w) =
        some (.ok pc, ({ d with state := startState }, w)) := by
  obtain ⟨pc, pre, post, -, hpos, -⟩ := hr.position_state hmem
  have hrow : (im.block r).row? d.state = some ⟨c, .state c, false⟩ := by
    rw [hd, row?_eq hr hc, ← hregion, tableRow?_home]
  exact ⟨pc, hpos, entryPoint_row (by rw [hd]; exact ofNat_ne_startState c) hrow hpos w⟩

/-- A block leads to the entry of the region around a state inside. -/
theorem entryPoint_inner (hg : im.graph.Regular n) {q s : Nat} {t : RegionEntry}
    (hq : im.Renders q) (hsur : im.Surrounds q r s t) (hc : c ∈ im.graph.resumeStates)
    (hlt : (im.graph.state c).region < im.graph.zones.size)
    (hr : r ∈ im.graph.regionChain (im.graph.state c).region) {d : Durable}
    (hd : d.state = Int.ofNat c) (w : World σ) :
    ∃ pc, CompiledMachine.entryPoint (im.block q) (d, w) = some (.ok pc, (d, w)) ∧
      (im.block q).instrs[pc]? = some (.label (.reentry s)) ∧
      (im.block q).instrs[pc + 1]? = some (.region (im.tryRegion s t)) := by
  obtain ⟨pc, rest, hpos, hafter⟩ := hq.position_reentry hsur.mem hsur.transition
  have hrow : (im.block q).row? d.state = some ⟨c, .reentry s, true⟩ := by
    rw [hd, row?_eq hq hc, tableRow?_inner hg.zoned hlt hr hsur.parent hsur.owner]
  refine ⟨pc, entryPoint_row (by rw [hd]; exact ofNat_ne_startState c) hrow hpos w, ?_, ?_⟩
  · exact Block.getElem?_of_position? hpos
  · rw [Block.getElem?_instrs, Block.after_succ hafter]
    rfl

/-- How a machine gets into a region on its way to a stored state: wherever the block of the region
starts, it gets there by labels and entries of regions from the start of the resumption. -/
structure Enters (im : Image) (env : Env σ) (m : CompiledMachine) (d : Durable) (w : World σ)
    (r : Nat) (is : List Instr) (enc : List Enclosing) : Prop where
  nested : im.Nested r enc
  routes : ∀ i ∈ is, i.routes = true
  entered : is.filterMap Instr.entered? = (im.graph.regionChain r).reverse.tail
  length : is.length = 2 * enc.length
  trace : ∀ pc d', CompiledMachine.entryPoint (im.block r) (d, w) = some (.ok pc, (d', w)) →
    ∃ a, m.Begins d w a ∧ CompiledMachine.Trace env m a is ⟨⟨im.block r, pc, enc⟩, d', w⟩

/-- Along the blocks around a region, a machine gets into it. -/
theorem Nested.enters (hg : im.graph.Regular n) (him : im.Faithful) (env : Env σ)
    {m : CompiledMachine} (hm : m.program = im.program) (hc : c ∈ im.graph.resumeStates)
    (hlt : (im.graph.state c).region < im.graph.zones.size) {d : Durable}
    (hd : d.state = Int.ofNat c) (w : World σ) : ∀ {enc : List Enclosing} {r : Nat},
      im.Nested r enc → r ∈ im.regions →
      r ∈ im.graph.regionChain (im.graph.state c).region →
      ∃ is enc', enc'.length = enc.length ∧ im.Enters env m d w r is enc'
  | [], r, h, hmem, hr => by
    obtain rfl : r = Graph.top := h
    refine ⟨[], [], rfl, rfl, nofun, ?_, rfl, fun pc d' hentry => ?_⟩
    · rw [hg.zoned.regionChain_top]
      rfl
    · have hprogram : m.program.entry = im.block Graph.top := by rw [hm]; rfl
      exact ⟨⟨⟨im.block Graph.top, pc, []⟩, d', w⟩, ⟨hprogram.symm, rfl, by rw [hprogram]; exact hentry⟩,
        .nil⟩
  | e :: rest, r, h, hmem, hr => by
    obtain ⟨q, s, t, hq, hsur, -, -, -, hrest⟩ := h.surrounds hg
    obtain rfl := hsur.region
    have hqr : q ∈ im.graph.regionChain t.region := by
      rw [hg.zoned.regionChain_of_parent hsur.lt hsur.parent]
      exact List.mem_cons_of_mem _ Graph.Zoned.mem_regionChain_self
    obtain ⟨is, enc, hlen, hent⟩ := hrest.enters hg him env hm hc hlt hd w hq
      (hg.zoned.mem_regionChain_trans hlt hr hqr)
    obtain ⟨pc, hentry, hlabel, hinstr⟩ :=
      entryPoint_inner hg (him.renders q hq) hsur hc hlt hr hd w
    obtain ⟨a, hbegins, htrace⟩ := hent.trace pc d hentry
    have hrender := (him.renders t.region hmem).region
    -- the label, then the entry of the region
    refine ⟨is ++ [.label (.reentry s)] ++ [.region (im.tryRegion s t)],
      ⟨im.tryRegion s t, im.block q, pc + 1⟩ :: enc, by simp [hlen], ?_, ?_, ?_, ?_, ?_⟩
    · exact ⟨q, s, t, hq, hsur.mem, hsur.transition, rfl, rfl, rfl, hinstr, hent.nested⟩
    · intro i hi
      simp only [List.mem_append, List.mem_singleton] at hi
      rcases hi with (hi | rfl) | rfl
      · exact hent.routes i hi
      · rfl
      · rfl
    · have hchain := hg.zoned.regionChain_of_parent hsur.lt hsur.parent
      have hne : (im.graph.regionChain q).reverse ≠ [] := by
        simpa using List.ne_nil_of_mem Graph.Zoned.mem_regionChain_self
      rw [hchain, List.reverse_cons, List.tail_append_of_ne_nil hne, ← hent.entered]
      simp [List.filterMap_cons, Instr.entered?, tryRegion, hrender]
    · simp [hent.length]
      omega
    · intro pc' d' hentry'
      refine ⟨a, hbegins, .snoc (.snoc htrace (c := ⟨⟨im.block q, pc + 1, enc⟩, d, w⟩)
        ⟨hlabel, fun fuel => rfl⟩) ⟨hinstr, fun fuel => ?_⟩⟩
      exact Exec.bind_ok hentry'

/-! ## Arrival -/

/-- The entries for a state in the tables of the blocks around its region. -/
theorem Nested.rows (hg : im.graph.Regular n) (him : im.Faithful) (hc : c ∈ im.graph.resumeStates)
    (hlt : (im.graph.state c).region < im.graph.zones.size) : ∀ {enc : List Enclosing} {r : Nat},
      im.Nested r enc → r ∈ im.graph.regionChain (im.graph.state c).region → ∀ e ∈ enc,
        ∃ s, e.block.table.filter (·.state == Int.ofNat c) = [⟨c, .reentry s, true⟩]
  | [], _, _, _ => nofun
  | e :: rest, r, h, hr => by
    obtain ⟨q, s, t, hq, hsur, -, hblock, -, hrest⟩ := h.surrounds hg
    have hqr : q ∈ im.graph.regionChain r := by
      rw [hg.zoned.regionChain_of_parent hsur.lt hsur.parent]
      exact List.mem_cons_of_mem _ Graph.Zoned.mem_regionChain_self
    refine List.forall_mem_cons.2 ⟨⟨s, ?_⟩,
      hrest.rows hg him hc hlt (hg.zoned.mem_regionChain_trans hlt hr hqr)⟩
    rw [hblock, (him.renders q hq).table, filter_table hc,
      tableRow?_inner hg.zoned hlt hr hsur.parent hsur.owner]
    rfl

end Assembly.Image

namespace CompiledMachine

/-- How a machine that is resumed comes back to a state: from the point `a` where the resumption
begins to the point `b` at the label of the state, by some instructions. -/
structure ComesBack (graph : Graph) (env : Env σ) (m : CompiledMachine) (w : World σ) (c : Nat)
    (a b : Point σ) (is : List Instr) : Prop where
  begins : m.Begins { m.durable with success := false } w a
  trace : Trace env m a is b
  routes : ∀ i ∈ is, i.routes = true
  /-- It enters the regions around the state, from the outside in. -/
  entered : is.filterMap Instr.entered? = (graph.regionChain (graph.state c).region).reverse.tail
  label : b.instr? = some (.label (.state c))
  /-- The blocks at the end, the innermost first. -/
  blocks : b.position.block.region :: b.position.enclosing.map (fun e => e.block.region) =
    graph.regionChain (graph.state c).region
  durable : b.durable = { m.durable with success := false, state := startState }
  world : b.world = w
  /-- The block of the state has one entry for it, and so has every block around. -/
  direct : b.position.block.table.filter (·.state == Int.ofNat c) = [⟨c, .state c, false⟩]
  nested : ∀ e ∈ b.position.enclosing,
    ∃ s, e.block.table.filter (·.state == Int.ofNat c) = [⟨c, .reentry s, true⟩]
  /-- The resumption goes on from there. -/
  run : ∀ fuel, m.resume env (is.length + fuel) w =
    (m.runFrom env fuel is.length b.position (b.durable, b.world)).map fun (r, d, w) =>
      (m.settle d r, w)

variable {im : Image} {n : Nat}

/-- A parked machine comes back to the state it stored, and is poised there. -/
theorem Parked.comesBack (hg : im.graph.Regular n) (him : im.Faithful) {m : CompiledMachine}
    (hm : m.program = im.program) (h : Parked im m.limit m.durable.state) (env : Env σ)
    (w : World σ) : ∃ c a b is r, m.durable.state = Int.ofNat c ∧ c ∈ im.graph.resumeStates ∧
      m.ComesBack im.graph env w c a b is ∧ im.Poised r b.position b.durable is.length := by
  obtain ⟨r, enc₀, hr, hnested₀, ⟨c, hstate, hmem, hc⟩, hlimit⟩ := h
  obtain ⟨hlt, hk⟩ := hnested₀.region hg
  obtain ⟨-, hregion⟩ := (hg.mem_regionNodes hlt hk).1 hmem
  have hlt' : (im.graph.state c).region < im.graph.zones.size := hregion ▸ hlt
  have hr' : r ∈ im.graph.regionChain (im.graph.state c).region :=
    hregion ▸ Graph.Zoned.mem_regionChain_self
  let d : Durable := { m.durable with success := false }
  -- the regions around the state are entered one by one, from the outside
  obtain ⟨is, enc, hlen, hent⟩ :=
    hnested₀.enters hg him env hm hc hlt' (d := d) hstate w hr hr'
  obtain ⟨pc, hpos, hentry⟩ :=
    Image.entryPoint_home (him.renders r hr) hc hmem hregion (d := d) hstate w
  obtain ⟨a, hbegins, htrace⟩ := hent.trace pc _ hentry
  have hlabel := Block.getElem?_of_position? hpos
  have hlength := hent.length
  refine ⟨c, a, ⟨⟨im.block r, pc, enc⟩, { d with state := startState }, w⟩, is, r, hstate, hc, ?_, ?_⟩
  · refine ⟨hbegins, htrace, hent.routes, hregion ▸ hent.entered, hlabel, ?_, rfl, rfl, ?_, ?_, ?_⟩
    · rw [hregion, (him.renders r hr).region]
      exact hent.nested.chain hg him
    · simp only
      rw [(him.renders r hr).table, filter_table hc, ← hregion, tableRow?_home]
      rfl
    · exact hent.nested.rows hg him hc hlt' hr'
    -- the way back is not cut off, since the limit leaves room for it
    · intro fuel
      have hopen : m.isCompleted = false := by
        simp [isCompleted, hstate, doneState]
      have hfree : ∀ k < is.length, limitReached m.limit (0 + k) = false :=
        fun k hk => hlimit _ (by omega)
      have hrun := htrace.run hfree fuel
      rw [resume, hopen, runEntry]
      simp only [Bool.false_eq_true, if_false]
      rw [Nat.zero_add] at hrun
      rw [Exec.bind_ok hbegins.entry, ← hrun]
      obtain ⟨⟨block, pc₀, enc₁⟩, d₁, w₁⟩ := a
      obtain rfl : block = m.program.entry := hbegins.block
      obtain rfl : enc₁ = [] := hbegins.enclosing
      rfl
  · refine ⟨hr, rfl, hent.nested, fun i hi => ?_, fun i hi => ?_⟩
    · obtain rfl := Option.some.inj (hlabel.symm.trans hi)
      rfl
    · obtain rfl := Option.some.inj (hlabel.symm.trans hi)
      simp only [Instr.entryCost]
      omega

/-! ## Machines of a program -/

end CompiledMachine

/-- Whether a machine may be resumed again. -/
def Status.isPaused : Status → Bool
  | .suspended | .yielded _ => true
  | .completed _ => false

namespace CompiledMachine

variable {im : Image} {n : Nat}

/-- The machines that a program can come to: new ones, those after a resumption, and those whose
durable state was changed otherwise, but for the number of the state. -/
inductive Reached (program : Program) (limit : Option Nat) : CompiledMachine → Prop
  | new {σ : Type} {args : List Value} {w w' : World σ} {m : CompiledMachine}
      (h : CompiledMachine.new program limit args w = .ok (m, w')) : Reached program limit m
  | resume {σ : Type} {env : Env σ} {fuel : Nat} {w w' : World σ} {m m' : CompiledMachine}
      {r : Except RunError Status} (hm : Reached program limit m)
      (h : m.resume env fuel w = some ((r, m'), w')) : Reached program limit m'
  | change {m : CompiledMachine} {d : Durable} (hm : Reached program limit m)
      (hd : d.state = m.durable.state) : Reached program limit (m.withDurable d)

/-- The states of a machine between resumptions. -/
def Rests (im : Image) (m : CompiledMachine) : Prop :=
  m.durable.state = startState ∨ m.durable.state = doneState ∨ Parked im m.limit m.durable.state

/-- The durable state with which a resumption gets to the state it goes on from. -/
def awake (m : CompiledMachine) : Durable := { m.durable with success := false, state := startState }

section

variable (hg : im.graph.Regular n) (him : im.Faithful)
include hg him

/-- A resumption of a machine that has not completed runs from a point where it is poised: the start
of the program, or the label of the state that it stored. -/
theorem Rests.starts {m : CompiledMachine} (hm : m.program = im.program) (h : Rests im m)
    (hopen : m.isCompleted = false) {env : Env σ} {fuel : Nat} {w : World σ}
    {x : (Except RunError Status × CompiledMachine) × World σ} (hx : m.resume env fuel w = some x) :
    ∃ r p steps res d w',
      im.Poised r p m.awake steps ∧ (p.block.instrs[p.pc]?).isSome = true ∧
      m.runFrom env fuel steps p (m.awake, w) = some (res, (d, w')) ∧ x = (m.settle d res, w') := by
  rcases h with hstart | hdone | hparked
  -- a new machine starts at the first instruction of the outermost block
  · have hawake : { m.durable with success := false } = m.awake := by rw [awake, ← hstart]
    have hrenders := him.renders _ him.top
    have hkind : (im.graph.zone Graph.top).kind.isRegion = true := by
      rw [hg.zoned.top_kind]
      rfl
    have hhead : ((im.block Graph.top).instrs[0]?).isSome = true :=
      hrenders.isSome_head ((hg.mem_regionNodes hg.zoned.pos hkind).2 hg.entry)
    have hpoised : im.Poised Graph.top ⟨im.block Graph.top, 0, []⟩ m.awake 0 := by
      refine ⟨him.top, rfl, rfl, fun i hi => ?_, fun i hi => ?_⟩
      · obtain ⟨s, rfl⟩ := hrenders.head_label hi
        rfl
      · obtain ⟨s, rfl⟩ := hrenders.head_label hi
        exact le_rfl
    have hentry : m.program.entry = im.block Graph.top := by rw [hm]; rfl
    rw [resume, hopen, hawake] at hx
    obtain ⟨⟨res, d, w'⟩, hrun, rfl⟩ := Option.map_eq_some_iff.1 hx
    refine ⟨Graph.top, _, 0, res, d, w', hpoised, hhead, ?_, rfl⟩
    rw [runEntry, Exec.bind_ok (entryPoint_start rfl w), hentry] at hrun
    exact hrun
  · simp [isCompleted, hdone] at hopen
  -- a parked machine first finds its way back
  · obtain ⟨c, a, b, is, r, -, -, hback, hpoised⟩ := hparked.comesBack hg him hm env w
    have hx' := resume_mono env (Nat.le_add_left fuel is.length) m hx
    rw [hback.run fuel, hback.durable, hback.world] at hx'
    rw [hback.durable] at hpoised
    obtain ⟨⟨res, d, w'⟩, hrun, rfl⟩ := Option.map_eq_some_iff.1 hx'
    refine ⟨r, b.position, is.length, res, d, w', hpoised, ?_, hrun, rfl⟩
    exact Option.isSome_iff_exists.2 ⟨_, hback.label⟩

/-- A resumption leaves a machine at rest, and parked if it did not complete. -/
theorem Rests.resume {m m' : CompiledMachine} (hm : m.program = im.program) (h : Rests im m)
    {env : Env σ} {fuel : Nat} {w w' : World σ} {r : Except RunError Status}
    (hrun : m.resume env fuel w = some ((r, m'), w')) :
    m'.program = m.program ∧ m'.limit = m.limit ∧ Rests im m' ∧
      ∀ status, r = .ok status → status.isPaused = true → Parked im m'.limit m'.durable.state := by
  cases hopen : m.isCompleted with
  | true =>
    rw [CompiledMachine.resume, hopen] at hrun
    cases hrun
    exact ⟨rfl, rfl, h, nofun⟩
  | false =>
    obtain ⟨q, p, steps, res, d, w₁, hpoised, -, hruns, heq⟩ := h.starts hg him hm hopen hrun
    have hparked := run_poised hg him env m fuel hpoised w _ _ hruns
    cases res with
    | error e =>
      cases heq
      exact ⟨rfl, rfl, .inr (.inl rfl), nofun⟩
    | ok flow =>
      cases flow with
      | suspend kind =>
        have hkind := hparked kind rfl
        cases kind <;> cases heq <;> exact ⟨rfl, rfl, .inr (.inr hkind), fun _ _ _ => hkind⟩
      | complete v =>
        cases heq
        refine ⟨rfl, rfl, .inr (.inl rfl), fun status hstatus hpaused => ?_⟩
        cases hstatus
        cases hpaused

/-- A machine rests between resumptions. -/
theorem Reached.rests {limit : Option Nat} {m : CompiledMachine} (h : Reached im.program limit m) :
    m.program = im.program ∧ m.limit = limit ∧ Rests im m := by
  induction h with
  | new h =>
    unfold CompiledMachine.new at h
    split at h
    · cases h
    · cases h
      exact ⟨rfl, rfl, .inl rfl⟩
  | resume hm hrun ih =>
    obtain ⟨hprogram, hlimit, hrests⟩ := ih
    obtain ⟨hprogram', hlimit', hrests', -⟩ := hrests.resume hg him hprogram hrun
    exact ⟨hprogram'.trans hprogram, hlimit'.trans hlimit, hrests'⟩
  | change hm hd ih =>
    obtain ⟨hprogram, hlimit, hrests⟩ := ih
    refine ⟨hprogram, hlimit, ?_⟩
    unfold Rests at hrests ⊢
    rw [← hd] at hrests
    exact hrests

end

end CompiledMachine

/-! ## Blocks of a program -/

namespace Assembly.Image

variable {im : Image} {P : Nat → Prop}

/-- The regions that an instruction enters have a property. -/
def EntersOnly (im : Image) (P : Nat → Prop) (i : Instr) : Prop :=
  ∀ r, i = .region r → ∃ q, P q ∧ r.block = im.block q

/-- A property that goes over from a region to those entered in its block. -/
def Inherits (im : Image) (P : Nat → Prop) : Prop :=
  ∀ q, P q → ∀ i ∈ (im.block q).instrs.toList, im.EntersOnly P i

mutual

theorem Inherits.instr (hP : im.Inherits P) : ∀ {i : Instr}, im.EntersOnly P i → ∀ {b : Block},
    b ∈ i.blocks → ∃ q, P q ∧ b = im.block q
  | .region ⟨_, _, _, _, _, _, _⟩, hi, _, hb => hP.block (hi _ rfl) hb

theorem Inherits.list (hP : im.Inherits P) : ∀ {is : List Instr}, (∀ i ∈ is, im.EntersOnly P i) →
    ∀ {b : Block}, b ∈ Instr.blocksList is → ∃ q, P q ∧ b = im.block q
  | i :: is, his, b, hb => by
    obtain ⟨hi, his⟩ := List.forall_mem_cons.1 his
    rcases List.mem_append.1 hb with hb | hb
    · exact hP.instr hi hb
    · exact hP.list his hb

/-- An inherited property holds of all blocks inside a block. -/
theorem Inherits.block (hP : im.Inherits P) : ∀ {b₀ : Block}, (∃ q, P q ∧ b₀ = im.block q) →
    ∀ {b : Block}, b ∈ b₀.blocks → ∃ q, P q ∧ b = im.block q
  | ⟨region, table, ⟨instrs⟩⟩, h, b, hb => by
    rcases List.mem_cons.1 hb with rfl | hb
    · exact h
    · obtain ⟨q, hq, heq⟩ := h
      refine hP.list (fun i hi => hP q hq i ?_) hb
      rw [← heq]
      exact hi

end

/-- The blocks inside the block of a region are those of other regions. -/
theorem mem_blocks (him : im.Faithful) {b₀ : Block} (h : ∃ q ∈ im.regions, b₀ = im.block q)
    {b : Block} (hb : b ∈ b₀.blocks) : ∃ q ∈ im.regions, b = im.block q := by
  refine Inherits.block (P := (· ∈ im.regions)) (fun q hq i hi r hr => ?_) h hb
  obtain ⟨s, hs, next, hcode⟩ := (him.renders q hq).mem_instrs (hr ▸ hi)
  obtain ⟨t, ht, rfl⟩ := region_mem_stateCode hcode
  exact ⟨t.region, ((him.renders q hq).states s hs).inner _ ht _ _ rfl, rfl⟩

end Assembly.Image

/-! ## Compiled lambdas -/

/-- A compiled lambda has a regular and tidy graph, and its program is that of a faithful image. -/
theorem Lambda.compile_tidy {l : Lambda} {resolve : Expr.Resolver} {o : Options} {c : Compiled}
    (h : l.compile resolve o = .ok c) : ∃ (im : Image) (n : Nat), im.graph = c.graph ∧
      im.resolve = resolve ∧ im.graph.Regular n ∧ im.graph.Tidy n ∧ im.Faithful ∧
      c.program = im.program := by
  obtain ⟨raw, hraw, h⟩ := bind_eq_ok.1 h
  obtain ⟨program, hprogram, h⟩ := bind_eq_ok.1 h
  cases h
  obtain ⟨facts, hcheck, -⟩ := bind_eq_ok.1 hraw
  obtain ⟨hregular, -⟩ := Lambda.lower_regular_of_check hcheck hraw
  obtain ⟨φ, -, hreduces⟩ := hregular.reduces_simplify o
  obtain ⟨im, hgraph, hresolve, -, -, him, rfl⟩ := assemble_image hprogram
  have hg := hreduces.regular hregular
  exact ⟨im, facts.maxVar + 1, hgraph, hresolve, hgraph ▸ hg, hgraph ▸ hg.tidy, him, rfl⟩

/-- A compiled lambda has a regular graph, and its program is that of a faithful image. -/
theorem Lambda.compile_image {l : Lambda} {resolve : Expr.Resolver} {o : Options} {c : Compiled}
    (h : l.compile resolve o = .ok c) : ∃ (im : Image) (n : Nat), im.graph = c.graph ∧
      im.resolve = resolve ∧ im.graph.Regular n ∧ im.Faithful ∧ c.program = im.program := by
  obtain ⟨im, n, hgraph, hresolve, hregular, -, him, hprogram⟩ := Lambda.compile_tidy h
  exact ⟨im, n, hgraph, hresolve, hregular, him, hprogram⟩

/-- Whenever a machine of a compiled lambda suspends or yields, it has stored a state to resume at.
However its durable state is changed but for that, and whatever the world becomes, the next
resumption comes back to this state by labels and entries of regions only. No table of the program
has an entry for any other state. -/
theorem CompiledMachine.resumes_at_stored_state {l : Lambda} {resolve : Expr.Resolver} {o : Options}
    {c : Compiled} (hc : l.compile resolve o = .ok c) {limit : Option Nat} {m m' : CompiledMachine}
    (hm : Reached c.program limit m) {env : Env σ} {fuel : Nat} {w w' : World σ} {status : Status}
    (hrun : m.resume env fuel w = some ((.ok status, m'), w')) (hpaused : status.isPaused = true) :
    (∃ r : Nat, m'.durable.state = Int.ofNat r ∧ Int.ofNat r ∈ c.program.resumePoints ∧
      ∀ (d : Durable), d.state = m'.durable.state →
        ∀ {τ : Type} (env' : Env τ) (w₀ : World τ), ∃ a b is,
          (m'.withDurable d).ComesBack c.graph env' w₀ r a b is) ∧
    ∀ b ∈ c.program.entry.blocks, ∀ row ∈ b.table, ∃ s t r, c.graph.isLive s = true ∧
      (c.graph.state s).transition = some t ∧ t.resumeTarget? = some r ∧
      row.state = Int.ofNat r := by
  obtain ⟨im, n, hgraph, -, hg, him, hprogram⟩ := Lambda.compile_image hc
  rw [← hgraph, hprogram]
  rw [hprogram] at hm
  obtain ⟨hmprogram, -, hrests⟩ := hm.rests hg him
  obtain ⟨hprogram', -, -, hparked⟩ := hrests.resume hg him hmprogram hrun
  have hparked := hparked status rfl hpaused
  refine ⟨?_, fun b hb row hrow => ?_⟩
  · obtain ⟨q, enc, hq, hnested, ⟨r, hr, hmem, hresume⟩, hlimit⟩ := hparked
    refine ⟨r, hr, List.mem_map_of_mem (f := Int.ofNat) hresume, fun d hd τ env' w₀ => ?_⟩
    -- only the stored state matters for how a machine comes back
    have hparked' : Parked im (m'.withDurable d).limit (m'.withDurable d).durable.state :=
      ⟨q, enc, hq, hnested, ⟨r, hd.trans hr, hmem, hresume⟩, hlimit⟩
    have hprogram'' : (m'.withDurable d).program = im.program := hprogram'.trans hmprogram
    obtain ⟨r', a, b, is, -, hr', -, hback, -⟩ := hparked'.comesBack hg him hprogram'' env' w₀
    obtain rfl : r' = r := Int.ofNat.inj (hr'.symm.trans (hd.trans hr))
    exact ⟨a, b, is, hback⟩
  · obtain ⟨q, hq, rfl⟩ := Image.mem_blocks him ⟨Graph.top, him.top, rfl⟩ hb
    rw [(him.renders q hq).table] at hrow
    obtain ⟨r, hr, hrow⟩ := List.mem_filterMap.1 hrow
    obtain ⟨s, t, hlive, ht, hresume⟩ := Graph.mem_resumeStates.1 hr
    exact ⟨s, t, r, hlive, ht, hresume, state_of_tableRow? hrow⟩

/-- A lambda that waits for its argument inside two protected bodies. -/
def Lambda.guardedWait : Lambda :=
  ⟨none, .async, [⟨0, "x"⟩],
    .tryCatch (.tryCatch (.await (.var ⟨0, "x"⟩) "Task" false) [] (some .unit)) [] (some .unit)⟩

/-- Every awaitable type is that of a task. -/
def Expr.Resolver.tasks : Expr.Resolver := fun name => .ok (.task name)

/-- A world with a task that has not settled. -/
def World.pending : World Unit := { tasks := #[{}], host := () }

/-- A machine that waits inside two protected bodies comes back to where it waits. -/
theorem CompiledMachine.guardedWait_resumes : ∃ c m w m' w',
    Lambda.guardedWait.compile .tasks {} = .ok c ∧
    CompiledMachine.new c.program none [.task 0] World.pending = .ok (m, w) ∧
    m.resume .bare 64 w = some ((.ok .suspended, m'), w') ∧
    ∃ r : Nat, m'.durable.state = Int.ofNat r ∧ ∃ a b is,
      m'.ComesBack c.graph Env.bare w' r a b is := by
  have hrun : ((Lambda.guardedWait.compile .tasks {}).toOption.bind fun c =>
      (CompiledMachine.new c.program none [.task 0] World.pending).toOption.bind fun (m, w) =>
        (m.resume Env.bare 64 w).bind fun ((r, _), _) => r.toOption) = some .suspended := by
    cbv
  obtain ⟨c, hc, hrun⟩ := bind_toOption_eq_some hrun
  obtain ⟨⟨m, w⟩, hnew, hrun⟩ := bind_toOption_eq_some hrun
  obtain ⟨⟨⟨r, m'⟩, w'⟩, hresume, hr⟩ := Option.bind_eq_some_iff.1 hrun
  obtain rfl := eq_ok_of_toOption hr
  obtain ⟨⟨r, hstate, -, hback⟩, -⟩ :=
    CompiledMachine.resumes_at_stored_state hc (.new hnew) hresume rfl
  exact ⟨c, m, w, m', w', hc, hnew, hresume, r, hstate, hback m'.durable rfl Env.bare w'⟩

end Coroutine
