import Mathlib
import Coroutine.Proofs.Code.Built
import Coroutine.Proofs.Interpreter.Safety
import Coroutine.Proofs.Machine.Resumption

/-!
# Compiled machines do not break down

Whatever a host does that leaves scopes and closures to the machine (`Env.Tame`), a machine of a
compiled lambda never fails on its own bookkeeping. An instruction finds its variables, its
expressions give a value or jump to a label that has a state, and every jump has a destination
(`Image.Serves`). A part of a run is safe if it keeps variables bound and closures sound and does not
end with a breakdown (`Exec.Safe`): so is every instruction, every step that is poised, and every
resumption of a machine that started out in a sound world.
-/

namespace Coroutine

open Assembly

variable {σ α β : Type} {im : Image} {n r steps fuel : Nat} {limit : Option Nat} {p : Position}
  {d : Durable} {env : Env σ} {m : CompiledMachine} {χ : Chain} {i : Instr} {s : Durable × World σ}

/-! ## What instructions need -/

namespace Graph

variable {g : Graph} {s : Nat}

/-- The variables of a graph, those for records included. -/
def Declares (g : Graph) (i : Nat) : Prop := ∃ x ∈ g.params ++ g.vars, x.id = i

/-- A usable variable is declared. -/
theorem Usable.declares {i : Nat} (h : g.Usable n i) : g.Declares i := by
  obtain ⟨x, hx, hi, -⟩ := h
  exact ⟨x, hx, hi⟩

/-- A variable for records is declared. -/
theorem Recording.declares {x : Var} (h : g.Recording n x) : g.Declares x.id :=
  ⟨x, List.mem_append_right _ h.1, rfl⟩

/-- A program lists every variable of its graph, or another one under the same word. -/
theorem exists_listed {x : Var} (hx : x ∈ g.params ++ g.vars) :
    ∃ y ∈ g.params ++ g.ownVars, y.word = x.word := by
  rcases List.mem_append.1 hx with hx | hx
  · exact ⟨x, List.mem_append_left _ hx, rfl⟩
  · obtain ⟨y, hy, hword⟩ := mem_foldl_unless Var.word g.vars [] (.inr ⟨x, hx, rfl⟩)
    exact ⟨y, List.mem_append_right _ hy, hword⟩

/-- The setting in which machines run: all variables of the graph are there. -/
def running (g : Graph) (n : Nat) : Setting := { g.setting n with bound := g.Declares }

/-- The expressions of a transition fit. -/
theorem TransitionSound.fits {t : Transition} (h : g.TransitionSound n s t) :
    ∀ e ∈ t.exprs, e.Fits (g.setting n) := by
  cases t with
  | conditional test => exact List.forall_mem_singleton.2 h
  | switch value arms =>
    refine List.forall_mem_cons.2 ⟨h.1, fun e he => ?_⟩
    obtain ⟨a, ha, he⟩ := List.mem_flatMap.1 he
    exact h.2 a ha e he
  | await a => exact List.forall_mem_singleton.2 h.1
  | yieldReturn value => exact List.forall_mem_singleton.2 h.1
  | finish value =>
    cases value with
    | none => nofun
    | some value => exact List.forall_mem_singleton.2 h
  | _ => nofun

/-- The expressions of a state fit. -/
theorem StateSound.fits {x : State} (h : g.StateSound n s x) :
    ∀ e ∈ x.exprs, e.Fits (g.setting n) := by
  intro e he
  rcases List.mem_append.1 he with he | he
  · rcases List.mem_append.1 he with he | he
    · exact h.expressions e he
    · obtain ⟨⟨y, e'⟩, hye, rfl⟩ := List.mem_map.1 he
      exact (h.result y e' (by simpa using hye)).2
  · cases ht : x.transition with
    | none => rw [ht] at he; cases he
    | some t =>
      rw [ht] at he
      exact (h.transition t ht).fits e he

end Graph

namespace Assembly.Image

variable {s : Nat}

/-- The expressions of a state's instructions are its own, but for a constant. -/
theorem exprs_of_mem_stateCode {next : Option Nat} {i : Instr} (hi : i ∈ im.stateCode next s)
    {e : CompiledExpr} (he : e ∈ i.exprs) :
    ∃ e₀, e = im.expr e₀ ∧ (e₀ ∈ (im.graph.state s).exprs ∨ ∃ v, e₀ = .constant v) := by
  cases emits_of_mem hi with
  | label => cases he
  | eval h =>
    exact ⟨_, List.mem_singleton.1 he, .inl (List.mem_append_left _ (List.mem_append_left _ h))⟩
  | result h =>
    refine ⟨_, List.mem_singleton.1 he, .inl (List.mem_append_left _ (List.mem_append_right _ ?_))⟩
    simp [h]
  -- the expressions of a transition are its own, apart from the constant of a reset
  | @own t _ ht h =>
    suffices hexprs : ∃ e₀, e = im.expr e₀ ∧ (e₀ ∈ t.exprs ∨ ∃ v, e₀ = .constant v) by
      obtain ⟨e₀, heq, he₀⟩ := hexprs
      refine ⟨e₀, heq, he₀.imp_left fun he₀ => List.mem_append_right _ ?_⟩
      rw [ht]
      exact he₀
    cases h with
    | gotoIf | getAwaiter | setCurrent =>
      exact ⟨_, List.mem_singleton.1 he, .inl List.mem_cons_self⟩
    | reset t => exact ⟨_, List.mem_singleton.1 he, .inr ⟨_, rfl⟩⟩
    | switch value arms fallback =>
      rcases List.mem_cons.1 he with rfl | he
      · exact ⟨value, rfl, .inl List.mem_cons_self⟩
      · obtain ⟨arm, harm, he⟩ := List.mem_flatMap.1 he
        obtain ⟨a, ha, rfl⟩ := List.mem_map.1 harm
        obtain ⟨e₀, he₀, rfl⟩ := List.mem_map.1 he
        exact ⟨e₀, rfl, .inl (List.mem_cons_of_mem _ (List.mem_flatMap.2 ⟨a, ha, he₀⟩))⟩
    | finish value =>
      cases value with
      | none => cases he
      | some value => exact ⟨value, List.mem_singleton.1 he, .inl List.mem_cons_self⟩
    | _ => cases he

/-- The variables of a state's instructions are declared. -/
theorem vars_of_mem_stateCode {next : Option Nat}
    (hs : im.graph.StateSound n s (im.graph.state s)) {i : Instr} (hi : i ∈ im.stateCode next s)
    {x : Var} (hx : x ∈ i.vars) : im.graph.Declares x.id := by
  have hone {y : Var} (hy : im.graph.Declares y.id) (hx : x ∈ [y]) : im.graph.Declares x.id := by
    rwa [List.mem_singleton.1 hx]
  have htwo {y z : Var} (hy : im.graph.Declares y.id) (hz : im.graph.Declares z.id)
      (hx : x ∈ [y, z]) : im.graph.Declares x.id :=
    (List.mem_cons.1 hx).elim (fun h => h ▸ hy) (hone hz)
  cases emits_of_mem hi with
  | label | eval => cases hx
  | result h => exact hone (hs.result _ _ h).1.1.declares hx
  | @own t _ ht h =>
    have hsound := hs.transition t ht
    cases h with
    | reset t =>
      have hentry : im.graph.EntrySound n s t := hsound
      exact hone hentry.tryState.declares hx
    | region t | dispatch t =>
      have hentry : im.graph.EntrySound n s t := hsound
      exact htwo hentry.tryState.declares hentry.exception.declares hx
    | leave e => exact htwo hsound.1.declares hsound.2.1.1.declares hx
    | getAwaiter a | isCompleted a | register a => exact hone hsound.2.1.1.declares hx
    | getResult a =>
      rcases List.mem_cons.1 hx with rfl | hx
      · exact hsound.1.1.declares
      · exact (hsound.2 x (by simpa using hx)).1.declares
    | _ => cases hx

/-- What an instruction in the block of a region needs to run. -/
structure Serves (im : Image) (n r : Nat) (i : Instr) : Prop where
  sound : ∀ e ∈ i.exprs, e.code.Sound (· ∈ e.code.escapes) (im.graph.setting n)
  escapes : ∀ e ∈ i.exprs, ∀ l ∈ e.code.escapes, ∃ slot, im.program.labels.lookup l = some slot ∧
    im.Reaches r slot.target ∧ ∀ x ∈ slot.var, im.graph.Declares x.id
  targets : ∀ t ∈ i.targets, im.Reaches r t
  vars : ∀ x ∈ i.vars, im.graph.Declares x.id

/-- The instructions of a block have what they need. -/
theorem Renders.serves (hg : im.graph.Regular n) (h : im.Renders r)
    (hlive : ∀ s ∈ im.graph.regionNodes r, im.graph.isLive s = true) {i : Instr}
    (hi : i ∈ (im.block r).instrs.toList) : im.Serves n r i := by
  obtain ⟨s, hs, next, hcode⟩ := h.mem_instrs hi
  have hsound := hg.sound s (hlive s hs)
  refine ⟨fun e he => ?_, fun e he l hl => ?_, fun t ht => h.reaches_target hi ht,
    fun x hx => vars_of_mem_stateCode hsound hcode hx⟩
  · obtain ⟨e₀, rfl, he₀⟩ := exprs_of_mem_stateCode hcode he
    obtain ⟨hbuilds, hfits⟩ : Builds im.resolve e₀ ∧ e₀.Fits (im.graph.setting n) := by
      rcases he₀ with he₀ | ⟨v, rfl⟩
      · exact ⟨(h.states s hs).builds e₀ he₀, hsound.fits e₀ he₀⟩
      · exact ⟨builds_constant _ v, trivial⟩
    obtain ⟨c, hc⟩ := hbuilds
    have hcode : (im.expr e₀).code = c := by
      rw [expr, compiled, hc]
      rfl
    rw [hcode]
    exact (Code.build_sound hfits hc).mono fun l hl => hl.2
  · obtain ⟨b, hb, hreach⟩ := h.reaches_escape hi he hl
    refine ⟨_, lookup_labels hg hb, hreach, fun x hx => ?_⟩
    exact ((hg.label l b (mem_of_lookup hb)).2 x hx).1.declares

end Assembly.Image

/-! ## Safe parts of a run -/

/-- A part of a run over a chain that has the variables of a setting does not break down. -/
def Exec.Safe (χ : Chain) (st : Setting) (x : Exec σ α) (s : Durable × World σ)
    (P : α → Prop) : Prop :=
  s.1.scopes = χ → s.2.Sound → s.2.Binds χ st → Exec.Ensures x s fun r s' =>
    s'.1.scopes = χ ∧ s.2.Keeps s'.2 ∧ Orderly P r

namespace Exec.Safe

variable {st : Setting} {P : α → Prop}

/-- A value is safe. -/
theorem pure {a : α} (h : P a) : Exec.Safe χ st (pure a : Exec σ α) s P :=
  fun hd hw _ => .pure ⟨hd, .refl hw, h⟩

/-- An error that is no breakdown is safe. -/
theorem throw {e : RunError} (h : e.isBreakdown = false) :
    Exec.Safe χ st (throw e : Exec σ α) s P :=
  fun hd hw _ => .throw ⟨hd, .refl hw, h⟩

/-- Safe parts are safe one after the other. -/
theorem bind {x : Exec σ α} {f : α → Exec σ β} {Q : β → Prop}
    (hx : Exec.Safe χ st x s P) (hf : ∀ a s', P a → Exec.Safe χ st (f a) s' Q) :
    Exec.Safe χ st (x >>= f) s Q := by
  intro hd hw hb
  refine .bind ((hx hd hw hb).mono ?_)
  rintro (e | a) s' ⟨hd', hk, hr⟩
  · exact ⟨hd', hk, hr⟩
  · refine (hf a s' hr hd' hk.sound (hb.grows hk.grows)).mono ?_
    rintro r' s'' ⟨hd'', hk', hr'⟩
    exact ⟨hd'', hk.trans hk', hr'⟩

/-- A call of a tame host is safe. -/
theorem perform {e : Effect σ α} (he : e.Keeps) :
    Exec.Safe χ st (CompiledMachine.perform e) s fun _ => True := by
  intro hd hw hb
  have hk := he s.2 hw
  refine .perform (fun a w' h => ?_) fun x w' h => ?_
  all_goals
    rw [Effect.perform, h] at hk
  · exact ⟨hd, hk, trivial⟩
  · exact ⟨hd, hk, rfl⟩

/-- Reading a variable that is bound is safe. -/
theorem read {x : Var} (hx : st.bound x.id) :
    Exec.Safe χ st (CompiledMachine.read x : Exec σ Value) s fun _ => True := by
  rintro rfl hw hb
  refine .read (fun v _ => ⟨rfl, .refl hw, trivial⟩) fun hnone => ?_
  have hsome := World.isSome_lookup hb hx
  rw [hnone] at hsome
  cases hsome

/-- Writing a variable that is bound is safe. -/
theorem write {x : Var} (hx : st.bound x.id) (v : Value) :
    Exec.Safe χ st (CompiledMachine.write x v : Exec σ Unit) s fun _ => True := by
  rintro rfl hw hb
  have hk := hw.assign s.1.scopes x.word v
  have htrue := World.assign_fst hb hx v
  refine .write (fun w' h => ?_) fun w' h => ?_
  all_goals
    rw [h] at hk htrue
  · exact ⟨rfl, hk, trivial⟩
  · cases htrue

end Exec.Safe

/-! ## Instructions -/

/-- A jump after an instruction has a destination. -/
def Next.Lands (im : Image) (r : Nat) : Next → Prop
  | .jump t => im.Reaches r t
  | _ => True

/-- What an instruction assigns is one of its variables. -/
theorem Instr.written_subset_vars (i : Instr) : i.written ⊆ i.vars := by
  cases i <;> simp [written, vars]

namespace CompiledMachine

/-- No part of an instruction that has what it needs breaks down. An expression gives a value, throws,
or jumps to a state that is reached. -/
def serving (henv : env.Tame) (hm : m.program = im.program) (hi : im.Serves n r i) (χ : Chain) :
    Exec.Logic env fuel m where
  Runs pre x s P := pre → Exec.Safe χ (im.graph.running n) x s P
  chain χ' := χ' = χ
  expr e := e ∈ i.exprs
  escapes e l := l ∈ e.code.escapes
  lands t := im.Reaches r t
  reads x := im.graph.Declares x.id
  writes x := im.graph.Declares x.id
  fails e := e.isBreakdown = false
  fails_thrown _ := rfl
  fails_escape he hl hnone := by
    obtain ⟨slot, hslot, -⟩ := hi.escapes _ he _ hl
    rw [hm, hslot] at hnone
    cases hnone
  lands_escape he hl hslot := by
    obtain ⟨slot', hslot', hreach, -⟩ := hi.escapes _ he _ hl
    rw [hm, hslot'] at hslot
    cases hslot
    exact hreach
  writes_escape he hl hslot := by
    obtain ⟨slot', hslot', -, hvar⟩ := hi.escapes _ he _ hl
    rw [hm, hslot'] at hslot
    cases hslot
    exact hvar
  ret h hpre := .pure (h hpre)
  fail h hpre := .throw (h hpre)
  bind h hf hpre := (h hpre).bind fun a s' ha => hf a s' ⟨hpre, ha⟩
  evaluate {pre s e χ'} he hχ hpre := by
    intro hd hw hb res s' hres
    obtain ⟨⟨res', w'⟩, heval, heq⟩ := Option.map_eq_some_iff.1 hres
    cases heq
    rw [hχ hpre] at heval
    obtain ⟨hk, hres⟩ := evaluate_safe henv hw (hi.sound e (he hpre)) rfl rfl
      (fun i hi => hb i hi.declares) heval
    match res, hres with
    | .error err, hres => exact ⟨hd, hk, hres⟩
    | .ok (.value v), _ => exact ⟨hd, hk, trivial⟩
    | .ok (.escape label v), hres => exact ⟨hd, hk, hres⟩
  read hx _ := .read hx
  write hx hpre := .write (hx hpre) _
  durably _ hd hw _ := .durably ⟨hd, .refl hw, hd⟩
  update hf _ hd hw _ := .modifyDurable ⟨hf.scopes.trans hd, .refl hw, trivial⟩
  asException v _ := .perform fun w hw => hw.asException v
  getAwaiter b v configure _ := .perform ((henv.protocol b).getAwaiter v configure)
  isCompleted b v _ := .perform ((henv.protocol b).isCompleted v)
  getResult b v _ := .perform ((henv.protocol b).getResult v)

/-- An instruction that has what it needs does not break down. -/
theorem exec_safe (henv : env.Tame) (hm : m.program = im.program) (hi : im.Serves n r i) :
    Exec.Safe χ (im.graph.running n) (m.exec env fuel i) s (Next.Lands im r) := by
  have hexec : Exec.Safe χ (im.graph.running n) (m.exec env fuel i) s (i.Leads (im.Reaches r)) :=
    (serving henv hm hi χ).exec (fun _ _ he => he) hi.vars
      (fun x hx => hi.vars x (i.written_subset_vars hx)) (fun _ _ => trivial) hi.targets trivial
  intro hd hw hb
  refine (hexec hd hw hb).mono ?_
  rintro (e | next) s' ⟨hd', hk, hnext⟩
  · exact ⟨hd', hk, hnext⟩
  · refine ⟨hd', hk, ?_⟩
    cases hnext with
    | jump h => exact h
    | _ => trivial

/-! ## Steps -/

end CompiledMachine

/-- There is an instruction to run. -/
def Position.Inside (p : Position) : Prop := (p.block.instrs[p.pc]?).isSome = true

/-- Control goes on behind an instruction that may be followed by the next. -/
theorem Instr.continues_of_advances {i : Instr} (h : i.advances = true) : i.continues = true := by
  cases i <;> first | exact h | rfl

namespace Assembly.Image

/-- The variables of a region around are there, and control can go on behind it. -/
theorem Nested.around (hg : im.graph.Regular n) (him : im.Faithful) {e : Enclosing}
    {rest : List Enclosing} (h : im.Nested r (e :: rest)) :
    im.graph.Declares e.region.tryState.id ∧ im.graph.Declares e.region.exception.id ∧
      Position.Inside ⟨e.block, e.pc + 1, rest⟩ ∧ e.region.exits = im.exits r ∧
      ∃ q, im.Nested q rest := by
  obtain ⟨q, s, t, hq, hsur, hregion, hblock, hinstr, hrest⟩ := h.surrounds hg
  have hentry : im.graph.EntrySound n s t := (hg.sound s hsur.live).transition _ hsur.transition
  rw [hregion]
  refine ⟨hentry.tryState.declares, hentry.exception.declares, ?_, ?_, q, hrest⟩
  · rw [Position.Inside, hblock]
    exact (him.renders q hq).isSome_next hinstr rfl
  · exact congrArg im.exits hsur.region

/-- A region that is entered has a first instruction. -/
theorem Poised.inside (hg : im.graph.Regular n) (him : im.Faithful) (h : im.Poised r p d steps)
    {region : TryRegion} (hi : p.block.instrs[p.pc]? = some (.region region))
    (enc : List Enclosing) : Position.Inside ⟨region.block, 0, enc⟩ := by
  rw [h.block] at hi
  obtain ⟨s, hs, next, hcode⟩ := (him.renders r h.mem).mem_instrs (Block.mem_of_getElem? hi)
  obtain ⟨t, ht, rfl⟩ := region_mem_stateCode hcode
  obtain ⟨hlt, hk⟩ := h.nested.region hg
  have hsur := surrounds hg hlt hk hs ht
  have hentry : im.graph.EntrySound n s t := (hg.sound s hsur.live).transition _ ht
  obtain ⟨t', ht', hrefs⟩ := hg.leads s hsur.live
  obtain rfl := Option.some.inj (ht.symm.trans ht')
  have hbody : t.body ∈ im.graph.regionNodes t.region :=
    (hg.mem_regionNodes hsur.lt hsur.isRegion).2 ⟨hrefs _ List.mem_cons_self, hentry.body.2⟩
  have hq : t.region ∈ im.regions := ((him.renders r h.mem).states s hs).inner _ ht _ _ rfl
  exact (him.renders _ hq).isSome_head hbody

end Assembly.Image

/-- A run that goes on has an instruction to go on with. -/
def GoesInside (next : Position ⊕ Flow) : Prop := ∀ p, next = .inl p → p.Inside

namespace CompiledMachine

section

variable (hg : im.graph.Regular n) (him : im.Faithful)
include hg him

/-- A jump that leaves a block is taken by the region directly around. -/
theorem leaveTo_safe (hr : r ∈ im.regions) {enc : List Enclosing} (h : im.Nested r enc)
    {t : Target} (ht : t ∈ (im.exits r).map RegionExit.target) :
    Exec.Safe χ (im.graph.running n) (leaveTo t enc) s Position.Inside := by
  cases enc with
  | nil =>
    obtain rfl : r = Graph.top := h
    rw [(him.renders _ hr).exits_top hg.zoned] at ht
    cases ht
  | cons e rest =>
    obtain ⟨htry, -, hinside, hexits, -⟩ := h.around hg him
    obtain ⟨x, hx, rfl⟩ := List.mem_map.1 ht
    obtain ⟨code, hcode⟩ : ∃ code, e.region.exitCode? x.target = some code := by
      rw [TryRegion.exitCode?, hexits, ← Option.isSome_iff_exists, Option.isSome_map,
        List.find?_isSome]
      exact ⟨x, hx, by simp⟩
    unfold leaveTo
    simp only [hcode]
    exact (Exec.Safe.write htry _).bind fun _ _ _ => .pure hinside

/-- An exception is caught behind a region around, or ends the run. -/
theorem catchIn_safe (x : Exception) :
    ∀ {enc : List Enclosing} {r : Nat} {s : Durable × World σ}, im.Nested r enc →
      Exec.Safe χ (im.graph.running n) (catchIn x enc) s Position.Inside
  | [], _, _, _ => .throw rfl
  | e :: rest, r, s, h => by
    obtain ⟨htry, hexception, hinside, -, q, hrest⟩ := h.around hg him
    unfold catchIn
    split
    · exact (Exec.Safe.write hexception _).bind fun _ _ _ => (Exec.Safe.write htry _).bind fun _ _ _ =>
        .pure hinside
    · exact catchIn_safe x hrest

/-- A jump with a destination. -/
theorem jump_safe (h : im.Poised r p d steps) {t : Target} (ht : im.Reaches r t) :
    Exec.Safe χ (im.graph.running n) (proceed p (.jump t)) s GoesInside := by
  rw [proceed]
  split
  · rename_i pc hpos
    refine .pure fun p' hp' => ?_
    cases hp'
    exact Option.isSome_iff_exists.2 ⟨_, Block.getElem?_of_position? hpos⟩
  · rename_i hpos
    have hexit : t ∈ (im.exits r).map RegionExit.target := by
      refine ht.resolve_left fun hsome => ?_
      rw [← h.block, hpos] at hsome
      cases hsome
    refine (leaveTo_safe hg him h.mem h.nested hexit).bind fun p₁ _ hp₁ => .pure fun p' hp' => ?_
    cases hp'
    exact hp₁

/-- One step of a poised run does not break down, and leads to another instruction. -/
theorem step_safe (henv : env.Tame) (hm : m.program = im.program) (h : im.Poised r p d steps)
    (hi : p.block.instrs[p.pc]? = some i) {w : World σ} (hw : w.Sound)
    (hb : w.Binds d.scopes (im.graph.running n)) :
    Exec.Ensures (m.stepAt env fuel p i) (d, w) fun res s' => s'.1.scopes = d.scopes ∧
      w.Keeps s'.2 ∧ Orderly GoesInside res := by
  have hrenders := him.renders r h.mem
  have hi' : (im.block r).instrs[p.pc]? = some i := by rw [← h.block]; exact hi
  obtain ⟨hlt, hk⟩ := h.nested.region hg
  have hserves : im.Serves n r i := hrenders.serves hg
    (fun s hs => ((hg.mem_regionNodes hlt hk).1 hs).1) (Block.mem_of_getElem? hi')
  have hexec : Exec.Ensures (m.exec env fuel i) (d, w) _ :=
    exec_safe henv hm hserves rfl hw hb
  -- what runs after the instruction goes on from the world that it leaves
  have hthen : ∀ {x : Exec σ (Position ⊕ Flow)} {s' : Durable × World σ},
      s'.1.scopes = d.scopes → w.Keeps s'.2 →
      Exec.Safe d.scopes (im.graph.running n) x s' GoesInside →
      Exec.Ensures x s' fun res s'' => s''.1.scopes = d.scopes ∧ w.Keeps s''.2 ∧
        Orderly GoesInside res := by
    intro x s' hd' hk' hx
    refine (hx hd' hk'.sound (hb.grows hk'.grows)).mono ?_
    rintro res s'' ⟨hd'', hk'', hres⟩
    exact ⟨hd'', hk'.trans hk'', hres⟩
  refine stepAt_ensures env fuel m (fun next s' hrun => ?_) (fun x s' hrun => ?_) fun e s' hrun => ?_
  · obtain ⟨hd', hk', hnext⟩ := hexec _ _ hrun
    have hfollows := exec_follows env fuel m i _ _ _ hrun next rfl
    have hstate := (exec_durable env fuel m i _ _ _ _ hrun).1
    cases hfollows with
    | advance hadv =>
      refine hthen hd' hk' (.pure fun p' hp' => ?_)
      cases hp'
      rw [Position.Inside, h.block]
      exact hrenders.isSome_next hi' (Instr.continues_of_advances hadv)
    | jump | escape => exact hthen hd' hk' (jump_safe hg him h hnext)
    | suspend | complete => exact hthen hd' hk' (.pure nofun)
    | enter region =>
      have hstart : s'.1.state = startState := hstate.trans (h.stored _ hi)
      refine .bind fun res s₁ hres => ?_
      rw [entryPoint_start hstart] at hres
      cases hres
      refine .pure ⟨hd', hk', fun p' hp' => ?_⟩
      cases hp'
      exact h.inside hg him hi _
  · obtain ⟨hd', hk', -⟩ := hexec _ _ hrun
    refine (catchIn_safe hg him x h.nested hd' hk'.sound (hb.grows hk'.grows)).mono ?_
    rintro res s'' ⟨hd'', hk'', hres⟩
    refine ⟨hd'', hk'.trans hk'', ?_⟩
    cases res with
    | error e => exact hres
    | ok p₁ =>
      intro p' hp'
      cases hp'
      exact hres
  · exact hexec _ _ hrun

/-- A poised run does not break down. -/
theorem run_safe (henv : env.Tame) (hm : m.program = im.program) (h : im.Poised r p d steps)
    (hp : p.Inside) {w : World σ} (hw : w.Sound) (hb : w.Binds d.scopes (im.graph.running n)) :
    Exec.Ensures (m.runFrom env fuel steps p) (d, w) fun res s' => s'.1.scopes = d.scopes ∧
      w.Keeps s'.2 ∧ Orderly (fun _ => True) res := by
  induction fuel generalizing r steps p d w with
  | zero =>
    intro res s' hrun
    cases hrun
  | succ fuel ih =>
    obtain ⟨i, hi⟩ := Option.isSome_iff_exists.1 hp
    simp only [runFrom, hi]
    split
    · exact .throw ⟨rfl, .refl hw, rfl⟩
    · refine .bind fun res s' hstep => ?_
      obtain ⟨hon, -⟩ := step_poised hg him env fuel m h hi w _ _ hstep
      obtain ⟨hd', hk, hres⟩ := step_safe hg him henv hm h hi hw hb _ _ hstep
      cases res with
      | error e => exact ⟨hd', hk, hres⟩
      | ok next =>
        cases next with
        | inr flow => exact .pure ⟨hd', hk, trivial⟩
        | inl p' =>
          obtain ⟨q, hq⟩ := hon p' rfl
          rw [← hd'] at hb
          refine (ih hq (hres p' rfl) hk.sound (hb.grows hk.grows)).mono ?_
          rintro res' s'' ⟨hd'', hk', hres'⟩
          exact ⟨hd''.trans hd', hk.trans hk', hres'⟩

/-! ## Resumptions -/

/-- The machines of a program, each with the world around it: a new one in a sound world, one after a
resumption under a tame host, and one after changes from outside, which may do anything but take
scopes and closures away or change where the machine stands. -/
inductive Lives (program : Program) (limit : Option Nat) : CompiledMachine → World σ → Prop
  | new {args : List Value} {w w' : World σ} {m : CompiledMachine} (hw : w.Sound)
      (h : CompiledMachine.new program limit args w = .ok (m, w')) : Lives program limit m w'
  | resume {env : Env σ} {fuel : Nat} {w w' : World σ} {m m' : CompiledMachine}
      {res : Except RunError Status} (hm : Lives program limit m w) (henv : env.Tame)
      (h : m.resume env fuel w = some ((res, m'), w')) : Lives program limit m' w'
  | change {w w' : World σ} {m : CompiledMachine} {d : Durable} (hm : Lives program limit m w)
      (hstate : d.state = m.durable.state) (hscopes : d.scopes = m.durable.scopes)
      (hw : w.Sound → w.Keeps w') : Lives program limit (m.withDurable d) w'

/-- What holds of a machine and the world around it between resumptions. -/
structure Settled (im : Image) (n : Nat) (m : CompiledMachine) (w : World σ) : Prop where
  program : m.program = im.program
  rests : Rests im m
  sound : w.Sound
  binds : w.Binds m.durable.scopes (im.graph.running n)

/-- A resumption does not break down and leaves the machine settled. -/
theorem Settled.resume (henv : env.Tame) {m m' : CompiledMachine} {w w' : World σ}
    (h : Settled im n m w) {res : Except RunError Status}
    (hrun : m.resume env fuel w = some ((res, m'), w')) :
    Settled im n m' w' ∧ Orderly (fun _ => True) res := by
  obtain ⟨hprogram, -, hrests, -⟩ := h.rests.resume hg him h.program hrun
  suffices hrest : m'.durable.scopes = m.durable.scopes ∧ w.Keeps w' ∧
      Orderly (fun _ => True) res by
    obtain ⟨hscopes, hk, hres⟩ := hrest
    exact ⟨⟨hprogram.trans h.program, hrests, hk.sound, hscopes ▸ h.binds.grows hk.grows⟩, hres⟩
  cases hopen : m.isCompleted with
  | true =>
    rw [CompiledMachine.resume, hopen] at hrun
    cases hrun
    exact ⟨rfl, .refl h.sound, rfl⟩
  | false =>
    obtain ⟨q, p, steps, flow, d, w₁, hpoised, hinside, hruns, heq⟩ :=
      h.rests.starts hg him h.program hopen hrun
    obtain ⟨hd, hk, hflow⟩ :=
      run_safe hg him henv h.program hpoised hinside h.sound h.binds _ _ hruns
    rcases flow with e | (_ | _) | v <;> cases heq
    · exact ⟨hd, hk, hflow⟩
    all_goals exact ⟨hd, hk, trivial⟩

end

/-- A new machine has one scope, with all variables of its program. -/
theorem new_eq_ok {program : Program} {args : List Value} {w w' : World σ} {m : CompiledMachine}
    (h : CompiledMachine.new program limit args w = .ok (m, w')) :
    ∃ sc : Scope, m = ⟨program, limit, { scopes := [w.scopes.size] }⟩ ∧ w' = (w.newScope sc).2 ∧
      ∀ x ∈ program.params ++ program.vars, sc.contains x.word = true := by
  unfold CompiledMachine.new at h
  split at h
  · cases h
  · rename_i harity
    have hle : program.params.length ≤ args.length := (not_not.1 harity).ge
    have hkeys : (program.params.zip args).map (fun a => a.1.word) = program.params.map Var.word := by
      change (program.params.zip args).map (Var.word ∘ Prod.fst) = program.params.map Var.word
      rw [← List.map_map, List.map_fst_zip hle]
    cases h
    refine ⟨_, rfl, rfl, fun x hx => ?_⟩
    rw [Scope.contains_foldl (fun a : Var × Value => a.1.word) (fun a => a.2), hkeys,
      Scope.contains_ofVars, Bool.or_eq_true, decide_eq_true_eq, decide_eq_true_eq]
    exact (List.mem_append.1 hx).imp List.mem_map_of_mem List.mem_map_of_mem

/-- A new machine is settled. -/
theorem settled_new {args : List Value} {w w' : World σ} {m : CompiledMachine} (hw : w.Sound)
    (h : CompiledMachine.new im.program limit args w = .ok (m, w')) : Settled im n m w' := by
  obtain ⟨sc, rfl, rfl, hsc⟩ := new_eq_ok h
  refine ⟨rfl, .inl rfl, (hw.newScope sc).sound, ?_⟩
  rintro i ⟨x, hx, rfl⟩
  refine ⟨w.scopes.size, List.mem_singleton.2 rfl, ?_⟩
  obtain ⟨y, hy, hword⟩ := Graph.exists_listed hx
  rw [World.scope_newScope, if_pos rfl, show word x.id = y.word from hword.symm]
  exact hsc y hy

/-- A machine is settled at all times. -/
theorem Lives.settled (hg : im.graph.Regular n) (him : im.Faithful) {w : World σ}
    (h : Lives im.program limit m w) : Settled im n m w := by
  induction h with
  | new hw h => exact settled_new hw h
  | resume hm henv hrun ih => exact (ih.resume hg him henv hrun).1
  | change hm hstate hscopes hw ih =>
    have hk := hw ih.sound
    refine ⟨ih.program, ?_, hk.sound, ?_⟩
    · have hrests := ih.rests
      unfold Rests at hrests ⊢
      rw [← hstate] at hrests
      exact hrests
    · have hb := ih.binds.grows hk.grows
      rw [← hscopes] at hb
      exact hb

end CompiledMachine

/-! ## Compiled lambdas -/

/-- No resumption of a machine of a compiled lambda fails on the machine's own bookkeeping, under any
tame host and in whatever way the machine came to be where it is: no jump lacks a destination, control
does not run past the end of a block, a stored state is found again, every variable is bound, and no
expression suspends or throws again without a handler. -/
theorem CompiledMachine.never_breaks_down {σ : Type} {l : Lambda} {resolve : Expr.Resolver}
    {o : Options} {c : Compiled} (hc : l.compile resolve o = .ok c) {limit : Option Nat}
    {m m' : CompiledMachine} {w w' : World σ} (hm : Lives c.program limit m w) {env : Env σ}
    (henv : env.Tame) {fuel : Nat} {e : RunError}
    (hrun : m.resume env fuel w = some ((.error e, m'), w')) :
    (∀ why, e ≠ .invalidTransition why) ∧ (∀ name, e ≠ .unboundVariable name) ∧
      (∀ why, e ≠ .cannotSuspend why) ∧ ∀ why, e ≠ .build why := by
  obtain ⟨im, n, -, -, hg, him, hprogram⟩ := Lambda.compile_image hc
  rw [hprogram] at hm
  have he : e.isBreakdown = false := ((hm.settled hg him).resume hg him henv hrun).2
  refine ⟨?_, ?_, ?_, ?_⟩
  all_goals
    rintro x rfl
    cases he

/-- The bare host is tame. -/
theorem Env.bare_tame : Env.bare.Tame where
  call _ _ := (Effect.Opaque.raise _).keeps
  getAwaiter _ v _ := (Effect.Opaque.pure v).keeps
  isCompleted _ _ := (Effect.Opaque.pure true).keeps
  getResult _ v := (Effect.Opaque.pure v).keeps

/-- The world with its first task failed. -/
def World.failing (w : World Unit) : World Unit :=
  { w with tasks := #[{ outcome := some (.error ⟨⟨"Error", "failed"⟩, 0⟩) }] }

/-- A machine that waits inside two protected bodies for a task that fails ends with what the task
threw, and with no error of its own. -/
theorem CompiledMachine.guardedWait_never_breaks_down : ∃ c m w m₁ w₁ e m₂ w₂,
    Lambda.guardedWait.compile .tasks {} = .ok c ∧
    CompiledMachine.new c.program none [.task 0] World.pending = .ok (m, w) ∧
    m.resume .bare 64 w = some ((.ok .suspended, m₁), w₁) ∧
    m₁.resume .bare 64 w₁.failing = some ((.error e, m₂), w₂) ∧
    (∀ why, e ≠ .invalidTransition why) ∧ (∀ name, e ≠ .unboundVariable name) ∧
      (∀ why, e ≠ .cannotSuspend why) ∧ ∀ why, e ≠ .build why := by
  have hrun : ((Lambda.guardedWait.compile .tasks {}).toOption.bind fun c =>
      (CompiledMachine.new c.program none [.task 0] World.pending).toOption.bind fun (m, w) =>
        (m.resume Env.bare 64 w).bind fun ((r, m₁), w₁) =>
          (m₁.resume Env.bare 64 w₁.failing).map fun ((r₁, _), _) => (r.toOption, r₁.toOption)) =
      some (some .suspended, none) := by
    cbv
  obtain ⟨c, hc, hrun⟩ := bind_toOption_eq_some hrun
  obtain ⟨⟨m, w⟩, hnew, hrun⟩ := bind_toOption_eq_some hrun
  obtain ⟨⟨⟨r, m₁⟩, w₁⟩, hfirst, hrun⟩ := Option.bind_eq_some_iff.1 hrun
  obtain ⟨⟨⟨r₁, m₂⟩, w₂⟩, hsecond, heq⟩ := Option.map_eq_some_iff.1 hrun
  obtain rfl := eq_ok_of_toOption (Prod.mk.inj heq).1
  obtain ⟨e, rfl⟩ := eq_error_of_toOption (Prod.mk.inj heq).2
  have hlives : Lives c.program none m₁ w₁.failing :=
    .change (d := m₁.durable) (.resume (.new (.of_empty rfl) hnew) Env.bare_tame hfirst) rfl rfl
      fun hw => hw.keeps rfl fun _ _ hi => hi
  exact ⟨c, m, w, m₁, w₁, e, m₂, w₂, hc, hnew, hfirst, hsecond,
    CompiledMachine.never_breaks_down hc hlives Env.bare_tame hsecond⟩

end Coroutine
