import Mathlib
import Coroutine.Machine.Compiled

/-!
# Every part of an instruction

`Exec.Logic` lists what a compiled machine's run is made of, as rules of a judgement of its parts: the
monad, the evaluation of expressions, the access to variables and to the durable state, and the calls
of the host. For every such judgement an instruction leads to where its form lets it
(`Logic.exec`), and so do the jumps, exceptions and regions between blocks.
-/

namespace Coroutine

variable {σ : Type} {enc : List Enclosing}

/-! ## Instructions -/

/-- The state that an instruction stores. -/
def Instr.stored? : Instr → Option Int
  | .setState state => some state
  | _ => none

/-- Whether control may go on to the next instruction. -/
def Instr.advances : Instr → Bool
  | .goto _ | .switch .. | .suspend _ | .yieldBreak | .finish _ | .region _ | .dispatch .. => false
  | _ => true

/-- The variables that an instruction reads or writes itself. -/
def Instr.vars : Instr → List Var
  | .assign x _ => [x]
  | .getAwaiter _ awaiter _ _ | .gotoIfCompleted awaiter _ _ | .register awaiter _ => [awaiter]
  | .getResult awaiter _ target => awaiter :: target.toList
  | .dispatch tryState exception _ _ _ => [tryState, exception]
  | .region r => [r.tryState, r.exception]
  | _ => []

/-- The variables that an instruction assigns itself. -/
def Instr.written : Instr → List Var
  | .assign x _ => [x]
  | .getAwaiter _ awaiter _ _ => [awaiter]
  | .getResult awaiter _ target => awaiter :: target.toList
  | _ => []

/-- What may come after an instruction if its jumps land where they may. -/
inductive Instr.Leads (lands : Target → Prop) : Instr → Next → Prop
  | advance {i : Instr} (h : i.advances = true) : Leads lands i .advance
  | jump {i : Instr} {target : Target} (h : lands target) : Leads lands i (.jump target)
  | suspend (kind : SuspendKind) : Leads lands (.suspend kind) (.stop (.suspend kind))
  | complete {i : Instr} (v : Value) : Leads lands i (.stop (.complete v))
  | enter (r : TryRegion) : Leads lands (.region r) (.enter r)

/-- The target that is chosen is one of the targets. -/
theorem lookup_getD_mem {cases : List (Int × Target)} {code : Int} {fallback : Target} :
    (cases.lookup code).getD fallback ∈ cases.map Prod.snd ++ [fallback] := by
  cases h : cases.lookup code with
  | none => simp
  | some target =>
    obtain ⟨before, after, rfl, -⟩ := List.lookup_eq_some_iff.1 h
    simp

/-- Where control goes on after a jump or an exception that leaves a block: behind a region. -/
def CompiledMachine.LandsIn (enc : List Enclosing) (p : Position) : Prop :=
  ∃ pre e rest, enc = pre ++ e :: rest ∧ p = ⟨e.block, e.pc + 1, rest⟩

/-- What lands behind a region further out does so from inside as well. -/
theorem CompiledMachine.LandsIn.cons {p : Position} (h : LandsIn enc p) (e : Enclosing) :
    LandsIn (e :: enc) p := by
  obtain ⟨pre, e', rest, rfl, hp⟩ := h
  exact ⟨e :: pre, e', rest, rfl, hp⟩

/-- Where control goes on after an instruction that does not end the run. -/
inductive Position.Goes (p : Position) : Next → Position → Prop
  | within {next : Next} (pc : Nat) : Goes p next { p with pc }
  | behind {target : Target} {q : Position} (h : CompiledMachine.LandsIn p.enclosing q) :
      Goes p (.jump target) q
  | inside {r : TryRegion} (pc : Nat) :
      Goes p (.enter r) ⟨r.block, pc, ⟨r, p.block, p.pc⟩ :: p.enclosing⟩

/-! ## Rules -/

/-- How a part of a run changes the durable state. -/
structure Durable.Updates (stores : Int → Prop) (d d' : Durable) : Prop where
  scopes : d'.scopes = d.scopes
  state : d'.state = d.state ∨ stores d'.state

/-- A judgement of parts of runs, with a rule for each thing that they are made of. -/
structure Exec.Logic (env : Env σ) (fuel : Nat) (m : CompiledMachine) where
  /-- A part of a run that begins in a state where a proposition holds leads to a result with a
  property. -/
  Runs : {α : Type} → Prop → Exec σ α → Durable × World σ → (α → Prop) → Prop
  /-- What is known of the machine's chain, -/
  chain : Chain → Prop := fun _ => True
  /-- the expressions that may be evaluated, -/
  expr : CompiledExpr → Prop := fun _ => True
  /-- the labels outside that they may jump to, -/
  escapes : CompiledExpr → Nat → Prop := fun _ _ => True
  /-- where jumps may land, -/
  lands : Target → Prop := fun _ => True
  /-- the variables that may be read -/
  reads : Var → Prop := fun _ => True
  /-- or written, -/
  writes : Var → Prop := fun _ => True
  /-- the states that may be stored, -/
  stores : Int → Prop := fun _ => True
  /-- and the errors that may end a run. -/
  fails : RunError → Prop := fun _ => True
  fails_thrown : ∀ e, fails (.thrown e) := by intros; trivial
  fails_escape : ∀ {e label}, expr e → escapes e label → m.program.labels.lookup label = none →
    fails (.invalidTransition (.jumpWithoutState label)) := by intros; trivial
  lands_escape : ∀ {e label slot}, expr e → escapes e label →
    m.program.labels.lookup label = some slot → lands slot.target := by intros; trivial
  writes_escape : ∀ {e label slot}, expr e → escapes e label →
    m.program.labels.lookup label = some slot → ∀ x ∈ slot.var, writes x := by intros; trivial
  ret : ∀ {α pre s P} {a : α}, (pre → P a) → Runs pre (pure a) s P
  fail : ∀ {α pre s P} {e : RunError}, (pre → fails e) → Runs (α := α) pre (throw e) s P
  bind : ∀ {α β pre s} {P : α → Prop} {Q : β → Prop} {x : Exec σ α} {f : α → Exec σ β},
    Runs pre x s P → (∀ a s', Runs (pre ∧ P a) (f a) s' Q) → Runs pre (x >>= f) s Q
  evaluate : ∀ {pre s} {e : CompiledExpr} {χ : Chain}, (pre → expr e) → (pre → chain χ) →
    Runs pre (fun (d, w) => (evaluate env m.limit fuel e.code χ w).map fun (r, w) => (r, (d, w))) s fun
      | .value _ => True
      | .escape label _ => escapes e label
  read : ∀ {pre s} {x : Var}, reads x → Runs pre (CompiledMachine.read x) s fun _ => True
  write : ∀ {pre s} {x : Var} {v : Value}, (pre → writes x) →
    Runs pre (CompiledMachine.write x v) s fun _ => True
  durably : ∀ {pre s}, Runs pre CompiledMachine.durably s fun d => chain d.scopes
  update : ∀ {pre s} {f : Durable → Durable}, s.1.Updates stores (f s.1) →
    Runs pre (CompiledMachine.modifyDurable f) s fun _ => True
  asException : ∀ {pre s} (v : Value),
    Runs pre (CompiledMachine.perform (Effect.act fun w => w.asException v)) s fun _ => True
  getAwaiter : ∀ {pre s} (b : Binder) (v : Value) (configure : Bool),
    Runs pre (CompiledMachine.perform ((env.protocol b).getAwaiter v configure)) s fun _ => True
  isCompleted : ∀ {pre s} (b : Binder) (v : Value),
    Runs pre (CompiledMachine.perform ((env.protocol b).isCompleted v)) s fun _ => True
  getResult : ∀ {pre s} (b : Binder) (v : Value),
    Runs pre (CompiledMachine.perform ((env.protocol b).getResult v)) s fun _ => True

namespace Exec.Logic

variable {env : Env σ} {fuel : Nat} {m : CompiledMachine} (L : Exec.Logic env fuel m) {pre : Prop}
  {s : Durable × World σ}

/-- A result may be described in a weaker way. -/
theorem mono {α : Type} {x : Exec σ α} {P Q : α → Prop} (h : L.Runs pre x s P)
    (hPQ : ∀ a, P a → Q a) : L.Runs pre x s Q := by
  rw [← bind_pure x]
  exact L.bind h fun a s' => L.ret fun h => hPQ a h.2

/-! ## Instructions -/

/-- A jump that leaves an expression delivers its value to the variable of its label. -/
theorem eval {e : CompiledExpr} (he : pre → L.expr e) : L.Runs pre (m.eval env fuel e) s fun
    | .value _ => True
    | .jump target => L.lands target := by
  refine L.bind L.durably fun d s₁ =>
    L.bind (L.evaluate (fun h => he h.1) fun h => h.2) fun r s₂ => ?_
  cases r with
  | value v => exact L.ret fun _ => trivial
  | escape label v =>
    cases hslot : m.program.labels.lookup label with
    | none =>
      simp only [hslot]
      exact L.fail fun h => L.fails_escape (he h.1.1) h.2 hslot
    | some slot =>
      cases hvar : slot.var with
      | none =>
        simp only [hslot, hvar]
        exact L.ret fun h => L.lands_escape (he h.1.1) h.2 hslot
      | some x =>
        simp only [hslot, hvar]
        exact L.bind (L.write fun h => L.writes_escape (he h.1.1) h.2 hslot x hvar) fun _ _ =>
          L.ret fun h => L.lands_escape (he h.1.1.1) h.1.2 hslot

/-- What follows an evaluation, unless it jumps away. -/
theorem evalThen {e : CompiledExpr} {next : Value → Exec σ Next} {P : Next → Prop}
    (he : pre → L.expr e) (hjump : ∀ target, L.lands target → P (.jump target))
    (hnext : ∀ v s', L.Runs (pre ∧ True) (next v) s' P) :
    L.Runs pre (m.evalThen env fuel e next) s P := by
  refine L.bind (L.eval he) fun r s' => ?_
  cases r with
  | value v => exact hnext v s'
  | jump target => exact L.ret fun h => hjump target h.2

/-- Tests are tried in turn: by induction on the tests. -/
theorem tryTests (v : Value) {target : Target} (htarget : L.lands target) {es : List CompiledExpr}
    (hes : pre → ∀ e ∈ es, L.expr e) :
    L.Runs pre (m.tryTests env fuel v target es) s fun r => ∀ t ∈ r, L.lands t := by
  induction es generalizing pre s with
  | nil => exact L.ret fun _ => nofun
  | cons e es ih =>
    refine L.bind (L.eval fun hpre => hes hpre e List.mem_cons_self) fun r s' => ?_
    cases r with
    | jump target' =>
      refine L.ret fun h t ht => ?_
      cases ht
      exact h.2
    | value candidate =>
      simp only
      split
      · refine L.ret fun _ t ht => ?_
        cases ht
        exact htarget
      · exact ih fun h e he => hes h.1 e (List.mem_cons_of_mem _ he)

/-- Arms are tried in turn: by induction on the arms. -/
theorem selectArm (v : Value) {arms : List (List CompiledExpr × Target)}
    (hexprs : pre → ∀ e ∈ arms.flatMap Prod.fst, L.expr e)
    (htargets : ∀ t ∈ arms.map Prod.snd, L.lands t) :
    L.Runs pre (m.selectArm env fuel v arms) s fun r => ∀ t ∈ r, L.lands t := by
  induction arms generalizing pre s with
  | nil => exact L.ret fun _ => nofun
  | cons arm arms ih =>
    rw [List.flatMap_cons] at hexprs
    obtain ⟨htarget, htargets⟩ := List.forall_mem_cons.1 htargets
    refine L.bind (L.tryTests v htarget fun hpre e he =>
      hexprs hpre e (List.mem_append_left _ he)) fun r s' => ?_
    cases r with
    | some target => exact L.ret fun h => h.2
    | none => exact ih (fun h e he => hexprs h.1 e (List.mem_append_right _ he)) htargets

/-- An instruction leads to where its form lets it. -/
theorem exec {i : Instr} (hexprs : pre → ∀ e ∈ i.exprs, L.expr e) (hreads : ∀ x ∈ i.vars, L.reads x)
    (hwrites : ∀ x ∈ i.written, L.writes x) (hstores : ∀ c ∈ i.stored?, L.stores c)
    (htargets : ∀ t ∈ i.targets, L.lands t) :
    L.Runs pre (m.exec env fuel i) s (i.Leads L.lands) := by
  have hadvance (h : i.advances = true) {pre : Prop} {s : Durable × World σ} :
      L.Runs pre (pure .advance) s (i.Leads L.lands) := L.ret fun _ => .advance h
  have heval {e : CompiledExpr} (he : e ∈ i.exprs) {next : Value → Exec σ Next}
      (hnext : ∀ v s', L.Runs (pre ∧ True) (next v) s' (i.Leads L.lands)) :
      L.Runs pre (m.evalThen env fuel e next) s (i.Leads L.lands) :=
    L.evalThen (fun hpre => hexprs hpre e he) (fun _ => .jump) hnext
  cases i with
  | label target => exact hadvance rfl
  | eval e => exact heval List.mem_cons_self fun _ _ => hadvance rfl
  | assign x e =>
    exact heval List.mem_cons_self fun v s' =>
      L.bind (L.write fun _ => hwrites x List.mem_cons_self) fun _ _ => hadvance rfl
  | goto target => exact L.ret fun _ => .jump (htargets target List.mem_cons_self)
  | gotoIf test target =>
    refine heval List.mem_cons_self fun v s' => L.ret fun _ => ?_
    split
    · exact .jump (htargets target List.mem_cons_self)
    · exact .advance rfl
  | switch e arms fallback =>
    refine heval List.mem_cons_self fun v s' => L.bind (L.selectArm v
      (fun h e' he' => hexprs h.1 e' (List.mem_cons_of_mem _ he'))
      fun t ht => htargets t (List.mem_append_left _ ht)) fun r s'' => L.ret fun h => .jump ?_
    cases r with
    | none => exact htargets _ (List.mem_append_right _ List.mem_cons_self)
    | some target => exact h.2 target rfl
  | setState state =>
    exact L.bind (L.update ⟨rfl, .inr (hstores state rfl)⟩) fun _ _ => hadvance rfl
  | getAwaiter e awaiter binder configure =>
    exact heval List.mem_cons_self fun v s' =>
      L.bind (L.getAwaiter binder v configure) fun a s'' =>
        L.bind (L.write fun _ => hwrites awaiter List.mem_cons_self) fun _ _ => hadvance rfl
  | gotoIfCompleted awaiter binder target =>
    refine L.bind (L.read (hreads awaiter List.mem_cons_self)) fun v s' =>
      L.bind (L.isCompleted binder v) fun completed s'' => ?_
    split
    · exact L.ret fun _ => .jump (htargets target List.mem_cons_self)
    · exact hadvance rfl
  | register awaiter binder =>
    exact L.bind (L.read (hreads awaiter List.mem_cons_self)) fun v s' =>
      L.bind (L.update ⟨rfl, .inl rfl⟩) fun _ _ => hadvance rfl
  | suspend kind => exact L.ret fun _ => .suspend kind
  | getResult awaiter binder target =>
    refine L.bind (L.read (hreads awaiter List.mem_cons_self)) fun v s₁ =>
      L.bind (L.getResult binder v) fun result s₂ =>
        L.bind (L.write fun _ => hwrites awaiter List.mem_cons_self) fun _ s₃ => ?_
    cases target with
    | none => exact hadvance rfl
    | some x =>
      have hx := hwrites x (List.mem_cons_of_mem _ List.mem_cons_self)
      exact L.bind (L.write fun _ => hx) fun _ _ => hadvance rfl
  | setCurrent e =>
    exact heval List.mem_cons_self fun v s' =>
      L.bind (L.update ⟨rfl, .inl rfl⟩) fun _ _ => hadvance rfl
  | yieldBreak =>
    exact L.bind (L.update ⟨rfl, .inl rfl⟩) fun _ _ => L.ret fun _ => .complete _
  | finish value =>
    cases value with
    | none => exact L.ret fun _ => .complete _
    | some e => exact heval List.mem_cons_self fun v s' => L.ret fun _ => .complete v
  | region r => exact L.ret fun _ => .enter r
  | dispatch tryState exception cases rethrows fallback =>
    refine L.bind (L.read (hreads tryState List.mem_cons_self)) fun v s₁ => ?_
    simp only
    split
    · have hstored := hreads exception (List.mem_cons_of_mem _ List.mem_cons_self)
      exact L.bind (L.read hstored) fun stored s₂ => L.bind (L.asException stored) fun e s₃ =>
        L.fail fun _ => L.fails_thrown e
    · exact L.ret fun _ => .jump (htargets _ lookup_getD_mem)

/-! ## Blocks -/

/-- A block is entered at its start or where the durable state says. -/
theorem entryPoint (b : Block) (hstart : L.stores startState)
    (hfails : ∀ e, L.fails (.invalidTransition e)) :
    L.Runs pre (CompiledMachine.entryPoint b) s fun _ => True := by
  refine L.bind L.durably fun d s₁ => ?_
  simp only
  split
  · exact L.ret fun _ => trivial
  · split
    · exact L.fail fun _ => hfails _
    · split
      · refine L.bind (L.update ⟨rfl, .inr hstart⟩) fun _ _ => ?_
        split
        · exact L.ret fun _ => trivial
        · exact L.fail fun _ => hfails _
      · split
        · exact L.ret fun _ => trivial
        · exact L.fail fun _ => hfails _

/-- A jump out of a block is recorded in the region that takes it. -/
theorem leaveTo (target : Target) (hwrites : ∀ e ∈ enc, L.writes e.region.tryState)
    (hfails : ∀ e, L.fails (.invalidTransition e)) :
    L.Runs pre (CompiledMachine.leaveTo target enc) s (CompiledMachine.LandsIn enc) := by
  induction enc with
  | nil => exact L.fail fun _ => hfails _
  | cons e rest ih =>
    obtain ⟨he, hrest⟩ := List.forall_mem_cons.1 hwrites
    unfold CompiledMachine.leaveTo
    split
    · exact L.bind (L.write fun _ => he) fun _ _ => L.ret fun _ => ⟨[], e, rest, rfl, rfl⟩
    · exact L.mono (ih hrest) fun _ h => h.cons e

/-- An exception is recorded in the region that catches it. -/
theorem catchIn (x : Exception)
    (hwrites : ∀ e ∈ enc, L.writes e.region.tryState ∧ L.writes e.region.exception) :
    L.Runs pre (CompiledMachine.catchIn x enc) s (CompiledMachine.LandsIn enc) := by
  induction enc with
  | nil => exact L.fail fun _ => L.fails_thrown x
  | cons e rest ih =>
    obtain ⟨he, hrest⟩ := List.forall_mem_cons.1 hwrites
    unfold CompiledMachine.catchIn
    split
    · exact L.bind (L.write fun _ => he.2) fun _ _ => L.bind (L.write fun _ => he.1) fun _ _ =>
        L.ret fun _ => ⟨[], e, rest, rfl, rfl⟩
    · exact L.mono (ih hrest) fun _ h => h.cons e

/-- What comes after an instruction. -/
theorem proceed {p : Position} (next : Next) (hwrites : ∀ e ∈ p.enclosing, L.writes e.region.tryState)
    (hstart : L.stores startState) (hfails : ∀ e, L.fails (.invalidTransition e)) :
    L.Runs pre (CompiledMachine.proceed p next) s fun r => ∀ q, r = .inl q → p.Goes next q := by
  cases next with
  | advance => exact L.ret fun _ q hq => by cases hq; exact .within _
  | stop f => exact L.ret fun _ => nofun
  | jump target =>
    rw [CompiledMachine.proceed]
    split
    · exact L.ret fun _ q hq => by cases hq; exact .within _
    · exact L.bind (L.leaveTo target hwrites hfails) fun q' s' => L.ret fun h q hq => by
        cases hq
        exact .behind h.2
  | enter r =>
    exact L.bind (L.entryPoint r.block hstart hfails) fun pc s' => L.ret fun _ q hq => by
      cases hq
      exact .inside pc

end Exec.Logic

end Coroutine
