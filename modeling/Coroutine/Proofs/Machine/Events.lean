import Mathlib
import Coroutine.Machine.Basic
import Coroutine.Proofs.Machine.Exec
import Coroutine.Proofs.Interpreter.Walk

/-!
# What happens in a resumption

The events of a resumption: the instructions that a compiled machine runs, the steps that the
interpreter takes, and the calls of host functions and await protocols, each with the world in which
it happens. A `Traced` part of a run comes with its events; the traced form of every definition of a
compiled machine runs as that definition does (`execT_run`, `runFromT_run`, …).
-/

namespace Coroutine

variable {σ α β : Type}

/-! ## Events -/

/-- What a run asks of its host. -/
inductive Call where
  | function (name : String) (args : List Value)
  | getAwaiter (b : Binder) (awaitable : Value) (configure : Bool)
  | isCompleted (b : Binder) (awaiter : Value)
  | getResult (b : Binder) (awaiter : Value)
deriving DecidableEq, Repr

/-- Something that happens in a run. -/
inductive Event (σ : Type) where
  /-- The instruction at a position is run. -/
  | instr (p : Position) (d : Durable) (w : World σ)
  /-- The interpreter takes a step. -/
  | step (c : Context) (w : World σ)
  /-- The host is called. -/
  | call (q : Call) (w : World σ)

/-- The world in which something happens. -/
def Event.world : Event σ → World σ
  | .instr _ _ w | .step _ w | .call _ w => w

/-! ## The interpreter -/

/-- The calls that check an awaitable. -/
def awaitCalls (env : Env σ) (b : Binder) (configure : Bool) (v : Value) (w : World σ) :
    List (Event σ) :=
  .call (.getAwaiter b v configure) w ::
    match (env.protocol b).getAwaiter v configure w with
    | (.error _, _) => []
    | (.ok awaiter, w) =>
      .call (.isCompleted b awaiter) w ::
        match (env.protocol b).isCompleted awaiter w with
        | (.ok true, w) => [.call (.getResult b awaiter) w]
        | _ => []

/-- The calls by which the top frame advances. -/
def Frame.calls (env : Env σ) (f : Frame) (c : Context) (w : World σ) : List (Event σ) :=
  match f.phase, f.op with
  | .operands next, .call name =>
    match f.children[next]? with
    | some _ => []
    | none => [.call (.function name (c.resultsAbove f.base)) w]
  | .awaitableDone, .await b configure => awaitCalls env b configure c.result w
  | .awaiting awaiter, .await b _ => [.call (.getResult b awaiter) w]
  | _, _ => []

/-- The calls of a step. -/
def Context.calls (env : Env σ) (c : Context) (w : World σ) : List (Event σ) :=
  match c.control, c.frames with
  | none, f :: _ => f.calls env c w
  | _, _ => []

/-- The events of an iteration of `step`. -/
def iterateEvents (env : Env σ) (mode : LambdaKind) (limit : Option Nat) :
    Nat → Nat → Context → World σ → List (Event σ)
  | 0, _, _, _ => []
  | fuel + 1, steps, c, w =>
    if limitReached limit steps then []
    else
      .step c w :: (c.calls env w ++
        match step env mode c w with
        | (.ok (.running c), w) => iterateEvents env mode limit fuel (steps + 1) c w
        | _ => [])

/-- The events of a run of code from its root. -/
def startEvents (env : Env σ) (mode : LambdaKind) (limit : Option Nat) (fuel : Nat) (code : Code)
    (c : Context) (w : World σ) : List (Event σ) :=
  match enter mode code Code.root c w with
  | (.ok c, w) => iterateEvents env mode limit fuel 0 c w
  | _ => []

/-! ## Parts of a run with their events -/

/-- Whether the end of a run is not that it failed at a step limit. -/
def OffLimit : Except RunError α → Prop
  | .ok _ => True
  | .error e => e.isLimit = false

/-- A part of a run that ends wherever it starts, and not at a step limit. -/
def Exec.Prompt (x : Exec σ α) : Prop := ∀ s, ∃ r s', x s = some (r, s') ∧ OffLimit r

namespace Exec.Prompt

open CompiledMachine

/-- A value is there at once. -/
theorem pure (a : α) : (pure a : Exec σ α).Prompt := fun s => ⟨.ok a, s, rfl, trivial⟩

/-- An error other than a limit's ends the run without a trace. -/
theorem throw {e : RunError} (he : e.isLimit = false) : (throw e : Exec σ α).Prompt :=
  fun s => ⟨.error e, s, rfl, he⟩

/-- Prompt parts one after the other are prompt. -/
theorem bind {x : Exec σ α} {f : α → Exec σ β} (hx : x.Prompt) (hf : ∀ a, (f a).Prompt) :
    (x >>= f).Prompt := by
  intro s
  rw [Exec.bind_eq]
  obtain ⟨r, s', hr, hoff⟩ := hx s
  rw [hr]
  cases r with
  | error e => exact ⟨.error e, s', rfl, hoff⟩
  | ok a => exact hf a s'

/-- What is done to the result asks nothing of the run. -/
theorem map {x : Exec σ α} (hx : x.Prompt) (f : α → β) : (f <$> x).Prompt := by
  rw [map_eq_pure_bind]
  exact hx.bind fun a => pure (f a)

/-- Looking at the durable state evaluates nothing. -/
theorem durably : (durably : Exec σ Durable).Prompt := fun s => ⟨.ok s.1, s, rfl, trivial⟩

/-- Changing the durable state evaluates nothing. -/
theorem modifyDurable (f : Durable → Durable) : (modifyDurable f : Exec σ Unit).Prompt :=
  fun s => ⟨.ok (), (f s.1, s.2), rfl, trivial⟩

/-- A call of the host evaluates no expression: its errors are thrown. -/
theorem perform (e : Effect σ α) : (perform e : Exec σ α).Prompt := by
  rintro ⟨d, w⟩
  unfold CompiledMachine.perform
  dsimp only
  rcases e w with ⟨_ | a, w'⟩
  · exact ⟨_, _, rfl, rfl⟩
  · exact ⟨_, _, rfl, trivial⟩

/-- Writing a variable fails for an unbound variable only. -/
theorem write (x : Var) (v : Value) : (write x v : Exec σ Unit).Prompt := by
  rintro ⟨d, w⟩
  unfold CompiledMachine.write
  dsimp only
  rcases w.assign d.scopes x.word v with ⟨_ | _, w'⟩
  · exact ⟨_, _, rfl, rfl⟩
  · exact ⟨_, _, rfl, trivial⟩

/-- Reading a variable fails for an unbound variable only. -/
theorem read (x : Var) : (read x : Exec σ Value).Prompt := by
  refine bind (fun s => ⟨.ok s, s, rfl, trivial⟩) fun s => ?_
  split
  split
  · exact pure _
  · exact throw rfl

/-- A value may be written to a variable or dropped. -/
theorem writeOptional (x : Option Var) (v : Value) {y : Exec σ α} (hy : y.Prompt) :
    (do
      match x with
      | some x => CompiledMachine.write x v
      | none => Pure.pure ()
      y : Exec σ α).Prompt := by
  cases x with
  | some x => exact bind (write x v) fun _ => hy
  | none => exact hy

end Exec.Prompt

/-- A part of a compiled machine's run, with the events it causes. -/
structure Traced (σ α : Type) where
  run : Exec σ α
  events : Durable × World σ → List (Event σ)

namespace Traced

/-- The events after a part of a run that gives a result. -/
def after (r : Option (Except RunError α × (Durable × World σ)))
    (f : α → Durable × World σ → List (Event σ)) : List (Event σ) :=
  match r with
  | some (.ok a, s) => f a s
  | _ => []

/-- One part after the other. -/
def bind (x : Traced σ α) (f : α → Traced σ β) : Traced σ β where
  run := x.run >>= fun a => (f a).run
  events s := x.events s ++ after (x.run s) fun a s => (f a).events s

/-- A part without events. -/
def quiet (x : Exec σ α) : Traced σ α := ⟨x, fun _ => []⟩

/-- A call whose effect is performed; what it throws ends the run. -/
def call (q : Call) (e : Effect σ α) : Traced σ α where
  run := CompiledMachine.perform e
  events s := [.call q s.2]

/-- A relation between parts of two runs that holds of whole runs if it holds of their parts. -/
structure Congruence (R : ∀ α : Type, Traced σ α → Traced σ α → Prop) : Prop where
  quiet : ∀ {α : Type} (x : Exec σ α), x.Prompt → R α (.quiet x) (.quiet x)
  bind : ∀ {α β : Type} {x y : Traced σ α} {f g : α → Traced σ β}, R α x y →
    (∀ a, R β (f a) (g a)) → R β (x.bind f) (y.bind g)

end Traced

/-! ### Compiled machines -/

namespace CompiledMachine

section

variable (env : Env σ) (fuel : Nat) (m : CompiledMachine)

/-- Evaluates code over a chain. -/
def evaluateT (e : CompiledExpr) (χ : Chain) : Traced σ Evaluation where
  run := fun (d, w) => (evaluate env m.limit fuel e.code χ w).map fun (r, w) => (r, (d, w))
  events s := startEvents env .sync m.limit fuel e.code { scopes := χ } s.2

/-- Delivers what an evaluation comes to. -/
def deliver : Evaluation → Exec σ Evaluated
  | .value v => return .value v
  | .escape label v =>
    match m.program.labels.lookup label with
    | none => throw (.invalidTransition (.jumpWithoutState label))
    | some slot => do
      match slot.var with
      | some x => write x v
      | none => pure ()
      return .jump slot.target

/-- The traced form of `eval`. -/
def evalT (e : CompiledExpr) : Traced σ Evaluated :=
  (Traced.quiet durably).bind fun d =>
    (m.evaluateT env fuel e d.scopes).bind fun r => .quiet (m.deliver r)

/-- The traced form of `evalThen`. -/
def evalThenT (e : CompiledExpr) (next : Value → Traced σ Next) : Traced σ Next :=
  (m.evalT env fuel e).bind fun
    | .value v => next v
    | .jump target => .quiet (pure (.jump target))

/-- The traced form of `tryTests`. -/
def tryTestsT (v : Value) (target : Target) : List CompiledExpr → Traced σ (Option Target)
  | [] => .quiet (pure none)
  | e :: es => (m.evalT env fuel e).bind fun
    | .jump target => .quiet (pure (some target))
    | .value candidate =>
      if candidate.same v then .quiet (pure (some target)) else tryTestsT v target es

/-- The traced form of `selectArm`. -/
def selectArmT (v : Value) : List (List CompiledExpr × Target) → Traced σ (Option Target)
  | [] => .quiet (pure none)
  | (tests, target) :: arms => (m.tryTestsT env fuel v target tests).bind fun
    | some target => .quiet (pure (some target))
    | none => selectArmT v arms

/-- The traced form of `exec`. -/
def execT : Instr → Traced σ Next
  | .eval e => m.evalThenT env fuel e fun _ => .quiet (pure .advance)
  | .assign x e => m.evalThenT env fuel e fun v => .quiet do
    write x v
    return .advance
  | .gotoIf test target => m.evalThenT env fuel test fun v =>
    .quiet (pure (if v.truthy then .jump target else .advance))
  | .switch e arms fallback => m.evalThenT env fuel e fun v =>
    (m.selectArmT env fuel v arms).bind fun target =>
      .quiet (pure (.jump (target.getD fallback)))
  | .getAwaiter e awaiter binder configure => m.evalThenT env fuel e fun v =>
    (Traced.call (.getAwaiter binder v configure)
      ((env.protocol binder).getAwaiter v configure)).bind fun a => .quiet do
        write awaiter a
        return .advance
  | .gotoIfCompleted awaiter binder target => (Traced.quiet (read awaiter)).bind fun v =>
    (Traced.call (.isCompleted binder v) ((env.protocol binder).isCompleted v)).bind fun done =>
      .quiet (if done then pure (.jump target) else pure .advance)
  | .getResult awaiter binder target => (Traced.quiet (read awaiter)).bind fun v =>
    (Traced.call (.getResult binder v) ((env.protocol binder).getResult v)).bind fun result =>
      .quiet do
        write awaiter .unit
        match target with
        | some x => write x result
        | none => pure ()
        return .advance
  | .setCurrent e => m.evalThenT env fuel e fun v => .quiet do
    modifyDurable fun d => { d with current := v, success := true }
    return .advance
  | .finish (some e) => m.evalThenT env fuel e fun v => .quiet (pure (.stop (.complete v)))
  | i => .quiet (m.exec env fuel i)

/-- The traced form of `stepAt`. -/
def stepAtT (p : Position) (i : Instr) : Traced σ (Position ⊕ Flow) where
  run := m.stepAt env fuel p i
  events s := .instr p s.1 s.2 :: (m.execT env fuel i).events s

/-- The traced form of `runFrom`. -/
def runFromT (env : Env σ) (m : CompiledMachine) : Nat → Nat → Position → Traced σ Flow
  | 0, _, _ => .quiet fun _ => none
  | fuel + 1, steps, p =>
    match p.block.instrs[p.pc]? with
    | none => .quiet (throw (.invalidTransition .ranPastEnd))
    | some i =>
      if limitReached m.limit steps then .quiet (throw (limitError m.limit))
      else (m.stepAtT env fuel p i).bind fun
        | .inl p => runFromT env m fuel (steps + 1) p
        | .inr f => .quiet (pure f)

/-- The traced form of `runEntry`. -/
def runEntryT : Traced σ Flow :=
  (Traced.quiet (entryPoint m.program.entry)).bind fun pc =>
    m.runFromT env fuel 0 ⟨m.program.entry, pc, []⟩

/-- Without its trace, a traced evaluation is the evaluation. -/
theorem evalT_run (e : CompiledExpr) : (m.evalT env fuel e).run = m.eval env fuel e := by
  unfold evalT eval
  refine bind_congr fun d => bind_congr fun r => ?_
  cases r with
  | value v => rfl
  | escape label v =>
    change m.deliver (.escape label v) = _
    unfold deliver
    cases m.program.labels.lookup label with
    | none => rfl
    | some slot => cases hvar : slot.var <;> rfl

/-- Without its trace, what follows an evaluation is what follows it. -/
theorem evalThenT_run (e : CompiledExpr) {next : Value → Exec σ Next}
    {next' : Value → Traced σ Next} (h : ∀ v, (next' v).run = next v) :
    (m.evalThenT env fuel e next').run = m.evalThen env fuel e next := by
  change ((m.evalT env fuel e).run >>= _) = _
  rw [evalT_run]
  refine bind_congr fun r => ?_
  cases r with
  | value v => exact h v
  | jump target => rfl

/-- Without their trace, the tests of an arm are its tests. -/
theorem tryTestsT_run (v : Value) (target : Target) (es : List CompiledExpr) :
    (m.tryTestsT env fuel v target es).run = m.tryTests env fuel v target es := by
  induction es with
  | nil => rfl
  | cons e es ih =>
    change ((m.evalT env fuel e).run >>= _) = _
    rw [evalT_run, tryTests]
    refine bind_congr fun r => ?_
    cases r with
    | jump target => rfl
    | value candidate =>
      dsimp only
      split
      · rfl
      · exact ih

/-- Without its trace, the choice of an arm is the choice. -/
theorem selectArmT_run (v : Value) (arms : List (List CompiledExpr × Target)) :
    (m.selectArmT env fuel v arms).run = m.selectArm env fuel v arms := by
  induction arms with
  | nil => rfl
  | cons arm arms ih =>
    change ((m.tryTestsT env fuel v arm.2 arm.1).run >>= _) = _
    rw [tryTestsT_run, selectArm]
    refine bind_congr fun r => ?_
    cases r with
    | some target => rfl
    | none => exact ih

/-- Without its trace, an instruction does what it does. -/
theorem execT_run (i : Instr) : (m.execT env fuel i).run = m.exec env fuel i := by
  cases i with
  | eval e => exact evalThenT_run env fuel m e fun _ => rfl
  | assign x e => exact evalThenT_run env fuel m e fun _ => rfl
  | gotoIf test target => exact evalThenT_run env fuel m test fun _ => rfl
  | switch e arms fallback =>
    refine evalThenT_run env fuel m e fun v => ?_
    change ((m.selectArmT env fuel v arms).run >>= _) = _
    rw [selectArmT_run]
    rfl
  | getAwaiter e awaiter binder configure => exact evalThenT_run env fuel m e fun _ => rfl
  | gotoIfCompleted awaiter binder target => rfl
  | getResult awaiter binder target => cases target <;> rfl
  | setCurrent e => exact evalThenT_run env fuel m e fun _ => rfl
  | finish value =>
    cases value with
    | none => rfl
    | some e => exact evalThenT_run env fuel m e fun _ => rfl
  | _ => rfl

/-- Without its trace, a run is the run: by induction on the steps that are left. -/
theorem runFromT_run (steps : Nat) (p : Position) :
    (m.runFromT env fuel steps p).run = m.runFrom env fuel steps p := by
  induction fuel generalizing steps p with
  | zero => rfl
  | succ fuel ih =>
    rw [runFromT, runFrom]
    cases p.block.instrs[p.pc]? with
    | none => rfl
    | some i =>
      dsimp only
      split
      · rfl
      · refine bind_congr fun next => ?_
        cases next with
        | inl p' => exact ih (steps + 1) p'
        | inr f => rfl

/-- Without its trace, a resumption is the resumption. -/
theorem runEntryT_run : (m.runEntryT env fuel).run = m.runEntry env fuel :=
  bind_congr fun _ => runFromT_run env fuel m 0 _

/-- A jump out of an expression is delivered without a further evaluation. -/
theorem deliver_prompt (r : Evaluation) : (m.deliver r : Exec σ Evaluated).Prompt := by
  cases r with
  | value v => exact .pure _
  | escape label v =>
    unfold deliver
    dsimp only
    split
    · exact .throw rfl
    · exact .writeOptional _ _ (.pure _)

end

/-! ### Two runs -/

section

variable {R : ∀ α : Type, Traced σ α → Traced σ α → Prop} (hR : Traced.Congruence R)
  {env env' : Env σ} {fuel fuel' : Nat} {m m' : CompiledMachine}
include hR

/-- Evaluations are related where the runs of the expressions are. -/
theorem evalT_congr (hlabels : m'.program = m.program)
    (heval : ∀ e χ, R _ (m.evaluateT env fuel e χ) (m'.evaluateT env' fuel' e χ)) (e : CompiledExpr) :
    R _ (m.evalT env fuel e) (m'.evalT env' fuel' e) := by
  refine hR.bind (hR.quiet _ .durably) fun d => hR.bind (heval e d.scopes) fun r => ?_
  have hdeliver : (m'.deliver r : Exec σ Evaluated) = m.deliver r := by
    unfold deliver
    rw [hlabels]
  rw [hdeliver]
  exact hR.quiet _ (m.deliver_prompt r)

variable (heval : ∀ e, R _ (m.evalT env fuel e) (m'.evalT env' fuel' e))
include heval

/-- What follows an evaluation is related where each continuation is. -/
theorem evalThenT_congr (e : CompiledExpr) {next next' : Value → Traced σ Next}
    (h : ∀ v, R _ (next v) (next' v)) :
    R _ (m.evalThenT env fuel e next) (m'.evalThenT env' fuel' e next') := by
  refine hR.bind (heval e) fun r => ?_
  cases r with
  | value v => exact h v
  | jump target => exact hR.quiet _ (.pure _)

/-- The tests of an arm are related, test by test. -/
theorem tryTestsT_congr (v : Value) (target : Target) (es : List CompiledExpr) :
    R _ (m.tryTestsT env fuel v target es) (m'.tryTestsT env' fuel' v target es) := by
  induction es with
  | nil => exact hR.quiet _ (.pure _)
  | cons e es ih =>
    refine hR.bind (heval e) fun r => ?_
    cases r with
    | jump target => exact hR.quiet _ (.pure _)
    | value candidate =>
      dsimp only
      split
      · exact hR.quiet _ (.pure _)
      · exact ih

/-- The choice of an arm is related, arm by arm. -/
theorem selectArmT_congr (v : Value) (arms : List (List CompiledExpr × Target)) :
    R _ (m.selectArmT env fuel v arms) (m'.selectArmT env' fuel' v arms) := by
  induction arms with
  | nil => exact hR.quiet _ (.pure _)
  | cons arm arms ih =>
    refine hR.bind (tryTestsT_congr hR heval v arm.2 arm.1) fun r => ?_
    cases r with
    | some target => exact hR.quiet _ (.pure _)
    | none => exact ih

/-- An instruction is made of evaluations, calls and parts that ask nothing. -/
theorem execT_congr
    (hget : ∀ b v configure, R _
      (.call (.getAwaiter b v configure) ((env.protocol b).getAwaiter v configure))
      (.call (.getAwaiter b v configure) ((env'.protocol b).getAwaiter v configure)))
    (hdone : ∀ b v, R _ (.call (.isCompleted b v) ((env.protocol b).isCompleted v))
      (.call (.isCompleted b v) ((env'.protocol b).isCompleted v)))
    (hresult : ∀ b v, R _ (.call (.getResult b v) ((env.protocol b).getResult v))
      (.call (.getResult b v) ((env'.protocol b).getResult v))) (i : Instr) :
    R _ (m.execT env fuel i) (m'.execT env' fuel' i) := by
  cases i with
  | label target => exact hR.quiet _ (.pure _)
  | eval e => exact evalThenT_congr hR heval e fun _ => hR.quiet _ (.pure _)
  | assign x e =>
    exact evalThenT_congr hR heval e fun v => hR.quiet _ ((Exec.Prompt.write x v).bind fun _ => .pure _)
  | goto target => exact hR.quiet _ (.pure _)
  | gotoIf test target => exact evalThenT_congr hR heval test fun _ => hR.quiet _ (.pure _)
  | switch e arms fallback =>
    exact evalThenT_congr hR heval e fun v =>
      hR.bind (selectArmT_congr hR heval v arms) fun _ => hR.quiet _ (.pure _)
  | setState state => exact hR.quiet _ ((Exec.Prompt.modifyDurable _).bind fun _ => .pure _)
  | getAwaiter e awaiter binder configure =>
    exact evalThenT_congr hR heval e fun v => hR.bind (hget binder v configure) fun a =>
      hR.quiet _ ((Exec.Prompt.write awaiter a).bind fun _ => .pure _)
  | gotoIfCompleted awaiter binder target =>
    refine hR.bind (hR.quiet _ (.read awaiter)) fun v => hR.bind (hdone binder v) fun done => ?_
    cases done <;> exact hR.quiet _ (.pure _)
  | register awaiter binder =>
    exact hR.quiet _ ((Exec.Prompt.read awaiter).bind fun v =>
      (Exec.Prompt.modifyDurable _).bind fun _ => .pure _)
  | suspend kind => exact hR.quiet _ (.pure _)
  | getResult awaiter binder target =>
    exact hR.bind (hR.quiet _ (.read awaiter)) fun v => hR.bind (hresult binder v) fun result =>
      hR.quiet _ ((Exec.Prompt.write awaiter .unit).bind fun _ => .writeOptional target result (.pure _))
  | setCurrent e =>
    exact evalThenT_congr hR heval e fun v =>
      hR.quiet _ ((Exec.Prompt.modifyDurable _).bind fun _ => .pure _)
  | yieldBreak => exact hR.quiet _ ((Exec.Prompt.modifyDurable _).bind fun _ => .pure _)
  | finish value =>
    cases value with
    | none => exact hR.quiet _ (.pure _)
    | some e => exact evalThenT_congr hR heval e fun _ => hR.quiet _ (.pure _)
  | region r => exact hR.quiet _ (.pure _)
  | dispatch tryState exception cases rethrows fallback =>
    refine hR.quiet (m.exec env fuel (.dispatch tryState exception cases rethrows fallback))
      ((Exec.Prompt.read tryState).bind fun v => ?_)
    dsimp only
    split
    · exact (Exec.Prompt.read exception).bind fun _ => (Exec.Prompt.perform _).bind fun _ => .throw rfl
    · exact .pure _

end

end CompiledMachine

/-! ## Resumptions -/

/-- The events of a resumption. -/
def CompiledMachine.events (env : Env σ) (fuel : Nat) (m : CompiledMachine) (w : World σ) :
    List (Event σ) :=
  if m.isCompleted then [] else (m.runEntryT env fuel).events ({ m.durable with success := false }, w)

/-- The events of a resumption. -/
def InterpretedMachine.events (env : Env σ) (fuel : Nat) (m : InterpretedMachine) (w : World σ) :
    List (Event σ) :=
  if m.completed then []
  else if m.started then iterateEvents env m.kind m.limit fuel 0 m.context w
  else startEvents env m.kind m.limit fuel m.code m.context w

/-- The events of a resumption. -/
def Machine.events (env : Env σ) (fuel : Nat) (m : Machine) (w : World σ) : List (Event σ) :=
  match m with
  | .compiled m => m.events env fuel w
  | .interpreted m => m.events env fuel w

end Coroutine
