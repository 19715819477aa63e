import Coroutine.Interpreter.Run
import Coroutine.Program.Basic

/-!
# Compiled machines

A compiled machine runs a linear program. Between resumptions it keeps a durable state: the number
of the state to resume at, the variables, and what it last yielded or waits for.

A resumption starts at the table of the outermost block. The table leads to the state, or to where
the region around it is entered again, whose own table then goes on. The blocks around the current
one are a stack: a jump that leaves a block, or an exception, pops it until a region takes it.
-/

namespace Coroutine

/-- What a resumption comes to. -/
inductive Status where
  /-- Waits for an awaiter. -/
  | suspended
  | yielded (v : Value)
  | completed (v : Value)
deriving DecidableEq, Repr

/-- What a compiled machine keeps between resumptions. -/
structure Durable where
  state : Int := startState
  scopes : Chain
  /-- The last value yielded. -/
  current : Value := .unit
  /-- Whether the last resumption yielded. -/
  success : Bool := false
  /-- The awaiter of the last suspension, until it is taken. -/
  suspension : Option Suspension := none

/-- A compiled machine. -/
structure CompiledMachine where
  program : Program
  limit : Option Nat
  durable : Durable

/-- A part of a compiled machine's run: it changes the durable state and the world, may end the run,
and may run out of fuel. -/
abbrev Exec (σ : Type) := ExceptT RunError (StateT (Durable × World σ) Option)

/-- The block around a region that is running, and where the region stands in it. -/
structure Enclosing where
  region : TryRegion
  block : Block
  pc : Nat

/-- Where a machine is. -/
structure Position where
  block : Block
  pc : Nat
  /-- The blocks around, the innermost first. -/
  enclosing : List Enclosing := []

/-- How a run of a compiled machine stops. -/
inductive Flow where
  | suspend (kind : SuspendKind)
  | complete (v : Value)
deriving DecidableEq, Repr

/-- What comes after an instruction. -/
inductive Next where
  | advance
  | jump (target : Target)
  | stop (f : Flow)
  | enter (r : TryRegion)

/-- What evaluating an expression comes to. -/
inductive Evaluated where
  | value (v : Value)
  | jump (target : Target)

namespace CompiledMachine

variable {σ : Type}

/-! ## Access -/

/-- The durable state. -/
def durably : Exec σ Durable := return (← get).1

/-- Changes the durable state. -/
def modifyDurable (f : Durable → Durable) : Exec σ Unit := modify fun (d, w) => (f d, w)

/-- Performs an effect; what it throws ends the run. -/
def perform {α : Type} (e : Effect σ α) : Exec σ α := fun (d, w) =>
  match e w with
  | (.ok a, w) => some (.ok a, (d, w))
  | (.error e, w) => some (.error (.thrown e), (d, w))

/-- Reads a variable. -/
def read (x : Var) : Exec σ Value := do
  let (d, w) ← get
  match w.lookup d.scopes x.word with
  | some v => return v
  | none => throw (.unboundVariable x.name)

/-- Writes a variable. -/
def write (x : Var) (v : Value) : Exec σ Unit := fun (d, w) =>
  match w.assign d.scopes x.word v with
  | (true, w) => some (.ok (), (d, w))
  | (false, w) => some (.error (.unboundVariable x.name), (d, w))

/-! ## Instructions -/

section

variable (env : Env σ) (fuel : Nat) (m : CompiledMachine)

/-- Evaluates an expression. A jump that leaves it delivers its value and goes to the state of the
label. -/
def eval (e : CompiledExpr) : Exec σ Evaluated := do
  let d ← durably
  let r ← fun (d', w) =>
    (evaluate env m.limit fuel e.code d.scopes w).map fun (r, w) => (r, (d', w))
  match r with
  | .value v => return .value v
  | .escape label v =>
    match m.program.labels.lookup label with
    | none => throw (.invalidTransition (.jumpWithoutState label))
    | some slot =>
      match slot.var with
      | some x => write x v
      | none => pure ()
      return .jump slot.target

/-- Evaluates an expression and goes on with its value. -/
def evalThen (e : CompiledExpr) (next : Value → Exec σ Next) : Exec σ Next := do
  match ← m.eval env fuel e with
  | .value v => next v
  | .jump target => return .jump target

/-- Tries the test values of an arm. -/
def tryTests (v : Value) (target : Target) : List CompiledExpr → Exec σ (Option Target)
  | [] => return none
  | e :: es => do
    match ← m.eval env fuel e with
    | .jump target => return some target
    | .value candidate => if candidate.same v then return some target else tryTests v target es

/-- The arm of a switch that a value selects. -/
def selectArm (v : Value) : List (List CompiledExpr × Target) → Exec σ (Option Target)
  | [] => return none
  | (tests, target) :: arms => do
    match ← m.tryTests env fuel v target tests with
    | some target => return some target
    | none => selectArm v arms

/-- Runs an instruction. -/
def exec : Instr → Exec σ Next
  | .label _ => return .advance
  | .eval e => m.evalThen env fuel e fun _ => return .advance
  | .assign x e => m.evalThen env fuel e fun v => do
    write x v
    return .advance
  | .goto target => return .jump target
  | .gotoIf test target => m.evalThen env fuel test fun v =>
    return if v.truthy then .jump target else .advance
  | .switch e arms fallback => m.evalThen env fuel e fun v => do
    return .jump ((← m.selectArm env fuel v arms).getD fallback)
  | .setState state => do
    modifyDurable fun d => { d with state }
    return .advance
  | .getAwaiter e awaiter binder configure => m.evalThen env fuel e fun v => do
    write awaiter (← perform ((env.protocol binder).getAwaiter v configure))
    return .advance
  | .gotoIfCompleted awaiter binder target => do
    let v ← read awaiter
    if ← perform ((env.protocol binder).isCompleted v) then return .jump target
    else return .advance
  | .register awaiter binder => do
    let v ← read awaiter
    modifyDurable fun d => { d with suspension := some ⟨v, binder⟩ }
    return .advance
  | .suspend kind => return .stop (.suspend kind)
  | .getResult awaiter binder target => do
    let v ← read awaiter
    let result ← perform ((env.protocol binder).getResult v)
    write awaiter .unit
    match target with
    | some x => write x result
    | none => pure ()
    return .advance
  | .setCurrent e => m.evalThen env fuel e fun v => do
    modifyDurable fun d => { d with current := v, success := true }
    return .advance
  | .yieldBreak => do
    modifyDurable fun d => { d with success := false }
    return .stop (.complete .unit)
  | .finish none => return .stop (.complete .unit)
  | .finish (some e) => m.evalThen env fuel e fun v => return .stop (.complete v)
  | .region r => return .enter r
  | .dispatch tryState exception cases rethrows fallback => do
    let code := ((← read tryState).int?.map Int64.toInt).getD 0
    if rethrows && code == unhandled then
      let stored ← read exception
      let e ← perform (Effect.act fun w => w.asException stored)
      throw (.thrown e)
    else return .jump ((cases.lookup code).getD fallback)

end

/-! ## Blocks -/

/-- Where a block starts for the durable state. Once the state is reached, it is used up. -/
def entryPoint (b : Block) : Exec σ Nat := do
  let state := (← durably).state
  if state = startState then return 0
  else
    match b.row? state with
    | none => throw (.invalidTransition (.noResumePoint state))
    | some row =>
      if !row.nested then modifyDurable fun d => { d with state := startState }
      match b.position? row.target with
      | some pc => return pc
      | none => throw (.invalidTransition (.resumeLabelMissing row.target.text))

/-- Leaves a block towards a target: the innermost region around that knows the target records it,
and control goes on after the region. -/
def leaveTo (target : Target) : List Enclosing → Exec σ Position
  | [] => throw (.invalidTransition (.leftMachine target.text))
  | ⟨region, block, pc⟩ :: rest =>
    match region.exitCode? target with
    | some code => do
      write region.tryState (.int (Int64.ofInt code))
      return ⟨block, pc + 1, rest⟩
    | none => leaveTo target rest

/-- Hands an exception to the innermost region around that catches it. -/
def catchIn (e : Exception) : List Enclosing → Exec σ Position
  | [] => throw (.thrown e)
  | ⟨region, block, pc⟩ :: rest =>
    match region.catchCode? e.toFault with
    | some code => do
      write region.exception (.exception e)
      write region.tryState (.int (Int64.ofInt code))
      return ⟨block, pc + 1, rest⟩
    | none => catchIn e rest

/-- Goes on after an instruction: at another position, or not at all. -/
def proceed (p : Position) : Next → Exec σ (Position ⊕ Flow)
  | .advance => return .inl { p with pc := p.pc + 1 }
  | .jump target =>
    match p.block.position? target with
    | some pc => return .inl { p with pc }
    | none => return .inl (← leaveTo target p.enclosing)
  | .stop f => return .inr f
  | .enter r => do
    let pc ← entryPoint r.block
    return .inl ⟨r.block, pc, ⟨r, p.block, p.pc⟩ :: p.enclosing⟩

/-- Runs the instruction at a position and goes on. An exception goes to the regions around. -/
def stepAt (env : Env σ) (fuel : Nat) (m : CompiledMachine) (p : Position) (i : Instr) :
    Exec σ (Position ⊕ Flow) := fun s =>
  match m.exec env fuel i s with
  | some (.ok next, s) => proceed p next s
  | some (.error (.thrown e), s) => (Sum.inl <$> catchIn e p.enclosing) s
  | some (.error e, s) => some (.error e, s)
  | none => none

/-- Runs from a position on, having run some instructions already. -/
def runFrom (env : Env σ) (m : CompiledMachine) : Nat → Nat → Position → Exec σ Flow
  | 0, _, _ => fun _ => none
  | fuel + 1, steps, p =>
    match p.block.instrs[p.pc]? with
    | none => throw (.invalidTransition .ranPastEnd)
    | some i =>
      if limitReached m.limit steps then throw (limitError m.limit)
      else do
        match ← m.stepAt env fuel p i with
        | .inl p => runFrom env m fuel (steps + 1) p
        | .inr f => return f

/-- Runs from the durable state on. -/
def runEntry (env : Env σ) (fuel : Nat) (m : CompiledMachine) : Exec σ Flow := do
  let pc ← entryPoint m.program.entry
  m.runFrom env fuel 0 ⟨m.program.entry, pc, []⟩

/-! ## Resumptions -/

/-- Whether the machine has completed. -/
def isCompleted (m : CompiledMachine) : Bool := m.durable.state == doneState

/-- The machine with its durable state changed. -/
def withDurable (m : CompiledMachine) (d : Durable) : CompiledMachine := { m with durable := d }

/-- The status of a machine after a run that stopped. A machine that did not suspend is done. -/
def settle (m : CompiledMachine) (d : Durable) :
    Except RunError Flow → Except RunError Status × CompiledMachine
  | .ok (.suspend .await) => (.ok .suspended, m.withDurable d)
  | .ok (.suspend .yield) => (.ok (.yielded d.current), m.withDurable d)
  | .ok (.complete v) =>
    let v := if m.program.kind = .generator then .unit else v
    (.ok (.completed v), m.withDurable { d with state := doneState })
  | .error e => (.error e, m.withDurable { d with state := doneState })

/-- Resumes the machine. -/
def resume (env : Env σ) (fuel : Nat) (m : CompiledMachine) (w : World σ) :
    Option ((Except RunError Status × CompiledMachine) × World σ) :=
  if m.isCompleted then some ((.error .alreadyCompleted, m), w)
  else
    (m.runEntry env fuel ({ m.durable with success := false }, w)).map fun (r, d, w) =>
      (m.settle d r, w)

/-- A new machine for a program with its arguments. -/
def new (program : Program) (limit : Option Nat) (args : List Value) (w : World σ) :
    Except RunError (CompiledMachine × World σ) :=
  if args.length ≠ program.params.length then
    .error (.arity program.params.length args.length)
  else
    let scope := (program.params.zip args).foldl (fun s (x, v) => s.declare x.word v)
      (Scope.ofVars program.vars)
    let (s, w) := w.newScope scope
    .ok (⟨program, limit, { scopes := [s] }⟩, w)

end CompiledMachine

end Coroutine
