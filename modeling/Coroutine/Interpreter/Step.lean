import Coroutine.Interpreter.Context

/-!
# One step of the interpreter

`step` advances the top frame by one phase, or hands the abrupt completion in flight to it. No step
runs more than one node, so `step` has no recursion: a run is the iteration of it.
-/

namespace Coroutine

/-- Why a run stops. -/
inductive Halt where
  /-- Waits for an awaiter. -/
  | suspended
  /-- Yielded a value. -/
  | yielded
  | finished (v : Value)
  /-- A jump left the code towards a label. -/
  | escaped (label : Nat) (v : Value)
deriving DecidableEq, Repr

/-- What a step leads to. -/
inductive Progress where
  | running (c : Context)
  | halted (h : Halt) (c : Context)

/-- The phase in which a compound node starts. -/
def Op.firstPhase : Op → Phase
  | .block vars => .statement 0 (!vars.isEmpty)
  | .binary op => if op.shortCircuits then .left else .operands 0
  | .condition _ => .test
  | .switch .. => .subject
  | .loop => .iteration
  | .tryCatch .. => .guarded
  | .await .. => .awaitable
  | .yieldReturn => .yielding
  | _ => .operands 0

section

variable {σ : Type}

/-- Starts a node: a leaf leaves its value at once, any other gets a frame. -/
def enter (mode : LambdaKind) (code : Code) (id : Nat) (c : Context) : Run σ Context :=
  let frame (scopes : Chain) (op : Op) : Context :=
    { c with
      scopes
      frames := ⟨code, id, op.firstPhase, c.results.length, c.scopes.length, none⟩ :: c.frames }
  match (code.node id).op with
  | .constant v => pure (c.push v)
  | .var x => do
    match ← Run.look fun w => w.lookup c.scopes x.word with
    | some v => return c.push v
    | none => throw (.unboundVariable x.name)
  | .lambda t => do
    let f ← Run.act fun w => w.newClosure t c.scopes
    return c.push (.closure f)
  | .rethrow =>
    match c.activeException? with
    | some e => pure (c.transfer (.throw e))
    | none => throw (.invalidTransition .rethrowOutsideHandler)
  | .yieldBreak =>
    if mode = .generator then pure (c.transfer (.exit .unit))
    else throw (.cannotSuspend .yieldBreakOutsideGenerator)
  | op@(.block vars) =>
    if vars.isEmpty then pure (frame c.scopes op)
    else do
      let s ← Run.act fun w => w.newScope (.ofVars vars)
      return frame (s :: c.scopes) op
  | op => pure (frame c.scopes op)

/-- Starts the child of a node in a slot. -/
def enterChild (mode : LambdaKind) (f : Frame) (slot : Nat) (c : Context) : Run σ Context := do
  let child ← Run.ofBuild (f.code.child f.node slot)
  enter mode f.code child c

/-- Calls a closure: its body runs in the scopes it captured and one for its parameters. -/
def invoke (mode : LambdaKind) (c : Context) : List Value → Run σ Context
  | .closure ref :: args => do
    let ⟨template, captured⟩ ← Run.look fun w => w.closure ref.id
    if template.params.length ≠ args.length then
      throw (.arity template.params.length args.length)
    let s ← Run.act fun w => w.newScope (.ofArgs template.params args)
    let frames := match c.frames with
      | [] => []
      | f :: fs => { f with phase := .inClosure, saved := some c.scopes } :: fs
    enter mode template.code Code.root { c with scopes := s :: captured, frames }
  | args => do
    let e ← Run.act fun w =>
      w.raise (.typeError ((args.headD .unit).typeName ++ " is not callable"))
    return c.transfer (.throw e)

/-- Applies a node to the values of its children. -/
def apply (env : Env σ) (mode : LambdaKind) (f : Frame) (args : List Value) (c : Context) :
    Run σ Context :=
  let arg (i : Nat) : Value := args.getD i .unit
  match f.op with
  | .assign x => do
    if ← Run.act fun w => w.assign c.scopes x.word (arg 0) then return c.complete (arg 0)
    else throw (.unboundVariable x.name)
  | .binary op => return c.finish (← Run.attempt (Effect.ofFault (Value.binary op (arg 0) (arg 1))))
  | .unary op => return c.finish (← Run.attempt (Effect.ofFault (Value.unary op (arg 0))))
  | .call name => return c.finish (← Run.attempt (env.functions.call name args))
  | .throw => do
    let e ← Run.act fun w => w.asException (arg 0)
    return c.transfer (.throw e)
  | .goto label hasValue route =>
    let value := if hasValue then arg 0 else .unit
    return c.transfer (.jump ⟨f.code, label, route, value⟩)
  | .label _ => return c.complete (arg 0)
  | .invoke => invoke mode c args
  | _ => throw f.mismatch

/-! ## Abrupt completions -/

/-- Runs the cleanup of a try, after which a completion goes on. -/
def startCleanup (mode : LambdaKind) (f : Frame) (slot : Nat) (deferred : Completion)
    (c : Context) : Run σ Context :=
  enterChild mode f slot ((c.reset f).setPhase (.inCleanup deferred))

/-- Runs a handler of a try for an exception. -/
def startHandler (mode : LambdaKind) (f : Frame) (h : HandlerSlots) (e : Exception)
    (c : Context) : Run σ Context := do
  let c := (c.reset f).setPhase (.inHandler e)
  match h.var with
  | none => enterChild mode f h.body c
  | some x =>
    let s ← Run.act fun w => w.newScope (Scope.declare {} x.word (.exception e))
    enterChild mode f h.body { c with scopes := s :: c.scopes }

/-- Whether the protected body or a handler of a try is running. -/
def Phase.isGuarded : Phase → Bool
  | .inBody | .inHandler _ => true
  | _ => false

/-- The cleanup that must run before a frame is left. -/
def Frame.pendingCleanup? (f : Frame) : Option Nat :=
  match f.op with
  | .tryCatch _ cleanup => if f.phase.isGuarded then cleanup else none
  | _ => none

/-- The handler of a frame that takes an exception. -/
def Frame.handlerFor? (f : Frame) (e : Exception) : Option HandlerSlots :=
  match f.op, f.phase with
  | .tryCatch handlers _, .inBody => handlers.find? (·.filter.accepts e.toFault)
  | _, _ => none

/-- A transfer passes a frame: its cleanup runs first, or the frame goes. -/
def leave (mode : LambdaKind) (f : Frame) (t : Transfer) (c : Context) : Run σ Context :=
  match f.pendingCleanup? with
  | some slot => startCleanup mode f slot (.abrupt t) c
  | none => pure (c.popFrame.transfer t)

/-- A jump has reached the frame it was routed to. -/
def land (mode : LambdaKind) (f : Frame) (j : Jump) (path : List Nat) (kind : RouteKind)
    (c : Context) : Run σ Context :=
  let goTo (slot : Nat) (rest : List Nat) (hasScope : Bool) : Run σ Context :=
    let c :=
      { c with
        results := truncateResults c.results f.base
        scopes := c.scopes.truncate (f.depth + if hasScope then 1 else 0) }
    match rest with
    | [] =>
      if slot + 1 < f.children.length then pure (c.setPhase (.statement (slot + 1) hasScope))
      else pure (c.complete j.value)
    | _ :: _ => do
      let child ← Run.ofBuild (f.code.child f.node slot)
      let c ← enter mode f.code child (c.setPhase (.statementDone slot hasScope))
      return c.transfer (.jump { j with route := .within child rest .toLabel })
  match f.phase, kind, path with
  | .iteration, .toBreak, _ | .iterationDone, .toBreak, _ => pure (c.complete j.value)
  | .iteration, .toContinue, _ | .iterationDone, .toContinue, _ =>
    pure ((c.reset f).setPhase .iteration)
  | .statement _ hasScope, .toLabel, slot :: rest => goTo slot rest hasScope
  | .statementDone _ hasScope, .toLabel, slot :: rest => goTo slot rest hasScope
  | .statement .., .toLabel, [] | .statementDone .., .toLabel, [] =>
    throw (.invalidTransition (.jumpWithoutRoute j.label))
  | _, _, _ => throw (.invalidTransition (.jumpRefused j.label))

/-- Hands an abrupt completion to the top frame. -/
def unwind (mode : LambdaKind) (t : Transfer) (c : Context) : Run σ Progress :=
  match c.frames with
  | [] =>
    match t with
    | .jump ⟨_, label, .escape, v⟩ => pure (.halted (.escaped label v) c)
    | .jump j => throw (.invalidTransition (.jumpLost j.label))
    | .throw e => throw (.thrown e)
    | .exit v => pure (.halted (.finished v) c)
  | f :: _ =>
    match t with
    | .jump j =>
      match j.route with
      | .within ancestor path kind =>
        if ancestor = f.node ∧ j.code.same f.code then .running <$> land mode f j path kind c
        else .running <$> leave mode f t c
      | .escape => .running <$> leave mode f t c
    | .throw e =>
      match f.handlerFor? e with
      | some h => .running <$> startHandler mode f h e c
      | none => .running <$> leave mode f t c
    | .exit _ => .running <$> leave mode f t c

/-! ## Frames -/

/-- Checks an awaitable that has just been evaluated. -/
def awaitStep (env : Env σ) (mode : LambdaKind) (binder : Binder) (configure : Bool) (v : Value)
    (c : Context) : Run σ Progress := do
  let protocol := env.protocol binder
  match ← Run.attempt (protocol.getAwaiter v configure) with
  | .error e => return .running (c.transfer (.throw e))
  | .ok awaiter =>
    match ← Run.attempt (protocol.isCompleted awaiter) with
    | .error e => return .running (c.transfer (.throw e))
    | .ok true => return .running (c.finish (← Run.attempt (protocol.getResult awaiter)))
    | .ok false =>
      if mode ≠ .async then throw (.cannotSuspend .awaitOutsideAsync)
      return .halted .suspended
        { c.setPhase (.awaiting awaiter) with suspension := some ⟨awaiter, binder⟩ }

/-- Tries the test values of a switch one after the other. -/
def switchStep (mode : LambdaKind) (f : Frame) (cases : List CaseSlots) (fallback : Option Nat)
    (case test : Nat) (c : Context) : Run σ Context :=
  match cases[case]? with
  | none =>
    match fallback with
    | some slot => enterChild mode f slot (c.setPhase .armDone)
    | none => pure (c.complete .unit)
  | some arm =>
    match arm.tests[test]? with
    | none => pure (c.setPhase (.candidate (case + 1) 0))
    | some slot => enterChild mode f slot (c.setPhase (.candidateDone case test))

/-- What a try does after its cleanup. -/
def afterCleanup (c : Context) : Completion → Context
  | .value v => c.complete v
  | .abrupt t => c.popFrame.transfer t

/-- Whether a frame is in a phase of its node. Only switches, tries and awaits look at their nodes
before they go on. -/
def Frame.isMatched (f : Frame) : Bool :=
  match f.phase with
  | .subject | .candidate .. | .candidateDone .. | .armDone =>
    match f.op with | .switch .. => true | _ => false
  | .guarded | .inBody | .inHandler _ | .inCleanup _ =>
    match f.op with | .tryCatch .. => true | _ => false
  | .awaitable | .awaitableDone | .awaiting _ =>
    match f.op with | .await .. => true | _ => false
  | _ => true

/-- Takes the top frame `f` on by one phase. -/
def advance (env : Env σ) (mode : LambdaKind) (f : Frame) (c : Context) : Run σ Progress :=
  match f.phase with
  | .operands next =>
    match f.children[next]? with
    | some child => .running <$> enter mode f.code child (c.setPhase (.operands (next + 1)))
    | none =>
      .running <$> apply env mode f (c.resultsAbove f.base)
        { c with results := truncateResults c.results f.base }
  | .left => .running <$> enterChild mode f 0 (c.setPhase .leftDone)
  | .leftDone =>
    let left := c.result.truthy
    let isAnd := match f.op with | .binary .andAlso => true | _ => false
    if isAnd != left then pure (.running (c.pop.complete (.bool left)))
    else .running <$> enterChild mode f 1 (c.pop.setPhase .rightDone)
  | .rightDone => pure (.running (c.pop.complete (.bool c.result.truthy)))
  | .statement index hasScope =>
    match f.children[index]? with
    | none => pure (.running (c.complete .unit))
    | some child =>
      .running <$> enter mode f.code child (c.setPhase (.statementDone index hasScope))
  | .statementDone index hasScope =>
    if index + 1 < f.children.length then
      pure (.running (c.pop.setPhase (.statement (index + 1) hasScope)))
    else pure (.running (c.pop.complete c.result))
  | .test => .running <$> enterChild mode f 0 (c.setPhase .testDone)
  | .testDone =>
    let hasElse := match f.op with | .condition h => h | _ => false
    if c.result.truthy then .running <$> enterChild mode f 1 (c.pop.setPhase .branchDone)
    else if hasElse then .running <$> enterChild mode f 2 (c.pop.setPhase .branchDone)
    else pure (.running (c.pop.complete .unit))
  | .branchDone => pure (.running (c.pop.complete c.result))
  | .subject => .running <$> enterChild mode f 0 (c.setPhase (.candidate 0 0))
  | .candidate case test =>
    match f.op with
    | .switch cases fallback => .running <$> switchStep mode f cases fallback case test c
    | _ => throw f.mismatch
  | .candidateDone case test =>
    match f.op with
    | .switch cases _ =>
      if c.result.same (c.pop.resultAt f.base) then
        match cases[case]? with
        | some arm => .running <$> enterChild mode f arm.body (c.pop.setPhase .armDone)
        | none => throw f.mismatch
      else pure (.running (c.pop.setPhase (.candidate case (test + 1))))
    | _ => throw f.mismatch
  | .armDone => pure (.running (c.pop.complete c.result))
  | .iteration => .running <$> enterChild mode f 0 (c.setPhase .iterationDone)
  | .iterationDone => pure (.running (c.pop.setPhase .iteration))
  | .guarded => .running <$> enterChild mode f 0 (c.setPhase .inBody)
  | .inBody | .inHandler _ =>
    match f.pendingCleanup? with
    | some slot => .running <$> startCleanup mode f slot (.value c.result) c.pop
    | none => pure (.running (c.pop.complete c.result))
  | .inCleanup deferred => pure (.running (afterCleanup c.pop deferred))
  | .awaitable => .running <$> enterChild mode f 0 (c.setPhase .awaitableDone)
  | .awaitableDone =>
    match f.op with
    | .await binder configure => awaitStep env mode binder configure c.result c.pop
    | _ => throw f.mismatch
  | .awaiting awaiter =>
    match f.op with
    | .await binder _ => do
      return .running (c.finish (← Run.attempt ((env.protocol binder).getResult awaiter)))
    | _ => throw f.mismatch
  | .yielding => .running <$> enterChild mode f 0 (c.setPhase .yieldDone)
  | .yieldDone =>
    if mode = .generator then
      pure (.halted .yielded { c.pop.setPhase .yielded with current := c.result })
    else throw (.cannotSuspend .yieldReturnOutsideGenerator)
  | .yielded => pure (.running (c.complete .unit))
  | .inClosure => pure (.running (c.pop.complete c.result))

/-- Advances the top frame `f` by one phase, if it is one of its node. -/
def stepFrame (env : Env σ) (mode : LambdaKind) (f : Frame) (c : Context) : Run σ Progress :=
  if f.isMatched then advance env mode f c else throw f.mismatch

/-- Advances the interpreter by one step. -/
def step (env : Env σ) (mode : LambdaKind) (c : Context) : Run σ Progress :=
  match c.control with
  | some t => unwind mode t { c with control := none }
  | none =>
    match c.frames with
    | [] => pure (.halted (.finished c.result) c.pop)
    | f :: _ => stepFrame env mode f c

end

end Coroutine
