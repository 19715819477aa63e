import Coroutine.Graph.Basic
import Coroutine.Graph.Guards
import Coroutine.Code.Build
import Coroutine.Tree.Check
import Coroutine.Tree.Children
import Coroutine.Tree.Rethrow

/-!
# Lowering

`Lambda.lower` splits the body of a lambda into states at its suspend points. `lower` returns the
expression that gives the value of a node in the current state. Expressions without suspend points
stay whole; constructs with one are broken into states joined by transitions, and their value is
left in a temporary.

* The current state is always open: it has no transition yet.
* An expression that `lower` returned must be used before anything else is emitted. So an operand
  that stands before a suspending one is spilled into a temporary.
* Labels are bound before the body that jumps to them is lowered.

The parts of a construct are passed to the combinators (`branch`, `guard`, …) as computations, so
that the recursion itself goes along the tree.
-/

namespace Coroutine

namespace Lowering

/-- A graph in the making. -/
structure Draft where
  graph : Graph
  /-- The state that expressions are added to. -/
  current : Nat
  /-- The number of the next temporary. -/
  nextVar : Nat
  /-- The states that were given a transition, with it, the last one first. -/
  ended : List (Nat × Transition) := []

/-- Where in the tree a node stands. -/
structure Place where
  resolve : Expr.Resolver
  guards : Guards := []
  /-- The state that ends a generator. -/
  exit : Option Nat := none
  /-- The variable that holds the exception of the handler around the node. -/
  rethrow : Option Var := none

/-- A part of lowering. -/
abbrev Lower := StateT Draft (Except BuildError)

/-! ## Drafts -/

/-- Changes the graph. -/
def change (f : Graph → Graph) : Lower Unit := modify fun d => { d with graph := f d.graph }

/-- Changes the graph and gives a number. -/
def create (f : Graph → Nat × Graph) : Lower Nat := do
  let d ← get
  let (n, graph) := f d.graph
  set { d with graph }
  return n

/-- A new state. -/
def newState : Lower Nat := create Graph.addState

/-- The current state. -/
def current : Lower Nat := return (← get).current

/-- Goes on in another state. -/
def continueAt (id : Nat) : Lower Unit := modify fun d => { d with current := id }

/-- Ends a state with a transition. -/
def endState (id : Nat) (t : Transition) : Lower Unit := modify fun d =>
  { d with graph := d.graph.setTransition id t, ended := (id, t) :: d.ended }

/-- Ends the current state with a transition. -/
def endWith (t : Transition) : Lower Unit := do
  let id ← current
  endState id t

/-- A new temporary, named for its word. Its number is new, but past the last word its word is one
that a variable of the tree may have. -/
def temporary (stem : String) : Lower Var := do
  let d ← get
  let x : Var := ⟨d.nextVar, "$" ++ stem ++ toString (word d.nextVar)⟩
  set { d with nextVar := d.nextVar + 1, graph := d.graph.declare x }
  return x

/-- Binds a label. -/
def bind (label : Nat) (b : LabelBinding) : Lower Unit := do
  let d ← get
  let graph ← d.graph.bindLabel label b
  set { d with graph }

/-- Binds a label that a loop may leave out. -/
def bindOptional (label : Option Label) (b : LabelBinding) : Lower Unit :=
  match label with
  | some l => bind l.id b
  | none => pure ()

/-- Evaluates an expression in the current state; nothing happens if it only gives a value. -/
def emit (e : Expr) : Lower Unit := do
  if e.isPureLeaf then pure ()
  else
    let id ← current
    change (·.pushExpression id e)

/-- Keeps the value of a construct in a variable at the end of the current state. -/
def emitResult (x : Var) (value : Expr) : Lower Unit := do
  let d ← get
  if value.isJump then emit value
  else if (d.graph.state d.current).result.isNone then
    change (·.setResult d.current x value)
  else emit (.assign x value)

/-- Evaluates an expression now, so that what is emitted later cannot come before it. -/
def spill (value : Expr) : Lower Expr := do
  match value with
  | .constant _ => return value
  | _ =>
    let x ← temporary "spill"
    emit (.assign x value)
    return .var x

/-- Gives an operand, spilled if one after it suspends. -/
def operand (value : Expr) (laterSuspends : Bool) : Lower Expr :=
  if laterSuspends then spill value else pure value

/-! ## Places -/

/-- An expression without suspend points, as it is evaluated at a place. -/
def Place.whole (p : Place) (e : Expr) : Expr :=
  match p.rethrow with
  | some x => e.rethrowing x
  | none => e

/-- Splits an expression that suspends; any other stays whole. -/
def Place.split (p : Place) (e : Expr) (lowered : Lower Expr) : Lower Expr :=
  if e.suspends then lowered else pure (p.whole e)

/-- The place inside a part of a try. -/
def Place.inside (p : Place) (part : GuardPart) (exception : Var) : Place :=
  { p with guards := ⟨part, exception⟩ :: p.guards }

/-- The place inside a handler. -/
def Place.handling (p : Place) (exception : Var) : Place :=
  { p.inside .handler exception with rethrow := some exception }

/-! ## Constructs -/

/-- Declares the variables of a block and gives them no value. -/
def declareAll : List Var → Lower Unit
  | [] => pure ()
  | x :: xs => do
    change (·.declare x)
    emit (.assign x .unit)
    declareAll xs

/-- Ends a branch: its value is kept, and control goes on to where the branches join. -/
def joinAt (join : Nat) (result : Var) (value : Expr) : Lower Unit := do
  emitResult result value
  endWith (.goto join)

/-- A label with the value of falling through to it. -/
def landing (target : Label) (fallback : Lower Expr) : Lower Expr := do
  let result ← temporary "label"
  emitResult result (← fallback)
  let state ← newState
  endWith (.goto state)
  continueAt state
  bind target.id ⟨state, some result⟩
  return .var result

/-- A conditional whose branches are split. -/
def branch (test : Expr) (ifTrue : Lower Expr) (ifFalse : Option (Lower Expr)) : Lower Expr := do
  let result ← temporary "if"
  let onTrue ← newState
  match ifFalse with
  | none =>
    let join ← newState
    emit (.assign result .unit)
    endWith (.conditional test onTrue join)
    continueAt onTrue
    joinAt join result (← ifTrue)
    continueAt join
  | some ifFalse =>
    let onFalse ← newState
    let join ← newState
    endWith (.conditional test onTrue onFalse)
    continueAt onTrue
    joinAt join result (← ifTrue)
    continueAt onFalse
    joinAt join result (← ifFalse)
    continueAt join
  return .var result

/-- New states, as many as a list is long. -/
def newStates {α : Type} : List α → Lower (List Nat)
  | [] => return []
  | _ :: rest => do
    let id ← newState
    return id :: (← newStates rest)

/-- A switch whose arms are split. `arms` lowers them, given their first states. -/
def switchOn (value : Expr) (tests : List (List Expr))
    (arms : Var → Nat → List Nat → Lower Unit) (fallback : Option (Lower Expr)) : Lower Expr := do
  let result ← temporary "switch"
  if fallback.isNone then emit (.assign result .unit)
  let heads ← newStates tests
  let entries := (tests.zip heads).map fun (tests, body) => (⟨tests, body⟩ : SwitchArm)
  match fallback with
  | none =>
    let join ← newState
    endWith (.switch value entries join)
    arms result join heads
    continueAt join
  | some fallback =>
    let head ← newState
    let join ← newState
    endWith (.switch value entries head)
    arms result join heads
    continueAt head
    joinAt join result (← fallback)
    continueAt join
  return .var result

/-- A loop whose body is split. -/
def repeated (breakLabel continueLabel : Option Label) (body : Lower Expr) : Lower Expr := do
  let result ← temporary "loop"
  emit (.assign result .unit)
  let join ← newState
  let _ ← create (·.enterZone .loop)
  let head ← newState
  let start ← newState
  bindOptional breakLabel ⟨join, some result⟩
  bindOptional continueLabel ⟨head, none⟩
  endWith (.goto head)
  endState head (.loop start)
  continueAt start
  emit (← body)
  endWith (.goto head)
  let _ ← create Graph.exitZone
  continueAt join
  return .var result

/-- A try whose protected body, handlers or cleanup are split. The parts are given the variable of
the exception; the handlers also the variable of the result and the state after the construct. -/
def guard (part : GuardPart) (p : Place) (body : Place → Lower Expr)
    (handlers : Var → Var → Nat → Lower (List HandlerEntry))
    (cleanup : Option (Place → Lower Expr)) : Lower Expr := do
  let result ← temporary "try"
  let tryState ← temporary "try_state"
  let exception ← temporary "exception"
  let owner ← current
  let join ← newState
  let region ← create (·.enterZone .guarded)
  change (·.setOwner region owner)
  let head ← newState
  continueAt head
  joinAt join result (← body (p.inside part exception))
  let _ ← create Graph.exitZone
  let entries ← handlers exception result join
  let entry : RegionEntry := ⟨region, head, tryState, exception, entries, none, join⟩
  match cleanup with
  | none => endState owner (.tryCatch entry)
  | some cleanup =>
    let _ ← create (·.enterZone .cleanup)
    let first ← newState
    continueAt first
    emit (← cleanup (p.inside .cleanup exception))
    endWith (.cleanupExit ⟨region, tryState, exception, join⟩)
    let _ ← create Graph.exitZone
    endState owner (.tryCatch { entry with cleanup := some first })
  continueAt join
  return .var result

/-- A handler of a try, whose body is split. -/
def handle (filter : Filter) (x : Option Var) (index : Nat) (exception result : Var) (join : Nat)
    (body : Lower Expr) : Lower HandlerEntry := do
  let _ ← create (·.enterZone .handler)
  let head ← newState
  continueAt head
  match x with
  | some x =>
    change (·.declare x)
    emit (.assign x (.var exception))
  | none => pure ()
  joinAt join result (← body)
  let _ ← create Graph.exitZone
  return ⟨filter, head, index + 1⟩

/-- Waits for an awaitable. -/
def suspendOn (binder : Binder) (configure : Bool) (awaitable : Expr) : Lower Expr := do
  let awaiter ← temporary "awaiter"
  let result ← temporary "await"
  let completion ← newState
  let next ← newState
  endWith (.await ⟨awaitable, awaiter, binder, configure, completion⟩)
  endState completion (.awaitResult ⟨awaiter, some result, binder, next⟩)
  continueAt next
  return .var result

/-- Yields a value. -/
def yieldValue (value : Expr) : Lower Expr := do
  let resume ← newState
  endWith (.yieldReturn value resume)
  continueAt resume
  return .unit

/-- Ends a generator; what comes after cannot be reached. -/
def endGenerator (p : Place) (node : Expr) : Lower Expr := do
  if p.guards.inCleanup then throw (.unsupported .cleanup (p.whole node))
  match p.exit with
  | none => throw (.unsupported .outsideGenerator (p.whole node))
  | some exit =>
    endWith (.goto exit)
    continueAt (← newState)
    return .unit

/-- Refuses a suspend point in the test values of a switch. -/
def refuseTests (p : Place) (cases : List SwitchCase) : Lower Unit :=
  match Expr.firstSuspendIn? (cases.flatMap SwitchCase.tests) with
  | some node => throw (.unsupported .switchTest (p.whole node))
  | none => pure ()

/-- Refuses to yield where a guard forbids it. -/
def refuseYield (p : Place) (node : Expr) : Lower Unit :=
  match p.guards.yieldRestriction? with
  | some place => throw (.unsupported place (p.whole node))
  | none => pure ()

/-! ## The tree -/

mutual

/-- Lowers an expression; gives the expression of its value in the current state. -/
def lower (p : Place) : Expr → Lower Expr
  | .label target none => landing target (pure .unit)
  | .label target (some fallback) => landing target (lower p fallback)
  | e@(.constant _) | e@(.var _) | e@(.lambda _) => pure (p.whole e)
  | e@(.assign x value) => p.split e do return .assign x (← lower p value)
  | e@(.binary op left right) => p.split e do
    if op.shortCircuits && right.suspends then
      -- twice negated, the right operand has the truth value that the operator gives
      let decided : Lower Expr := do return .unary .not (.unary .not (← lower p right))
      let test ← lower p left
      if op = .andAlso then branch test decided (some (pure (.constant (.bool false))))
      else branch test (pure (.constant (.bool true))) (some decided)
    else
      let l ← lower p left
      let l ← operand l right.suspends
      return .binary op l (← lower p right)
  | e@(.unary op value) => p.split e do return .unary op (← lower p value)
  | e@(.call function args) => p.split e do return .call function (← lowerOperands p args)
  | e@(.invoke target args) => p.split e do
    let t ← lower p target
    let t ← operand t (Expr.anySuspends args)
    return .invoke t (← lowerOperands p args)
  | e@(.block vars body) => p.split e do
    declareAll vars
    lowerStatements p body
  | e@(.condition test ifTrue none) => p.split e do
    let t ← lower p test
    if ifTrue.suspends then branch t (lower p ifTrue) none
    else return .condition t (p.whole ifTrue) none
  | e@(.condition test ifTrue (some ifFalse)) => p.split e do
    let t ← lower p test
    if ifTrue.suspends || ifFalse.suspends then
      branch t (lower p ifTrue) (some (lower p ifFalse))
    else return .condition t (p.whole ifTrue) (some (p.whole ifFalse))
  | e@(.switch value cases none) => p.split e do
    refuseTests p cases
    let v ← lower p value
    let tests := cases.map fun c => c.tests.map p.whole
    if cases.any (·.body.suspends) then
      switchOn v tests (fun result join heads => lowerArms p result join heads cases) none
    else return .switch v (cases.map (·.mapChildren p.whole)) none
  | e@(.switch value cases (some fallback)) => p.split e do
    refuseTests p cases
    let v ← lower p value
    let tests := cases.map fun c => c.tests.map p.whole
    if cases.any (·.body.suspends) || fallback.suspends then
      switchOn v tests (fun result join heads => lowerArms p result join heads cases)
        (some (lower p fallback))
    else return .switch v (cases.map (·.mapChildren p.whole)) (some (p.whole fallback))
  | e@(.loop body breakLabel continueLabel) =>
    p.split e (repeated breakLabel continueLabel (lower p body))
  | e@(.goto _ _ none) => pure (p.whole e)
  | e@(.goto kind target (some value)) => p.split e do
    return .goto kind target (some (← lower p value))
  | e@(.tryCatch body handlers none) => p.split e
    (guard .caught p (fun p => lower p body)
      (fun exception result join => lowerHandlers p exception result join 0 handlers) none)
  | e@(.tryCatch body handlers (some cleanup)) => p.split e
    (guard .cleaned p
      (fun p =>
        if handlers.isEmpty then lower p body
        else p.split (.tryCatch body handlers none)
          (guard .caught p (fun p => lower p body)
            (fun exception result join => lowerHandlers p exception result join 0 handlers) none))
      (fun _ _ _ => pure []) (some fun p => lower p cleanup))
  | e@(.throw none) => pure (p.whole e)
  | e@(.throw (some value)) => p.split e do return .throw (some (← lower p value))
  | .await awaitable type configure => do
    let binder ← p.resolve type
    suspendOn binder configure (← lower p awaitable)
  | e@(.yieldReturn value) => do
    refuseYield p e
    yieldValue (← lower p value)
  | e@.yieldBreak => endGenerator p e

/-- Lowers operands from left to right; one before a suspending one is spilled. -/
def lowerOperands (p : Place) : List Expr → Lower (List Expr)
  | [] => return []
  | e :: es => do
    let v ← lower p e
    let v ← operand v (Expr.anySuspends es)
    return v :: (← lowerOperands p es)

/-- Lowers statements; the last one gives the value. -/
def lowerStatements (p : Place) : List Expr → Lower Expr
  | [] => return .unit
  | [e] => lower p e
  | e :: es => do
    emit (← lower p e)
    lowerStatements p es

/-- Lowers the arms of a switch, given their first states. -/
def lowerArms (p : Place) (result : Var) (join : Nat) (heads : List Nat) :
    List SwitchCase → Lower Unit
  | [] => pure ()
  | ⟨_, body⟩ :: cs => do
    continueAt (heads.headD 0)
    joinAt join result (← lower p body)
    lowerArms p result join heads.tail cs

/-- Lowers the handlers of a try, counted from an index on. -/
def lowerHandlers (p : Place) (exception result : Var) (join index : Nat) :
    List Handler → Lower (List HandlerEntry)
  | [] => return []
  | ⟨filter, x, body⟩ :: hs => do
    let entry ← handle filter x index exception result join (lower (p.handling exception) body)
    return entry :: (← lowerHandlers p exception result join (index + 1) hs)

end

/-- Lowers the body of a lambda and ends its last state. -/
def lowerBody (resolve : Expr.Resolver) (kind : LambdaKind) (body : Expr) : Lower Unit := do
  match kind with
  | .generator =>
    let exit ← newState
    endState exit .yieldBreak
    emit (← lower { resolve, exit := some exit } body)
    endWith (.goto exit)
  | _ => endWith (.finish (some (← lower { resolve } body)))

end Lowering

/-- The state graph of a lambda. Temporaries are numbered from behind the greatest number of the
tree. -/
def Lambda.lower (resolve : Expr.Resolver) (l : Lambda) : Except BuildError Graph := do
  let facts ← l.check
  let g := Graph.new l.displayName l.kind l.params
  let draft : Lowering.Draft := { graph := g, current := g.entry, nextVar := facts.maxVar + 1 }
  let ((), draft) ← (Lowering.lowerBody resolve l.kind l.body).run draft
  let (closed, g) := draft.graph.close
  closed
  g.validate
  return g

end Coroutine
