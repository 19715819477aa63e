import Coroutine.Program.Basic
import Coroutine.Graph.Simplify
import Coroutine.Code.Build

/-!
# Assembly

`Graph.assemble` turns a state graph into a linear program. The regions are rendered from the
deepest outwards, so that the block of a region can be put into the instruction that runs it.

The table of a block only leads into the block itself: a state inside a deeper region is routed to
where that region is entered again. A jump out of a region becomes a code in the region's variable,
and the instruction after the region goes on as the code says.
-/

namespace Coroutine

/-- What has been rendered: the blocks that have not been put into another, and the exits of all. -/
structure Rendered where
  blocks : List (Nat × Block) := []
  exits : List (Nat × List RegionExit) := []

namespace Assembly

/-- A part of assembly. -/
abbrev Assemble := StateT Rendered (Except BuildError)

/-- What the states of a region are rendered with. -/
structure Place where
  resolve : Expr.Resolver
  region : Nat
  /-- Whether jumps to the state that comes next are left out. -/
  elide : Bool
  /-- The state that comes next. -/
  next : Option Nat

/-- An expression ready to be evaluated. -/
def Place.compile (p : Place) (e : Expr) : Except BuildError CompiledExpr := do
  return ⟨e, ← Code.build p.resolve true e⟩

/-- Several expressions ready to be evaluated. -/
def Place.compileAll (p : Place) : List Expr → Except BuildError (List CompiledExpr)
  | [] => return []
  | e :: es => do
    let c ← p.compile e
    return c :: (← p.compileAll es)

/-- A jump to a state, unless it comes next anyway. -/
def Place.jump (p : Place) (target : Nat) : List Instr :=
  if p.elide && p.next == some target then [] else [.goto (.state target)]

/-- The error that a region has no block to be put here. -/
def Place.missing (p : Place) (region : Nat) : BuildError :=
  .danglingTarget ("region " ++ toString p.region) ("region " ++ toString region)

/-- The exits of a rendered region. -/
def regionExits (p : Place) (region : Nat) : Assemble (List RegionExit) := do
  match (← get).exits.lookup region with
  | some exits => return exits
  | none => throw (p.missing region)

/-- Takes the block of a rendered region. -/
def takeRegion (p : Place) (region : Nat) : Assemble (Block × List RegionExit) := do
  match (← get).blocks.lookup region with
  | none => throw (p.missing region)
  | some block =>
    modify fun r => { r with blocks := r.blocks.filter (·.1 != region) }
    return (block, ← regionExits p region)

/-- The arms of a switch. -/
def renderArms (p : Place) : List SwitchArm → Except BuildError (List (List CompiledExpr × Target))
  | [] => return []
  | ⟨tests, body⟩ :: arms => do
    let tests ← p.compileAll tests
    return (tests, .state body) :: (← renderArms p arms)

/-- The instructions that run a protected region. -/
def renderRegion (p : Place) (owner : Nat) (t : RegionEntry) : Assemble (List Instr) := do
  let reset ← p.compile (.constant (.int (Int64.ofInt notLeft)))
  let (block, exits) ← takeRegion p t.region
  let region : TryRegion :=
    { owner, block, tryState := t.tryState, exception := t.exception
      handlers := t.handlers.map fun h => (h.filter, h.code)
      catchAll := t.cleanup.isSome
      exits }
  let after := match t.cleanup with
    | some cleanup => p.jump cleanup
    | none =>
      let cases := (t.handlers.map fun h => (h.code, Target.state h.body))
        ++ exits.map fun e => (e.code, e.target)
      [.dispatch t.tryState t.exception cases false (.state t.join)]
  return [.assign t.tryState reset, .label (.reentry owner), .region region] ++ after

/-- The instructions of a transition. -/
def renderTransition (p : Place) (source : Nat) : Transition → Assemble (List Instr)
  | .goto target | .loop target => return p.jump target
  | .conditional test ifTrue ifFalse => do
    let test ← p.compile test
    return .gotoIf test (.state ifTrue) :: p.jump ifFalse
  | .switch value arms fallback => do
    let value ← p.compile value
    return [.switch value (← renderArms p arms) (.state fallback)]
  | .tryCatch t => renderRegion p source t
  | .cleanupExit e => do
    let exits ← regionExits p e.region
    return [.dispatch e.tryState e.exception (exits.map fun e => (e.code, e.target)) true
      (.state e.join)]
  | .await a => do
    let awaitable ← p.compile a.awaitable
    return [.getAwaiter awaitable a.awaiter a.binder a.configure,
      .gotoIfCompleted a.awaiter a.binder (.state a.completion), .setState a.completion,
      .register a.awaiter a.binder, .suspend .await]
  | .awaitResult a => return .getResult a.awaiter a.binder a.result :: p.jump a.target
  | .yieldReturn value resume => do
    let value ← p.compile value
    return [.setCurrent value, .setState resume, .suspend .yield]
  | .yieldBreak => return [.yieldBreak]
  | .finish none => return [.finish none]
  | .finish (some value) => do
    let value ← p.compile value
    return [.finish (some value)]

/-- The instructions of a state. -/
def renderState (p : Place) (id : Nat) (s : State) : Assemble (List Instr) := do
  let evals ← p.compileAll s.expressions
  let result ← match s.result with
    | none => pure []
    | some (x, e) => do
      let value ← p.compile e
      pure [Instr.assign x value]
  match s.transition with
  | none => throw (.danglingTarget (stateText id) "<no transition>")
  | some t =>
    let rest ← renderTransition p id t
    return .label (.state id) :: (evals.map Instr.eval ++ result ++ rest)

/-- The instructions of states that come one after the other. -/
def renderStates (g : Graph) (resolve : Expr.Resolver) (region : Nat) (elide : Bool) :
    List Nat → Assemble (List Instr)
  | [] => return []
  | id :: ids => do
    let instrs ← renderState ⟨resolve, region, elide, ids.head?⟩ id (g.state id)
    return instrs ++ (← renderStates g resolve region elide ids)

/-! ## Exits -/

/-- The labels that instructions let expressions jump to, each once. -/
def escapes (instrs : List Instr) : List Nat :=
  ((instrs.flatMap Instr.exprs).flatMap fun e => e.code.escapes).eraseDups

/-- The targets that expressions jump to, with their labels' names. -/
def escapeTargets (g : Graph) : List Nat → Except BuildError (List (Target × String))
  | [] => return []
  | label :: labels =>
    match g.labels.lookup label with
    | none => throw (.jumpIntoExpression (labelText label))
    | some b => do return (.state b.state, labelText label) :: (← escapeTargets g labels)

/-- The targets of a list outside a block, each once, in order. -/
def outside (instrs : List Instr) (targets : List (Target × String)) : List (Target × String) :=
  (targets.filter fun (t, _) => !instrs.any (·.isLabel t)).foldl
    (fun seen t => if seen.any (·.1 == t.1) then seen else seen ++ [t]) []

/-- The number of handlers of a region. -/
def handlerCount (g : Graph) (region : Nat) : Nat :=
  match (g.zone region).owner.bind fun owner => (g.state owner).transition with
  | some (.tryCatch t) => t.handlers.length
  | _ => 0

/-- The exits of a region towards targets outside it, numbered from a code on. -/
def exitCodes (g : Graph) (region : Nat) (code : Int) :
    List (Target × String) → Except BuildError (List RegionExit)
  | [] => return []
  | (target, name) :: targets =>
    match target with
    | .reentry _ => throw (.danglingTarget ("region " ++ toString region) name)
    | .state id =>
      let s := g.state id
      if s.pruned || s.region == region then
        throw (.danglingTarget ("region " ++ toString region) name)
      else if !g.encloses s.region region then throw (.jumpIntoTry name)
      else do return ⟨code, target⟩ :: (← exitCodes g region (code + 1) targets)

/-- The exits of a region: all targets that its block jumps to and does not hold. -/
def regionExitsOf (g : Graph) (region : Nat) (instrs : List Instr) :
    Except BuildError (List RegionExit) := do
  let jumps := (instrs.flatMap Instr.targets).map fun t => (t, t.text)
  let labels ← escapeTargets g (escapes instrs)
  exitCodes g region (handlerCount g region + 1) (outside instrs (jumps ++ labels))

/-! ## Tables -/

/-- The region directly inside one region that is or lies around another. -/
def childToward (g : Graph) (region inner : Nat) : Nat :=
  ((g.regionChain inner).takeWhile (· != region)).getLastD inner

/-- The entry of a region's table for a state to resume at. -/
def tableRow? (g : Graph) (region id : Nat) : Option TableRow :=
  let home := (g.state id).region
  if home = region then some ⟨id, .state id, false⟩
  else if g.encloses region home then
    (g.zone (childToward g region home)).owner.map fun owner => ⟨id, .reentry owner, true⟩
  else none

/-- The table of a region. -/
def table (g : Graph) (region : Nat) : List TableRow :=
  g.resumeStates.filterMap (tableRow? g region)

/-- Renders a region. -/
def render (g : Graph) (resolve : Expr.Resolver) (elide : Bool) (region : Nat) : Assemble Unit := do
  let instrs ← renderStates g resolve region elide (g.regionNodes region)
  let exits ← regionExitsOf g region instrs
  let block : Block := ⟨region, table g region, instrs.toArray⟩
  modify fun r => ⟨(region, block) :: r.blocks, (region, exits) :: r.exits⟩

/-- Whether a region is entered at all. -/
def isEntered (g : Graph) (region : Nat) : Bool :=
  region == Graph.top ||
    match (g.zone region).owner with
    | some owner => !(g.state owner).pruned && (g.regionStart? region).isSome
    | none => false

/-- The regions to render, the deepest first. -/
def schedule (g : Graph) : List Nat :=
  (g.regions.filter (isEntered g)).mergeSort fun a b => g.regionDepth b ≤ g.regionDepth a

/-- Renders regions one after the other. -/
def renderAll (g : Graph) (resolve : Expr.Resolver) (elide : Bool) : List Nat → Assemble Unit
  | [] => pure ()
  | region :: regions => do
    render g resolve elide region
    renderAll g resolve elide regions

end Assembly

/-- The linear program of a state graph. -/
def Graph.assemble (g : Graph) (resolve : Expr.Resolver) (o : Options) :
    Except BuildError Program := do
  let ((), rendered) ←
    (Assembly.renderAll g resolve o.fallthroughElision (Assembly.schedule g)).run {}
  match rendered.blocks.lookup Graph.top with
  | none => throw (.danglingTarget g.name "<top block>")
  | some entry =>
    let live := g.labels.filter fun (_, b) => !(g.state b.state).pruned
    return {
      name := g.name
      kind := g.kind
      params := g.params
      vars := g.ownVars
      entry
      labels := live.map fun (l, b) => (l, ⟨.state b.state, b.var⟩)
      resumePoints := g.resumeStates.map Int.ofNat }

end Coroutine
