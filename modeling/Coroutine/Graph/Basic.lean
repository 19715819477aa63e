import Coroutine.Graph.Transition

/-!
# State graphs

A program split into states, each of which runs without interruption. States are grouped into zones
that follow the structured constructs they come from. Zones open and close while the graph is built.
When the zone of a loop, a handler or a cleanup closes, its states join those of the zone around it;
the zone of a protected body keeps its states and is a *region*, emitted as a block of its own. The
top zone is the outermost region.

States and zones are numbered in the order of their creation.
-/

namespace Coroutine

/-- The construct a zone belongs to. -/
inductive ZoneKind where
  | top
  | loop
  /-- The protected body of a try. -/
  | guarded
  | handler
  | cleanup
deriving DecidableEq, Repr, Inhabited

/-- Whether a zone is emitted as a block of its own. -/
def ZoneKind.isRegion : ZoneKind → Bool
  | .top | .guarded => true
  | .loop | .handler | .cleanup => false

/-- The name of a kind of zone. -/
def ZoneKind.name : ZoneKind → String
  | .top => "top"
  | .loop => "loop"
  | .guarded => "try"
  | .handler => "catch"
  | .cleanup => "finally"

/-- A group of states. -/
structure Zone where
  kind : ZoneKind
  parent : Option Nat
  /-- The region it is emitted in: itself, if it is one. -/
  region : Nat
  /-- Its states in the order of creation, with those of closed zones inside it. -/
  nodes : List Nat := []
  /-- The state that enters a protected region. -/
  owner : Option Nat := none
deriving Inhabited

/-- A segment of a program that runs without interruption. -/
structure State where
  zone : Nat
  region : Nat
  /-- Its place in the emission of its region. -/
  order : Nat := 0
  expressions : List Expr := []
  /-- A value kept in a variable after the expressions. -/
  result : Option (Var × Expr) := none
  transition : Option Transition := none
  /-- Whether it was removed. -/
  pruned : Bool := false
deriving Inhabited

/-- Whether a state does nothing but go on to another. -/
def State.isNoop (s : State) : Bool :=
  match s.expressions, s.result, s.transition with
  | [], none, some (.goto _) => true
  | _, _, _ => false

/-- Where a label lands, and the variable that takes the value of a jump to it. -/
structure LabelBinding where
  state : Nat
  var : Option Var
deriving DecidableEq, Repr, Inhabited

/-- A state graph. -/
structure Graph where
  name : String
  kind : LambdaKind
  params : List Var
  states : Array State := #[]
  zones : Array Zone
  entry : Nat := 0
  labels : List (Nat × LabelBinding) := []
  /-- The variables of blocks and the temporaries. -/
  vars : List Var := []
  /-- The open zones, the innermost first. -/
  openZones : List Nat

namespace Graph

/-- The number of the top zone. -/
def top : Nat := 0

/-- A state by its number. -/
def state (g : Graph) (id : Nat) : State := g.states.getD id default

/-- A zone by its number. -/
def zone (g : Graph) (id : Nat) : Zone := g.zones.getD id default

/-! ## Building -/

/-- The innermost open zone. -/
def currentZone (g : Graph) : Nat := g.openZones.headD top

/-- Changes a state. -/
def modifyState (g : Graph) (id : Nat) (f : State → State) : Graph :=
  { g with states := g.states.modify id f }

/-- Changes a zone. -/
def modifyZone (g : Graph) (id : Nat) (f : Zone → Zone) : Graph :=
  { g with zones := g.zones.modify id f }

/-- Adds an empty state to the innermost open zone. -/
def addState (g : Graph) : Nat × Graph :=
  let zone := g.currentZone
  let id := g.states.size
  let g := { g with states := g.states.push { zone, region := (g.zone zone).region } }
  (id, g.modifyZone zone fun z => { z with nodes := z.nodes ++ [id] })

/-- A graph with one empty state. -/
def new (name : String) (kind : LambdaKind) (params : List Var) : Graph :=
  let zones := #[{ kind := .top, parent := none, region := top }]
  let g : Graph := { name, kind, params, zones, openZones := [top] }
  g.addState.2

/-- Opens a zone inside the innermost one. -/
def enterZone (g : Graph) (kind : ZoneKind) : Nat × Graph :=
  let parent := g.currentZone
  let id := g.zones.size
  let region := if kind.isRegion then id else (g.zone parent).region
  (id, { g with
    zones := g.zones.push { kind, parent := some parent, region }
    openZones := id :: g.openZones })

/-- Closes the innermost zone. The states of one that is no region join those of its parent. -/
def exitZone (g : Graph) : Nat × Graph :=
  match g.openZones with
  | [] => (top, g)
  | id :: rest =>
    let z := g.zone id
    let g := { g with openZones := rest }
    match z.kind.isRegion, z.parent with
    | false, some parent =>
      (id, g.modifyZone parent fun p => { p with nodes := p.nodes ++ z.nodes })
    | _, _ => (id, g)

/-- Sets the state that enters a region. -/
def setOwner (g : Graph) (region owner : Nat) : Graph :=
  g.modifyZone region fun z => { z with owner := some owner }

/-- Sets how control leaves a state. -/
def setTransition (g : Graph) (id : Nat) (t : Transition) : Graph :=
  g.modifyState id fun s => { s with transition := some t }

/-- Adds an expression to a state. -/
def pushExpression (g : Graph) (id : Nat) (e : Expr) : Graph :=
  g.modifyState id fun s => { s with expressions := s.expressions ++ [e] }

/-- Sets the value that a state keeps. -/
def setResult (g : Graph) (id : Nat) (x : Var) (e : Expr) : Graph :=
  g.modifyState id fun s => { s with result := some (x, e) }

/-- Binds a label, which must not be bound yet. -/
def bindLabel (g : Graph) (label : Nat) (b : LabelBinding) : Except BuildError Graph :=
  if (g.labels.lookup label).isSome then .error (.duplicateLabel (labelText label))
  else .ok { g with labels := g.labels ++ [(label, b)] }

/-- Adds a variable, unless it is there already. -/
def declare (g : Graph) (x : Var) : Graph :=
  if g.vars.any (·.id == x.id) then g else { g with vars := g.vars ++ [x] }

/-- The variables that are kept, each under a word of its own. -/
def ownVars (g : Graph) : List Var := Var.apart g.vars

/-! ## Regions -/

/-- The regions, in the order of their numbers. -/
def regions (g : Graph) : List Nat :=
  (List.range g.zones.size).filter fun id => (g.zone id).kind.isRegion

/-- The region around a region. -/
def parentRegion? (g : Graph) (region : Nat) : Option Nat :=
  (g.zone region).parent.map fun p => (g.zone p).region

/-- A region and those around it, from the inside out, as far as the fuel goes. -/
def regionsFrom (g : Graph) : Nat → Nat → List Nat
  | 0, _ => []
  | fuel + 1, region =>
    region :: match g.parentRegion? region with
      | some parent => g.regionsFrom fuel parent
      | none => []

/-- A region and all those around it. Zones are younger than the ones around them. -/
def regionChain (g : Graph) (region : Nat) : List Nat := g.regionsFrom (region + 1) region

/-- Whether a region is another one or lies around it. -/
def encloses (g : Graph) (outer region : Nat) : Bool := (g.regionChain region).contains outer

/-- How deep a region lies; the top one has depth zero. -/
def regionDepth (g : Graph) (region : Nat) : Nat := (g.regionChain region).length - 1

/-- The first state that runs in a region. -/
def regionStart? (g : Graph) (region : Nat) : Option Nat :=
  if region = top then some g.entry
  else do
    let owner ← (g.zone region).owner
    match (g.state owner).transition with
    | some (.tryCatch t) => some t.body
    | _ => none

/-- The states of a region that are left, in the order of creation. -/
def liveNodes (g : Graph) (region : Nat) : List Nat :=
  (g.zone region).nodes.filter fun id => !(g.state id).pruned

/-- The states of a region that are left, in the order of emission. -/
def regionNodes (g : Graph) (region : Nat) : List Nat :=
  (g.liveNodes region).mergeSort fun a b => (g.state a).order ≤ (g.state b).order

/-! ## The whole graph -/

/-- The states that are left, with their numbers. -/
def liveStates (g : Graph) : List (Nat × State) :=
  (g.states.toList.zipIdx.map fun (s, id) => (id, s)).filter fun (_, s) => !s.pruned

/-- The states where a suspended machine resumes, in the order of their numbers. -/
def resumeStates (g : Graph) : List Nat :=
  let targets := g.liveStates.filterMap fun (_, s) => s.transition.bind Transition.resumeTarget?
  (targets.mergeSort (· ≤ ·)).eraseReps

/-- Lets the states of a list that have no transition yet go on to the next one. The last one must
have a transition. -/
def sealNodes (g : Graph) : List Nat → Except BuildError Unit × Graph
  | [] => (.ok (), g)
  | [last] =>
    if (g.state last).transition.isNone then
      (.error (.danglingTarget (stateText last) "<end of scope>"), g)
    else (.ok (), g)
  | id :: next :: rest =>
    let g := if (g.state id).transition.isNone then g.setTransition id (.goto next) else g
    g.sealNodes (next :: rest)

/-- Seals zones one after the other, up to the first that fails. -/
def sealZones (g : Graph) : List Nat → Except BuildError Unit × Graph
  | [] => (.ok (), g)
  | z :: zs =>
    match g.sealNodes (g.zone z).nodes with
    | (.ok (), g) => g.sealZones zs
    | (.error e, g) => (.error e, g)

/-- Gives every state a transition: one that has none goes on to the next of its zone. -/
def close (g : Graph) : Except BuildError Unit × Graph := g.sealZones (List.range g.zones.size)

/-- Whether a state exists and was not removed. -/
def isLive (g : Graph) (id : Nat) : Bool :=
  match g.states[id]? with
  | some s => !s.pruned
  | none => false

/-- Checks that a state has a transition and that the states it names are there. -/
def validateState (g : Graph) (id : Nat) (s : State) : Except BuildError Unit :=
  match s.transition with
  | none => .error (.danglingTarget (stateText id) "<no transition>")
  | some t =>
    match t.references.find? fun r => !g.isLive r with
    | some r => .error (.danglingTarget (stateText id) (stateText r))
    | none => .ok ()

/-- Checks every state that is left. -/
def validate (g : Graph) : Except BuildError Unit :=
  g.liveStates.forM fun (id, s) => g.validateState id s

end Graph

end Coroutine
