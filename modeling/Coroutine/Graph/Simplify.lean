import Coroutine.Graph.Basic
import Coroutine.Options

/-!
# Simplification

Three passes over a state graph. `collapse` lets every reference to a state that does nothing but go
on pass it by, within its region; a cycle of such states keeps one of them. `prune` removes the
states that nothing can reach. `layout` gives the states of every region their order of emission,
each followed by its natural successor where possible.

States keep their numbers: a state that is not needed any more is only marked.
-/

namespace Coroutine

namespace Graph

/-! ## States that do nothing -/

/-- The state a no-op goes on to, if that lies in the same region. -/
def bypass? (g : Graph) (id : Nat) : Option Nat :=
  let s := g.state id
  match s.transition with
  | some (.goto target) =>
    if !s.pruned && s.isNoop && (g.state target).region == s.region then some target else none
  | _ => none

/-- Follows no-ops from a state. `memo` holds the ends that are known already, `chain` the states
passed on the way, and a state met again ends the way. -/
def follow (g : Graph) (memo : Array (Option Nat)) : Nat → List Nat → Nat → Nat × List Nat
  | 0, chain, cursor => (cursor, chain)
  | fuel + 1, chain, cursor =>
    match memo.getD cursor none with
    | some finish => (finish, chain)
    | none =>
      if chain.contains cursor then (cursor, chain)
      else
        match g.bypass? cursor with
        | some next => g.follow memo fuel (cursor :: chain) next
        | none => (cursor, chain)

/-- Finds the end of a state's way and notes it for all states passed. -/
def resolve (g : Graph) (memo : Array (Option Nat)) (id : Nat) : Array (Option Nat) :=
  let (finish, chain) := g.follow memo (g.states.size + 1) [] id
  (id :: chain).foldl (fun memo member => memo.setIfInBounds member (some finish)) memo

/-- The end of every state's way. -/
def resolveAll (g : Graph) : Array (Option Nat) :=
  (List.range g.states.size).foldl g.resolve (Array.replicate g.states.size none)

/-- Lets all references pass by the states that do nothing. Counts the states passed by. -/
def collapse (g : Graph) : Nat × Graph :=
  let ends := g.resolveAll
  let remap (id : Nat) : Nat := (ends.getD id none).getD id
  let simplify (id : Nat) (s : State) : State :=
    if s.pruned then s
    else
      { s with
        transition := s.transition.map (·.mapReferences remap)
        pruned := remap id != id }
  let count := g.liveStates.countP fun (id, _) => remap id != id
  (count, { g with
    states := g.states.mapIdx simplify
    entry := remap g.entry
    labels := g.labels.map fun (l, b) => (l, { b with state := remap b.state }) })

/-! ## States that nothing reaches -/

/-- The states that a state leads to. -/
def successors (g : Graph) (id : Nat) : List Nat :=
  match (g.state id).transition with
  | some t => t.references
  | none => []

/-- Adds all that can be reached from the states of a list. -/
def reach (g : Graph) : Nat → List Nat → List Nat → List Nat
  | 0, _, seen => seen
  | _ + 1, [], seen => seen
  | fuel + 1, id :: queue, seen =>
    if seen.contains id || (g.state id).pruned then g.reach fuel queue seen
    else g.reach fuel (queue ++ g.successors id) (id :: seen)

/-- Where runs start: the entry, and the labels that expressions may jump to. -/
def roots (g : Graph) : List Nat := g.entry :: g.labels.map fun (_, b) => b.state

/-- The states that runs can reach. Every state is expanded once, which bounds the search. -/
def reachable (g : Graph) : List Nat :=
  let references := g.states.toList.flatMap fun s =>
    (s.transition.map Transition.references).getD []
  g.reach (g.roots.length + references.length + 1) g.roots []

/-- Removes the states that no run can reach. Counts them. -/
def prune (g : Graph) : Nat × Graph :=
  let seen := g.reachable
  let count := g.liveStates.countP fun (id, _) => !seen.contains id
  (count, { g with states := g.states.mapIdx fun id s =>
    if seen.contains id then s else { s with pruned := true } })

/-! ## Order of emission -/

/-- Places states one after the other: the preferred successor of the last one if it is still to be
placed, otherwise the first that is. -/
def place (g : Graph) : Nat → List Nat → Option Nat → List Nat
  | 0, _, _ => []
  | fuel + 1, remaining, cursor =>
    match (cursor.filter remaining.contains) <|> remaining.head? with
    | none => []
    | some id =>
      id :: g.place fuel (remaining.filter (· != id))
        ((g.state id).transition.bind Transition.layoutHint?)

/-- The order of emission of a region's states; none if the region is never entered. -/
def placement (g : Graph) (region : Nat) : List Nat :=
  match g.regionStart? region with
  | none => []
  | some start =>
    let live := g.liveNodes region
    g.place live.length live (some start)

/-- Sets the order of the states of a list. -/
def setOrders (g : Graph) (ids : List Nat) : Graph :=
  ids.zipIdx.foldl (fun g (id, order) => g.modifyState id fun s => { s with order }) g

/-- Orders the states of every region. -/
def layout (g : Graph) : Graph :=
  g.regions.foldl (fun g region => g.setOrders (g.placement region)) g

/-! ## All passes -/

/-- What simplification changed. -/
structure Changes where
  collapsed : Nat := 0
  pruned : Nat := 0
deriving DecidableEq, Repr

/-- Runs the passes that the options ask for. -/
def simplify (g : Graph) (o : Options) : Changes × Graph :=
  let (collapsed, g) := if o.optimize then g.collapse else (0, g)
  let (pruned, g) := if o.pruneUnreachable then g.prune else (0, g)
  (⟨collapsed, pruned⟩, g.layout)

end Graph

end Coroutine
