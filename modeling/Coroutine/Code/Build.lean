import Coroutine.Code.Basic

/-!
# Building code

`Expr.reduce` numbers the nodes of an expression from a given index on, each before its children,
and collects where labels are defined and where jumps start. `Code.build` then routes the jumps.

A nested lambda becomes code of its own, which no jump may leave.
-/

namespace Coroutine

/-- Where a label is defined. -/
inductive Site where
  /-- At a label node. -/
  | label (node : Nat)
  /-- As the break label of a loop. -/
  | loopEnd (node : Nat)
  /-- As the continue label of a loop. -/
  | loopStart (node : Nat)
deriving DecidableEq, Repr

/-- A run of nodes that belong to expressions side by side. -/
structure Fragment where
  /-- The nodes, numbered one after the other. -/
  nodes : List Node := []
  /-- The label definitions, in order; a later one of the same label counts. -/
  sites : List (Nat × Site) := []
  /-- The jumps, in the order in which their routes are looked for: node and label. -/
  jumps : List (Nat × Nat) := []
  /-- The indices of the expressions' own nodes. -/
  roots : List Nat := []

namespace Fragment

/-- Two runs, one after the other. -/
def append (a b : Fragment) : Fragment :=
  ⟨a.nodes ++ b.nodes, a.sites ++ b.sites, a.jumps ++ b.jumps, a.roots ++ b.roots⟩

instance : Append Fragment := ⟨append⟩

/-- The number of nodes. -/
def size (f : Fragment) : Nat := f.nodes.length

/-- The number of expressions. -/
def width (f : Fragment) : Nat := f.roots.length

end Fragment

/-- The place of an expression in code: its index, its parent, and its slot there. -/
structure Spot where
  id : Nat
  parent : Option Nat
  slot : Nat

namespace Spot

/-- The place of the first child. -/
def first (s : Spot) : Spot := ⟨s.id + 1, some s.id, 0⟩

/-- The place after some siblings. -/
def after (s : Spot) (f : Fragment) : Spot := ⟨s.id + f.size, s.parent, s.slot + f.width⟩

/-- The fragment of a node whose children are given. -/
def node (s : Spot) (op : Op) (children : Fragment) : Fragment :=
  { nodes := ⟨s.parent, s.slot, children.roots, op⟩ :: children.nodes
    sites := children.sites
    jumps := children.jumps
    roots := [s.id] }

end Spot

namespace Fragment

/-- Adds label definitions before all others. -/
def sitesFirst (sites : List (Nat × Site)) (f : Fragment) : Fragment :=
  { f with sites := sites ++ f.sites }

/-- Adds a label definition after all others. -/
def siteLast (label : Nat) (site : Site) (f : Fragment) : Fragment :=
  { f with sites := f.sites ++ [(label, site)] }

/-- Adds a jump after all others. -/
def jumpLast (node label : Nat) (f : Fragment) : Fragment :=
  { f with jumps := f.jumps ++ [(node, label)] }

end Fragment

/-! ## Slots -/

/-- The slots of the arms of a switch, from a slot on. -/
def caseSlots (slot : Nat) : List SwitchCase → List CaseSlots
  | [] => []
  | ⟨tests, _⟩ :: cs =>
    let body := slot + tests.length
    ⟨List.range' slot tests.length, body⟩ :: caseSlots (body + 1) cs

/-- The number of slots the arms of a switch take. -/
def caseWidth (cs : List SwitchCase) : Nat :=
  cs.foldr (fun c width => c.tests.length + 1 + width) 0

/-- The slots of the handlers of a try, from a slot on. -/
def handlerSlots (slot : Nat) : List Handler → List HandlerSlots
  | [] => []
  | ⟨filter, x, _⟩ :: hs => ⟨filter, x, slot⟩ :: handlerSlots (slot + 1) hs

/-- The definitions of a loop's labels. -/
def loopSites (id : Nat) (breakLabel continueLabel : Option Label) : List (Nat × Site) :=
  (breakLabel.toList.map fun l => (l.id, Site.loopEnd id))
    ++ continueLabel.toList.map fun l => (l.id, Site.loopStart id)

/-! ## Routes -/

/-- A node and its ancestors, from the inside out. -/
def ancestors (nodes : Array Node) : Nat → Nat → List Nat
  | 0, _ => []
  | fuel + 1, id =>
    id :: match nodes[id]? with
      | some ⟨some parent, _, _, _⟩ => ancestors nodes fuel parent
      | _ => []

/-- A node and all its ancestors. Parents have smaller indices, so their number is bounded. -/
def lineage (nodes : Array Node) (id : Nat) : List Nat := ancestors nodes (id + 1) id

/-- The slot of a node. -/
def slotOf (nodes : Array Node) (id : Nat) : Nat := (nodes.getD id default).slot

/-- Whether a jump may pass through a node on its way down to a label. -/
def passable (nodes : Array Node) (label : String) (id : Nat) : Except BuildError Unit :=
  match (nodes.getD id default).op with
  | .block _ => .ok ()
  | .tryCatch .. => .error (.jumpIntoTry label)
  | _ => .error (.jumpIntoExpression label)

/-- The route of a jump, given where its label is defined. -/
def route (nodes : Array Node) (allowEscape : Bool) (jump label : Nat) :
    Option Site → Except BuildError Route
  | none => if allowEscape then .ok .escape else .error (.unresolvedLabel (labelText label))
  | some (.loopEnd loop) =>
    if (lineage nodes jump).contains loop then .ok (.within loop [] .toBreak)
    else .error (.jumpIntoExpression (labelText label))
  | some (.loopStart loop) =>
    if (lineage nodes jump).contains loop then .ok (.within loop [] .toContinue)
    else .error (.jumpIntoExpression (labelText label))
  | some (.label target) => do
    let above := lineage nodes jump
    -- from the label up to, and without, the nearest common ancestor
    let down := (lineage nodes target).takeWhile fun id => !above.contains id
    match (lineage nodes target).drop down.length, down with
    | ancestor :: _, _ :: crossed =>
      passable nodes (labelText label) ancestor
      crossed.forM (passable nodes (labelText label))
      return .within ancestor (down.map (slotOf nodes)).reverse .toLabel
    | _, _ => throw (.jumpIntoExpression (labelText label))

/-- Sets the route of a jump. -/
def Node.withRoute (r : Route) (n : Node) : Node :=
  match n.op with
  | .goto label hasValue _ => { n with op := .goto label hasValue r }
  | _ => n

/-- Routes jumps one after the other. -/
def routeJumps (allowEscape : Bool) (sites : List (Nat × Site)) :
    List (Nat × Nat) → Code → Except BuildError Code
  | [], c => .ok c
  | (jump, label) :: jumps, c => do
    let site := (sites.reverse.lookup label)
    let r ← route c.nodes allowEscape jump label site
    let escapes :=
      if r = .escape && !c.escapes.contains label then c.escapes ++ [label] else c.escapes
    routeJumps allowEscape sites jumps ⟨c.nodes.modify jump (Node.withRoute r), escapes⟩

/-- Code from the nodes of one expression. -/
def Fragment.toCode (allowEscape : Bool) (f : Fragment) : Except BuildError Code :=
  routeJumps allowEscape f.sites f.jumps ⟨f.nodes.toArray, []⟩

namespace Expr

/-- How the names of awaitable types are resolved. -/
abbrev Resolver := String → Except BuildError Binder

mutual

/-- The nodes of an expression at a place. -/
def reduce (resolve : Resolver) (s : Spot) : Expr → Except BuildError Fragment
  | .constant v => return s.node (.constant v) {}
  | .var x => return s.node (.var x) {}
  | .assign x value => return s.node (.assign x) (← value.reduce resolve s.first)
  | .binary op left right => do
    let a ← left.reduce resolve s.first
    let b ← right.reduce resolve (s.first.after a)
    return s.node (.binary op) (a ++ b)
  | .unary op operand => return s.node (.unary op) (← operand.reduce resolve s.first)
  | .call function args => return s.node (.call function) (← reduceList resolve s.first args)
  | .invoke target args => do
    let a ← target.reduce resolve s.first
    let b ← reduceList resolve (s.first.after a) args
    return s.node .invoke (a ++ b)
  | .lambda ⟨name, _, params, body⟩ => do
    let f ← body.reduce resolve ⟨0, none, 0⟩
    let code ← f.toCode false
    return s.node (.lambda ⟨name.getD "<lambda>", params, code⟩) {}
  | .block vars body =>
    return s.node (.block vars) (← reduceList resolve s.first body)
  | .condition test ifTrue none => do
    let a ← test.reduce resolve s.first
    let b ← ifTrue.reduce resolve (s.first.after a)
    return s.node (.condition false) (a ++ b)
  | .condition test ifTrue (some ifFalse) => do
    let a ← test.reduce resolve s.first
    let b ← ifTrue.reduce resolve (s.first.after a)
    let c ← ifFalse.reduce resolve (s.first.after (a ++ b))
    return s.node (.condition true) (a ++ b ++ c)
  | .switch value cases none => do
    let a ← value.reduce resolve s.first
    let b ← reduceCases resolve (s.first.after a) cases
    return s.node (.switch (caseSlots 1 cases) none) (a ++ b)
  | .switch value cases (some fallback) => do
    let a ← value.reduce resolve s.first
    let b ← reduceCases resolve (s.first.after a) cases
    let c ← fallback.reduce resolve (s.first.after (a ++ b))
    return s.node (.switch (caseSlots 1 cases) (some (1 + caseWidth cases))) (a ++ b ++ c)
  | .loop body breakLabel continueLabel => do
    let a ← body.reduce resolve s.first
    return (s.node .loop a).sitesFirst (loopSites s.id breakLabel continueLabel)
  | .goto _ target none =>
    return (s.node (.goto target.id false .escape) {}).jumpLast s.id target.id
  | .goto _ target (some value) => do
    let a ← value.reduce resolve s.first
    return (s.node (.goto target.id true .escape) a).jumpLast s.id target.id
  | .label target none =>
    return (s.node (.label target.id) {}).siteLast target.id (.label s.id)
  | .label target (some fallback) => do
    let a ← fallback.reduce resolve s.first
    return (s.node (.label target.id) a).siteLast target.id (.label s.id)
  | .tryCatch body handlers none => do
    let a ← body.reduce resolve s.first
    let b ← reduceHandlers resolve (s.first.after a) handlers
    return s.node (.tryCatch (handlerSlots 1 handlers) none) (a ++ b)
  | .tryCatch body handlers (some cleanup) => do
    let a ← body.reduce resolve s.first
    let b ← reduceHandlers resolve (s.first.after a) handlers
    let c ← cleanup.reduce resolve (s.first.after (a ++ b))
    return s.node (.tryCatch (handlerSlots 1 handlers) (some (1 + handlers.length)))
      (a ++ b ++ c)
  | .throw none => return s.node .rethrow {}
  | .throw (some value) => return s.node .throw (← value.reduce resolve s.first)
  | .await awaitable type configure => do
    let a ← awaitable.reduce resolve s.first
    let binder ← resolve type
    return s.node (.await binder configure) a
  | .yieldReturn value => return s.node .yieldReturn (← value.reduce resolve s.first)
  | .yieldBreak => return s.node .yieldBreak {}

/-- The nodes of expressions side by side. -/
def reduceList (resolve : Resolver) (s : Spot) : List Expr → Except BuildError Fragment
  | [] => return {}
  | e :: es => do
    let a ← e.reduce resolve s
    let b ← reduceList resolve (s.after a) es
    return a ++ b

/-- The nodes of the arms of a switch. -/
def reduceCases (resolve : Resolver) (s : Spot) : List SwitchCase → Except BuildError Fragment
  | [] => return {}
  | ⟨tests, body⟩ :: cs => do
    let a ← reduceList resolve s tests
    let b ← body.reduce resolve (s.after a)
    let c ← reduceCases resolve (s.after (a ++ b)) cs
    return a ++ b ++ c

/-- The nodes of the handlers of a try. -/
def reduceHandlers (resolve : Resolver) (s : Spot) : List Handler → Except BuildError Fragment
  | [] => return {}
  | ⟨_, _, body⟩ :: hs => do
    let a ← body.reduce resolve s
    let b ← reduceHandlers resolve (s.after a) hs
    return a ++ b

end

end Expr

/-- The code of an expression. Jumps to labels that it does not define escape, or are errors. -/
def Code.build (resolve : Expr.Resolver) (allowEscape : Bool) (e : Expr) :
    Except BuildError Code := do
  let f ← e.reduce resolve ⟨0, none, 0⟩
  f.toCode allowEscape

end Coroutine
