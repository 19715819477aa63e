import Coroutine.Graph.Basic

/-!
# The text of a state graph

A listing of the regions with their states in the order of emission, one expression or transition
to a line.
-/

namespace Coroutine

/-- A line of text. -/
def textLine (s : String) : String := s ++ "\n"

namespace Graph

/-- The lines of a state. -/
def stateLines (g : Graph) (id : Nat) : List String :=
  let s := g.state id
  let result := s.result.toList.map fun (x, e) => "    " ++ x.name ++ " = " ++ e.text
  let transition := match s.transition with
    | some t => t.text
    | none => "<open>"
  ["  " ++ stateText id ++ ":"] ++ s.expressions.map (fun e => "    " ++ e.text) ++ result
    ++ ["    => " ++ transition]

/-- The lines of a region. -/
def regionLines (g : Graph) (region : Nat) : List String :=
  match g.regionNodes region with
  | [] => []
  | nodes =>
    let header := match (g.zone region).owner with
      | some owner => " (try, entered by " ++ stateText owner ++ ") \x7b"
      | none => " \x7b"
    ["region " ++ toString region ++ header] ++ nodes.flatMap g.stateLines ++ ["\x7d"]

/-- The line of a label. -/
def labelLine (label : Nat) (b : LabelBinding) : String :=
  let var := match b.var with
    | some x => " (" ++ x.name ++ ")"
    | none => ""
  "; label " ++ labelText label ++ " -> " ++ stateText b.state ++ var

/-- The listing of a graph. -/
def text (g : Graph) : String :=
  let vars := if g.ownVars.isEmpty then [] else ["; variables: " ++ varNames g.ownVars]
  let labels := g.labels.mergeSort fun a b => a.1 ≤ b.1
  String.join <| List.map textLine <|
    ["; " ++ g.kind.name ++ " " ++ g.name ++ "(" ++ varNames g.params ++ ")"] ++ vars
      ++ ["; entry " ++ stateText g.entry] ++ g.regions.flatMap g.regionLines
      ++ labels.map fun (l, b) => labelLine l b

end Graph

end Coroutine
