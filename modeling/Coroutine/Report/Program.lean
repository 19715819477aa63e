import Coroutine.Graph.Simplify
import Coroutine.Program.Text
import Coroutine.Report.Code

/-!
# Reports of state graphs and linear programs
-/

namespace Coroutine

/-- The report of a region. -/
def Graph.reportRegion (g : Graph) (region : Nat) : Json :=
  .object
    [("id", .nat region), ("depth", .nat (g.regionDepth region)),
     ("parent", .ofOption .nat (g.parentRegion? region)),
     ("entry", .ofOption .nat (g.regionStart? region)),
     ("nodes", .ofList .nat (g.regionNodes region))]

/-- The report of a zone. -/
def Zone.report (z : Zone) : Json :=
  .array [.string z.kind.name, .ofOption .nat z.parent, .nat z.region, .ofOption .nat z.owner,
    .ofList .nat z.nodes]

/-- The report of a graph. -/
def Graph.report (g : Graph) : Json :=
  .object
    [("regions", .ofList g.reportRegion g.regions), ("resume", .ofList .nat g.resumeStates),
     ("live", .nat g.liveStates.length), ("scopes", .ofList Zone.report g.zones.toList)]

/-- The report of what simplification changed. -/
def Graph.Changes.report (c : Graph.Changes) : Json := .array [.nat c.collapsed, .nat c.pruned]

/-- The report of a transition. -/
def Transition.report (t : Transition) : Json :=
  .object
    [("kind", .string t.kindName), ("describe", .string t.text),
     ("references", .ofList .nat t.references), ("fallthrough", .ofOption .nat t.fallthrough?),
     ("resume", .ofOption .nat t.resumeTarget?), ("hint", .ofOption .nat t.layoutHint?)]

/-- The report of a table entry. -/
def TableRow.report (e : TableRow) : Json :=
  .array [.int e.state, .string e.target.text, .bool e.nested]

/-- The report of a block. -/
def Block.report (b : Block) : Json :=
  .object
    [("region", .nat b.region), ("table", .ofList TableRow.report b.table),
     ("instrs", .nat b.instrs.size)]

/-- The report of a label. -/
def LabelSlot.report (label : Nat) (s : LabelSlot) : Json :=
  .array [.nat label, .string s.target.text, .ofOption (fun x => .string x.name) s.var]

/-- The report of a program. -/
def Program.report (p : Program) : Json :=
  let labels := p.labels.mergeSort fun a b => a.1 ≤ b.1
  .object
    [("text", .string p.text), ("instructions", .nat p.entry.count),
     ("resume_points", .ofList .int p.resumePoints),
     ("labels", .ofList (fun (l, s) => s.report l) labels),
     ("blocks", .ofList Block.report p.entry.blocks)]

end Coroutine
