import Coroutine.Machine.Basic
import Coroutine.Report.Error

/-!
# Reports of machines

What an observer sees of a machine after a resumption, and of what it waits for. A compiled machine
also shows its durable state.
-/

namespace Coroutine

/-- What a resumption came to, as fields of a record. -/
def reportStatus : Except RunError Status → Reporting (List (String × Json))
  | .ok .suspended => return [("status", .string "suspended")]
  | .ok (.yielded v) => return [("status", .string "yielded"), ("value", ← v.report)]
  | .ok (.completed v) => return [("status", .string "completed"), ("value", ← v.report)]
  | .error e => return [("status", .string "error"), ("value", ← e.report)]

/-- The state of a machine, as fields of a record. -/
def Machine.reportState (m : Machine) : Reporting (List (String × Json)) := do
  let durable := match m with
    | .compiled c => [("state", .int c.durable.state), ("success", .bool c.durable.success)]
    | .interpreted _ => []
  return ("done", .bool m.isCompleted) :: durable ++ [("current", ← m.current.report)]

/-- What a machine waits for, as fields of a record. -/
def Suspension.reportFields (s : Suspension) : Reporting (List (String × Json)) :=
  return [("awaiter", ← s.awaiter.report), ("binder", .string s.binder.typeName)]

/-- The report of what a machine may wait for. -/
def reportSuspension : Option Suspension → Reporting Json
  | none => return .null
  | some s => return .object (← s.reportFields)

end Coroutine
