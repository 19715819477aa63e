import Coroutine.Json.Record

/-!
# Engine options

Which of the optional passes run, and the limits of a run. A document may leave any of them out.
-/

namespace Coroutine

/-- Options of lowering, assembly and execution. -/
structure Options where
  /-- Collapse states that do nothing. -/
  optimize : Bool := true
  /-- Drop states that nothing can reach. -/
  pruneUnreachable : Bool := true
  /-- Leave out jumps to the state that comes next. -/
  fallthroughElision : Bool := true
  /-- Keep the result of compiling a lambda. -/
  cacheLowering : Bool := true
  /-- How many steps one resumption may take. -/
  stepLimit : Option Nat := none
  /-- How many workers run a batch; zero means one per processor. -/
  workerThreads : Nat := 0
deriving DecidableEq, Repr, Inhabited

namespace Options

/-- No pass that is optional runs. -/
def unoptimized : Options :=
  { optimize := false, pruneUnreachable := false, fallthroughElision := false }

/-- The options without the optional passes. -/
def withoutPasses (o : Options) : Options :=
  { o with optimize := false, pruneUnreachable := false, fallthroughElision := false }

/-- The options with another step limit. -/
def withStepLimit (o : Options) (limit : Nat) : Options := { o with stepLimit := some limit }

/-- Options as a document. -/
def toJson (o : Options) : Json :=
  .object
    [("optimize", .bool o.optimize), ("prune_unreachable", .bool o.pruneUnreachable),
     ("fallthrough_elision", .bool o.fallthroughElision),
     ("cache_lowering", .bool o.cacheLowering), ("step_limit", .ofOption .nat o.stepLimit),
     ("worker_threads", .nat o.workerThreads)]

/-- Reads options. -/
def ofJson? (j : Json) : Option Options := do
  let [a, b, c, d, e, f] ← j.record? ["optimize", "prune_unreachable", "fallthrough_elision",
    "cache_lowering", "step_limit", "worker_threads"] | none
  let flag (j : Option Json) : Option Bool := (j.getD (.bool true)).bool?
  return {
    optimize := ← flag a
    pruneUnreachable := ← flag b
    fallthroughElision := ← flag c
    cacheLowering := ← flag d
    stepLimit := ← (e.getD .null).orNull? (Json.nat? 64)
    workerThreads := ← (f.getD (.nat 0)).nat? 64 }

end Options

end Coroutine
