import Coroutine.Graph.Lowering
import Coroutine.Machine.Basic
import Coroutine.Program.Assembly

/-!
# Compilation

From a lambda to a machine that runs it: `Lambda.compile` lowers, simplifies and assembles it;
`Lambda.launch` makes a machine of either kind. A `Compiler` keeps what it has compiled, by the
identity of the lambda.
-/

namespace Coroutine

/-- A compiled lambda: its simplified graph and its linear program. -/
structure Compiled where
  graph : Graph
  program : Program

/-- Compiles a lambda. -/
def Lambda.compile (resolve : Expr.Resolver) (o : Options) (l : Lambda) :
    Except BuildError Compiled := do
  let raw ← l.lower resolve
  let graph := (raw.simplify o).2
  let program ← graph.assemble resolve o
  return ⟨graph, program⟩

/-- The two ways to run a lambda. -/
inductive Engine where
  | compiled
  | interpreted
deriving DecidableEq, Repr

/-- Makes a machine for a lambda with its arguments. -/
def Lambda.launch {σ : Type} (engine : Engine) (resolve : Expr.Resolver) (o : Options) (l : Lambda)
    (args : List Value) (w : World σ) : Except RunError (Machine × World σ) :=
  match engine with
  | .compiled =>
    match l.compile resolve o with
    | .error e => .error (.build e)
    | .ok c => (CompiledMachine.new c.program o.stepLimit args w).map fun (m, w) => (.compiled m, w)
  | .interpreted =>
    match l.prepare resolve with
    | .error e => .error (.build e)
    | .ok p => (InterpretedMachine.new p o.stepLimit args w).map fun (m, w) => (.interpreted m, w)

/-- A compiled lambda as an object with an identity. -/
structure CompiledObject where
  compiled : Compiled
  id : Nat

/-- Compiles lambdas and keeps the results. -/
structure Compiler where
  resolve : Expr.Resolver
  options : Options
  cache : List (Nat × CompiledObject) := []
  /-- The number of results made so far. -/
  made : Nat := 0

namespace Compiler

/-- Compiles anew. -/
def compileNew (c : Compiler) (l : Lambda) : Except BuildError CompiledObject × Compiler :=
  match l.compile c.resolve c.options with
  | .ok compiled => (.ok ⟨compiled, c.made⟩, { c with made := c.made + 1 })
  | .error e => (.error e, c)

/-- Compiles a lambda, known by its identity, or gives what was kept for it. -/
def compile (c : Compiler) (id : Nat) (l : Lambda) : Except BuildError CompiledObject × Compiler :=
  if !c.options.cacheLowering then c.compileNew l
  else
    match c.cache.lookup id with
    | some object => (.ok object, c)
    | none =>
      match c.compileNew l with
      | (.ok object, c) => (.ok object, { c with cache := (id, object) :: c.cache })
      | (.error e, c) => (.error e, c)

/-- The number of results kept. -/
def cached (c : Compiler) : Nat := c.cache.length

/-- Forgets all results. -/
def clear (c : Compiler) : Compiler := { c with cache := [] }

end Compiler

end Coroutine
