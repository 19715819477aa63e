import Coroutine.Code.Build
import Coroutine.Machine.Compiled
import Coroutine.Tree.Check

/-!
# Interpreted machines

An interpreted machine runs the code of a lambda's body. Between resumptions it keeps the whole
state of the interpreter, so it suspends wherever it stands.
-/

namespace Coroutine

/-- A lambda ready to be interpreted. -/
structure Prepared where
  name : String
  kind : LambdaKind
  params : List Var
  code : Code

/-- Checks a lambda and builds its code. -/
def Lambda.prepare (resolve : Expr.Resolver) (l : Lambda) : Except BuildError Prepared := do
  let _ ← l.check
  let code ← Code.build resolve false l.body
  return ⟨l.displayName, l.kind, l.params, code⟩

/-- An interpreted machine. -/
structure InterpretedMachine where
  name : String
  kind : LambdaKind
  code : Code
  context : Context
  limit : Option Nat
  started : Bool := false
  completed : Bool := false

namespace InterpretedMachine

variable {σ : Type}

/-- The status of a machine after a run that halted. A machine that did not suspend is done. -/
def settle (m : InterpretedMachine) :
    Except RunError (Halt × Context) → Except RunError Status × InterpretedMachine
  | .ok (.suspended, c) => (.ok .suspended, { m with context := c })
  | .ok (.yielded, c) => (.ok (.yielded c.current), { m with context := c })
  | .ok (.finished v, c) =>
    let v := if m.kind = .generator then .unit else v
    (.ok (.completed v), { m with context := c, completed := true })
  | .ok (.escaped label _, c) =>
    (.error (.invalidTransition (.jumpLeftLambda label)),
      { m with context := c, completed := true })
  | .error e => (.error e, { m with completed := true })

/-- Resumes the machine. -/
def resume (env : Env σ) (fuel : Nat) (m : InterpretedMachine) (w : World σ) :
    Option ((Except RunError Status × InterpretedMachine) × World σ) :=
  if m.completed then some ((.error .alreadyCompleted, m), w)
  else
    let run :=
      if m.started then iterate env m.kind m.limit fuel 0 m.context w
      else start env m.kind m.limit fuel m.code m.context w
    run.map fun (r, w) => ({ m with started := true }.settle r, w)

/-- A new machine for a lambda with its arguments. -/
def new (p : Prepared) (limit : Option Nat) (args : List Value) (w : World σ) :
    Except RunError (InterpretedMachine × World σ) :=
  if args.length ≠ p.params.length then .error (.arity p.params.length args.length)
  else
    let (s, w) := w.newScope (.ofArgs p.params args)
    .ok (⟨p.name, p.kind, p.code, { scopes := [s] }, limit, false, false⟩, w)

end InterpretedMachine

end Coroutine
