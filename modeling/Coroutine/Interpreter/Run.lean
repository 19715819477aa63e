import Coroutine.Interpreter.Step

/-!
# Runs of the interpreter

A run iterates `step` until the program halts. The iteration takes fuel, and running out of it is
`none`, apart from every way in which a run can end; a run that ends does so with the same result
for any larger amount of fuel.

A step limit counts the steps of one run. It is checked before every step.
-/

namespace Coroutine

variable {σ : Type}

/-- Whether a step limit forbids another step. -/
def limitReached (limit : Option Nat) (steps : Nat) : Bool :=
  match limit with
  | some n => n ≤ steps
  | none => false

/-- The error of a step limit. -/
def limitError (limit : Option Nat) : RunError := .stepLimitExceeded (limit.getD 0)

/-- The end of a run and the world it leaves. -/
abbrev Ended (σ α : Type) := Except RunError α × World σ

/-- Iterates `step`, having taken some steps already. -/
def iterate (env : Env σ) (mode : LambdaKind) (limit : Option Nat) :
    Nat → Nat → Context → World σ → Option (Ended σ (Halt × Context))
  | 0, _, _, _ => none
  | fuel + 1, steps, c, w =>
    if limitReached limit steps then some (.error (limitError limit), w)
    else
      match step env mode c w with
      | (.ok (.running c), w) => iterate env mode limit fuel (steps + 1) c w
      | (.ok (.halted h c), w) => some (.ok (h, c), w)
      | (.error e, w) => some (.error e, w)

/-- Starts the root of code and runs it. -/
def start (env : Env σ) (mode : LambdaKind) (limit : Option Nat) (fuel : Nat) (code : Code)
    (c : Context) (w : World σ) : Option (Ended σ (Halt × Context)) :=
  match enter mode code Code.root c w with
  | (.ok c, w) => iterate env mode limit fuel 0 c w
  | (.error e, w) => some (.error e, w)

/-- What evaluating code comes to. -/
inductive Evaluation where
  | value (v : Value)
  /-- A jump to a label of whoever evaluates the code. -/
  | escape (label : Nat) (v : Value)
deriving DecidableEq, Repr

/-- Evaluates code that does not suspend over a scope chain. Assignments change the scopes of the
chain. -/
def evaluate (env : Env σ) (limit : Option Nat) (fuel : Nat) (code : Code) (scopes : Chain)
    (w : World σ) : Option (Ended σ Evaluation) :=
  (start env .sync limit fuel code { scopes } w).map fun
    | (.ok (.finished v, _), w) => (.ok (.value v), w)
    | (.ok (.escaped label v, _), w) => (.ok (.escape label v), w)
    | (.ok (.suspended, _), w) | (.ok (.yielded, _), w) =>
      (.error (.cannotSuspend .passThrough), w)
    | (.error e, w) => (.error e, w)

end Coroutine
