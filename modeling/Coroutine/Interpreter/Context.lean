import Coroutine.Host.Env

/-!
# Interpreter state

The interpreter keeps a stack of frames, one for every compound node that is being evaluated, and a
stack of the values that finished children left. What leaves frames abruptly (a jump, an exception,
the end of a generator) is a `Transfer` in flight.

Stacks are lists with the top first. A frame remembers how high the stack of results and how deep
the scope chain was when it was pushed.
-/

namespace Coroutine

/-- A jump on its way to its label. -/
structure Jump where
  /-- The code that its route is in. -/
  code : Code
  label : Nat
  route : Route
  value : Value

/-- An abrupt completion. -/
inductive Transfer where
  | jump (j : Jump)
  | throw (e : Exception)
  /-- The end of a generator. -/
  | exit (v : Value)

/-- How a protected body ended, while its cleanup runs. -/
inductive Completion where
  | value (v : Value)
  | abrupt (t : Transfer)

/-- What a frame does next. -/
inductive Phase where
  /-- Evaluates the child in a slot, or applies the node when there are no more. -/
  | operands (next : Nat)
  /-- Evaluates the left operand of a short-circuit operator. -/
  | left
  /-- Has the left operand. -/
  | leftDone
  /-- Has the right operand. -/
  | rightDone
  /-- Starts a statement of a block. -/
  | statement (index : Nat) (hasScope : Bool)
  /-- Has the value of a statement. -/
  | statementDone (index : Nat) (hasScope : Bool)
  /-- Evaluates the test of a conditional. -/
  | test
  /-- Has the test. -/
  | testDone
  /-- Has the value of a branch. -/
  | branchDone
  /-- Evaluates the value of a switch. -/
  | subject
  /-- Evaluates a test value. -/
  | candidate (case test : Nat)
  /-- Has a test value. -/
  | candidateDone (case test : Nat)
  /-- Has the value of an arm. -/
  | armDone
  /-- Starts an iteration. -/
  | iteration
  /-- Has the value of an iteration. -/
  | iterationDone
  /-- Starts the protected body. -/
  | guarded
  /-- Is in the protected body. -/
  | inBody
  /-- Is in a handler, for an exception. -/
  | inHandler (e : Exception)
  /-- Is in the cleanup, after which the completion goes on. -/
  | inCleanup (deferred : Completion)
  /-- Evaluates the awaitable. -/
  | awaitable
  /-- Has the awaitable. -/
  | awaitableDone
  /-- Suspended on an awaiter. -/
  | awaiting (awaiter : Value)
  /-- Evaluates the value to yield. -/
  | yielding
  /-- Has the value to yield. -/
  | yieldDone
  /-- Suspended after a yield. -/
  | yielded
  /-- Is in the body of a closure. -/
  | inClosure

/-- A node that is being evaluated. -/
structure Frame where
  code : Code
  node : Nat
  phase : Phase
  /-- The height of the results when the frame was pushed. -/
  base : Nat
  /-- The depth of the scope chain when the frame was pushed. -/
  depth : Nat
  /-- The chain to go back to; a closure call replaces the chain. -/
  saved : Option Chain := none

namespace Frame

/-- What the frame's node does. -/
def op (f : Frame) : Op := (f.code.node f.node).op

/-- The children of the frame's node. -/
def children (f : Frame) : List Nat := (f.code.node f.node).children

/-- The error that a frame is in a phase its node does not have. -/
def mismatch (f : Frame) : RunError := .invalidTransition (.frameMismatch f.op.name)

end Frame

/-- The state of an interpreter between steps. -/
structure Context where
  scopes : Chain
  results : List Value := []
  frames : List Frame := []
  /-- The abrupt completion in flight. -/
  control : Option Transfer := none
  /-- The last value yielded. -/
  current : Value := .unit
  /-- The awaiter of the last suspension, until it is taken. -/
  suspension : Option Suspension := none

/-- A stack of results cut back to a height. -/
def truncateResults (results : List Value) (height : Nat) : List Value :=
  results.drop (results.length - height)

namespace Context

/-- Leaves a value for the frame below. -/
def push (c : Context) (v : Value) : Context := { c with results := v :: c.results }

/-- The value that the last child left. -/
def result (c : Context) : Value := c.results.headD .unit

/-- Takes the value that the last child left. -/
def pop (c : Context) : Context := { c with results := c.results.tail }

/-- The result at a height, counted from the bottom. -/
def resultAt (c : Context) (height : Nat) : Value := c.results.reverse.getD height .unit

/-- The results above a height, in the order in which they were left. -/
def resultsAbove (c : Context) (height : Nat) : List Value :=
  (c.results.take (c.results.length - height)).reverse

/-- Changes the phase of the top frame. -/
def setPhase (c : Context) (p : Phase) : Context :=
  match c.frames with
  | [] => c
  | f :: fs => { c with frames := { f with phase := p } :: fs }

/-- Drops what the children of a frame left behind. -/
def reset (c : Context) (f : Frame) : Context :=
  { c with results := truncateResults c.results f.base, scopes := c.scopes.truncate f.depth }

/-- Removes the top frame with all it left behind. -/
def popFrame (c : Context) : Context :=
  match c.frames with
  | [] => c
  | f :: fs =>
    { c with
      frames := fs
      results := truncateResults c.results f.base
      scopes := f.saved.getD (c.scopes.truncate f.depth) }

/-- Finishes the top frame with a value. -/
def complete (c : Context) (v : Value) : Context := c.popFrame.push v

/-- Starts an abrupt completion. -/
def transfer (c : Context) (t : Transfer) : Context := { c with control := some t }

/-- Finishes the top frame with an outcome. -/
def finish (c : Context) : Outcome → Context
  | .ok v => c.complete v
  | .error e => c.transfer (.throw e)

/-- The exception of the innermost handler that is running. -/
def activeException? (c : Context) : Option Exception :=
  c.frames.findSome? fun f =>
    match f.phase with
    | .inHandler e => some e
    | _ => none

end Context

end Coroutine
