import Coroutine.Code.Basic

/-!
# The world

Everything that running programs share: variable scopes, closures, tasks, and the state of the
host. All of these are objects that values refer to by number, and a new object gets the next
number, so a world is plain data.

A scope chain is the list of its scopes' numbers, the innermost first.
-/

namespace Coroutine

/-! ## Scopes -/

/-- The variables bound at one level. -/
structure Scope where
  bindings : List (Nat × Value) := []
deriving DecidableEq, Repr, Inhabited

namespace Scope

/-- The value of a variable. -/
def get? (s : Scope) (x : Nat) : Option Value := s.bindings.lookup x

/-- Whether a variable is bound. -/
def contains (s : Scope) (x : Nat) : Bool := (s.get? x).isSome

/-- Binds a variable, or binds it anew. -/
def declare (s : Scope) (x : Nat) (v : Value) : Scope :=
  ⟨(x, v) :: s.bindings.filter (·.1 != x)⟩

/-- Gives a variable another value, if it is bound. -/
def set (s : Scope) (x : Nat) (v : Value) : Scope :=
  ⟨s.bindings.map fun b => if b.1 == x then (x, v) else b⟩

/-- Variables without a value yet. -/
def ofVars (xs : List Var) : Scope := xs.foldl (fun s x => s.declare x.word .unit) {}

/-- Parameters with their arguments. -/
def ofArgs (params : List Var) (args : List Value) : Scope :=
  (params.zip args).foldl (fun s (x, v) => s.declare x.word v) {}

end Scope

/-- A chain of scopes, the innermost first. -/
abbrev Chain := List Nat

/-- A chain cut back to a depth. -/
def Chain.truncate (c : Chain) (depth : Nat) : Chain := c.drop (c.length - depth)

/-- A closure: a nested lambda with the scopes around it. -/
structure Closure where
  template : Template
  captured : Chain
deriving Inhabited

/-! ## Tasks -/

/-- What happens when a task settles. -/
inductive Continuation where
  /-- A machine in the background goes on. -/
  | resume (machine : Nat)
  /-- Whoever blocks on the task goes on. -/
  | wake
  /-- The host learns about it, under a key of its own. -/
  | notify (key : Nat)
  /-- Another task settles, and the host learns whether it did. -/
  | relay (task : Nat) (outcome : Outcome) (key : Nat)

/-- A task: a cell that is written once, with those who wait for it. -/
structure Task where
  outcome : Option Outcome := none
  waiters : List Continuation := []
deriving Inhabited

/-! ## The world -/

/-- The world, with the host's state `σ`. -/
structure World (σ : Type) where
  /-- The number of exceptions raised so far. -/
  exceptions : Nat := 0
  tasks : Array Task := #[]
  scopes : Array Scope := #[]
  closures : Array Closure := #[]
  /-- Tasks that will settle by themselves, with their outcomes, the next one first. -/
  background : List (Nat × Outcome) := []
  host : σ

namespace World

variable {σ : Type}

/-- Raises a fault as a new exception object. -/
def raise (w : World σ) (f : Fault) : Exception × World σ :=
  (⟨f, w.exceptions⟩, { w with exceptions := w.exceptions + 1 })

/-! ### Scopes and chains -/

/-- A scope by its number. -/
def scope (w : World σ) (s : Nat) : Scope := w.scopes.getD s {}

/-- A new scope. -/
def newScope (w : World σ) (s : Scope) : Nat × World σ :=
  (w.scopes.size, { w with scopes := w.scopes.push s })

/-- Changes a scope. -/
def modifyScope (w : World σ) (s : Nat) (f : Scope → Scope) : World σ :=
  { w with scopes := w.scopes.modify s f }

/-- The value of a variable, looked up from the innermost scope outwards. -/
def lookup (w : World σ) (c : Chain) (x : Nat) : Option Value :=
  c.findSome? fun s => (w.scope s).get? x

/-- The scope of a chain that holds the innermost binding of a variable. -/
def holder? (w : World σ) (c : Chain) (x : Nat) : Option Nat :=
  c.find? fun s => (w.scope s).contains x

/-- Assigns the innermost binding of a variable; says whether there was one. -/
def assign (w : World σ) (c : Chain) (x : Nat) (v : Value) : Bool × World σ :=
  match w.holder? c x with
  | some s => (true, w.modifyScope s (·.set x v))
  | none => (false, w)

/-! ### Closures -/

/-- A closure by its number. -/
def closure (w : World σ) (c : Nat) : Closure := w.closures.getD c default

/-- A new closure over a chain. -/
def newClosure (w : World σ) (t : Template) (captured : Chain) : ClosureRef × World σ :=
  (⟨w.closures.size, t.name⟩, { w with closures := w.closures.push ⟨t, captured⟩ })

/-! ### Tasks -/

/-- A task by its number. -/
def task (w : World σ) (t : Nat) : Task := w.tasks.getD t {}

/-- A new task, which may be settled from the start. -/
def newTask (w : World σ) (outcome : Option Outcome) : Nat × World σ :=
  (w.tasks.size, { w with tasks := w.tasks.push { outcome } })

/-- A new task that settles by itself later. -/
def delayed (w : World σ) (outcome : Outcome) : Nat × World σ :=
  let (t, w) := w.newTask none
  (t, { w with background := w.background ++ [(t, outcome)] })

/-- Settles a task that has not settled before. Returns whether it had not, and who has been waiting
for it, in the order in which they came. -/
def settle (w : World σ) (t : Nat) (outcome : Outcome) : (Bool × List Continuation) × World σ :=
  match w.task t with
  | ⟨none, waiters⟩ =>
    ((true, waiters), { w with tasks := w.tasks.modify t fun _ => { outcome := some outcome } })
  | ⟨some _, _⟩ => ((false, []), w)

/-- Waits for a task. Returns what is to happen at once: the continuation, if the task has settled
already. -/
def await (w : World σ) (t : Nat) (k : Continuation) : List Continuation × World σ :=
  match w.task t with
  | ⟨none, waiters⟩ =>
    ([], { w with tasks := w.tasks.modify t fun _ => { waiters := waiters ++ [k] } })
  | ⟨some _, _⟩ => ([k], w)

end World

end Coroutine
