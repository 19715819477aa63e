import Coroutine.Host.Functions

/-!
# Hosts

What a host offers to the programs it runs: functions, await protocols of its own, and an ear for
the tasks it asked to be told about.

`Env.getAwaiter`, `isCompleted`, `getResult` and `onCompleted` are the await protocol of a binder.
-/

namespace Coroutine

/-- How awaitables of the host are awaited. -/
structure AwaitProtocol (σ : Type) where
  /-- The awaiter of an awaitable. -/
  getAwaiter : Value → Bool → Effect σ Value
  /-- Whether an awaiter's result is there. -/
  isCompleted : Value → Effect σ Bool
  /-- The result of an awaiter. -/
  getResult : Value → Effect σ Value
  /-- Asks for a continuation once the awaiter completes. Gives those that are to run at once. -/
  onCompleted : Value → Continuation → Effect σ (List Continuation)

/-- A host with state `σ`. -/
structure Env (σ : Type) where
  functions : Functions σ
  protocols : String → AwaitProtocol σ
  /-- Tells the host that a task settled, and whether another one did in its wake. -/
  notify : Nat → Option Bool → σ → σ

/-! ## The built-in protocols -/

/-- The task an awaiter is, for the tasks of a type name. -/
def awaiterTask {σ : Type} (typeName : String) : Value → Effect σ Nat
  | .task t => pure t
  | v => Effect.raise (.typeError
      ("`" ++ typeName ++ "` awaiter must be a task, got " ++ v.typeName))

/-- A task is its own awaiter. -/
def taskProtocol (σ : Type) (typeName : String) : AwaitProtocol σ where
  getAwaiter v _ := do
    let _ ← awaiterTask typeName v
    return v
  isCompleted v := do
    let t ← awaiterTask typeName v
    Effect.look fun w => (w.task t).outcome.isSome
  getResult v := do
    let t ← awaiterTask typeName v
    match ← Effect.look fun w => (w.task t).outcome with
    | some (.ok v) => return v
    | some (.error e) => throw e
    | none => Effect.raise (.invalidOperation "result requested before the task completed")
  onCompleted v k := do
    let t ← awaiterTask typeName v
    Effect.act fun w => w.await t k

/-- A plain value is complete at once. -/
def immediateProtocol (σ : Type) : AwaitProtocol σ where
  getAwaiter v _ := return v
  isCompleted _ := return true
  getResult v := return v
  onCompleted _ k := return [k]

/-- A host without functions. -/
def Env.bare : Env Unit := ⟨{}, fun _ => immediateProtocol Unit, fun _ _ host => host⟩

/-- The protocol of a binder. -/
def Env.protocol {σ : Type} (env : Env σ) (b : Binder) : AwaitProtocol σ :=
  match b.protocol with
  | .task => taskProtocol σ b.typeName
  | .immediate => immediateProtocol σ
  | .foreign key => env.protocols key

/-- What a suspended machine waits for. -/
structure Suspension where
  awaiter : Value
  binder : Binder
deriving DecidableEq, Repr

/-- Asks for a continuation once a suspension is over. -/
def Env.onCompleted {σ : Type} (env : Env σ) (s : Suspension) (k : Continuation) :
    Effect σ (List Continuation) :=
  (env.protocol s.binder).onCompleted s.awaiter k

end Coroutine
