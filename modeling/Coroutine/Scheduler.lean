import Coroutine.Machine.Basic

/-!
# Scheduling

A `Scheduler` drives machines to completion. A spawned machine runs in the background: every time
what it waits for completes, it goes on, and in the end it settles a task. Blocking on a machine
resumes it until it completes; while it waits, the tasks that settle by themselves do so one after
the other.

What is still to happen is an agenda. A continuation runs to its end before the next one starts, and
what it sets off comes first.
-/

namespace Coroutine

/-- Machines in the background, and the world they share. -/
structure Scheduler (σ : Type) where
  world : World σ
  /-- The machines in the background. -/
  machines : Array Machine := #[]
  /-- The tasks that they settle. -/
  tasks : Array Nat := #[]
  /-- Whether the one who blocks may go on. -/
  awake : Bool := false

/-- Something still to happen. -/
inductive Job where
  | continue (k : Continuation)
  /-- The host learns that a task settled, and whether another did in its wake. -/
  | report (key : Nat) (settled : Option Bool)

namespace Scheduler

variable {σ : Type}

/-- Settles a task. Says whether it had not settled before, and what happens next. -/
def settle (s : Scheduler σ) (task : Nat) (outcome : Outcome) :
    (Bool × List Job) × Scheduler σ :=
  let ((settled, waiters), world) := s.world.settle task outcome
  ((settled, waiters.map .continue), { s with world })

/-- Lets the task of a background machine settle. -/
def finish (s : Scheduler σ) (k : Nat) (outcome : Outcome) : List Job × Scheduler σ :=
  let ((_, jobs), s) := s.settle (s.tasks.getD k 0) outcome
  (jobs, s)

/-- Lets the task of a background machine fail with a new exception. -/
def fail (s : Scheduler σ) (k : Nat) (message : String) : List Job × Scheduler σ :=
  let (e, world) := s.world.raise (.invalidOperation message)
  { s with world }.finish k (.error e)

/-- Waits for what a background machine is suspended on. -/
def waitFor (env : Env σ) (s : Scheduler σ) (k : Nat) (m : Machine) : List Job × Scheduler σ :=
  let (suspension, m) := m.takeSuspension
  let s := { s with machines := s.machines.setIfInBounds k m }
  match suspension with
  | none => s.fail k "machine suspended without an awaiter"
  | some suspension =>
    match (env.onCompleted suspension (.resume k)).perform s.world with
    | (.ok now, world) => (now.map .continue, { s with world })
    | (.error e, world) => { s with world }.finish k (.error e)

/-- Resumes a background machine. -/
def drive (env : Env σ) (fuel : Nat) (s : Scheduler σ) (k : Nat) :
    Option (List Job × Scheduler σ) :=
  match s.machines[k]? with
  | none => some ([], s)
  | some m =>
    (m.resume env fuel s.world).map fun ((r, m), world) =>
      let s := { s with world, machines := s.machines.setIfInBounds k m }
      match r with
      | .ok .suspended => s.waitFor env k m
      | .ok (.completed v) => s.finish k (.ok v)
      | .ok (.yielded _) => s.fail k "a spawned machine cannot yield"
      | .error (.thrown e) => s.finish k (.error e)
      | .error e => s.fail k e.message

/-- Does one job. Gives the jobs that it sets off. -/
def perform (env : Env σ) (fuel : Nat) (s : Scheduler σ) : Job → Option (List Job × Scheduler σ)
  | .continue (.resume k) => s.drive env fuel k
  | .continue .wake => some ([], { s with awake := true })
  | .continue (.notify key) => some ([.report key none], s)
  | .continue (.relay task outcome key) =>
    let ((settled, jobs), s) := s.settle task outcome
    some (jobs ++ [.report key (some settled)], s)
  | .report key settled =>
    some ([], { s with world := { s.world with host := env.notify key settled s.world.host } })

/-- Works through an agenda. -/
def work (env : Env σ) : Nat → List Job → Scheduler σ → Option (Scheduler σ)
  | 0, _, _ => none
  | _ + 1, [], s => some s
  | fuel + 1, job :: jobs, s =>
    match s.perform env fuel job with
    | none => none
    | some (more, s) => work env fuel (more ++ jobs) s

/-- Settles a task with all that follows. Says whether it had not settled before. -/
def complete (env : Env σ) (fuel : Nat) (s : Scheduler σ) (task : Nat) (outcome : Outcome) :
    Option (Bool × Scheduler σ) :=
  let ((settled, jobs), s) := s.settle task outcome
  (work env fuel jobs s).map fun s => (settled, s)

/-- Runs a machine in the background. Gives the task that it settles. -/
def spawn (env : Env σ) (fuel : Nat) (s : Scheduler σ) (m : Machine) : Option (Nat × Scheduler σ) :=
  let (task, world) := s.world.newTask none
  let k := s.machines.size
  let s := { s with world, machines := s.machines.push m, tasks := s.tasks.push task }
  (work env fuel [.continue (.resume k)] s).map fun s => (task, s)

/-- Waits until the one who blocks may go on: tasks settle by themselves, one after the other. Says
whether it came to that. -/
def park (env : Env σ) : Nat → Scheduler σ → Option (Bool × Scheduler σ)
  | 0, _ => none
  | fuel + 1, s =>
    if s.awake then some (true, { s with awake := false })
    else
      match s.world.background with
      | [] => some (false, s)
      | (task, outcome) :: rest =>
        let s := { s with world := { s.world with background := rest } }
        match s.complete env fuel task outcome with
        | none => none
        | some (_, s) => park env fuel s

/-- Waits for what a machine is suspended on. -/
def await (env : Env σ) (fuel : Nat) (s : Scheduler σ) (m : Machine) :
    Option ((Except RunError Unit × Machine) × Scheduler σ) :=
  let (suspension, m) := m.takeSuspension
  match suspension with
  | none => some ((.error (.invalidTransition .noAwaiter), m), s)
  | some suspension =>
    match (env.onCompleted suspension .wake).perform s.world with
    | (.error e, world) => some ((.error (.thrown e), m), { s with world })
    | (.ok now, world) =>
      match work env fuel (now.map .continue) { s with world } with
      | none => none
      | some s =>
        (park env fuel s).map fun (woken, s) =>
          ((if woken then .ok () else .error (.invalidTransition .neverWoken), m), s)

/-- Resumes a machine until it completes. -/
def blockOn (env : Env σ) : Nat → Scheduler σ → Machine →
    Option ((Except RunError Value × Machine) × Scheduler σ)
  | 0, _, _ => none
  | fuel + 1, s, m =>
    match m.resume env fuel s.world with
    | none => none
    | some ((r, m), world) =>
      let s := { s with world }
      match r with
      | .error e => some ((.error e, m), s)
      | .ok (.completed v) => some ((.ok v, m), s)
      | .ok (.yielded _) => some ((.error (.cannotSuspend .blockedOnGenerator), m), s)
      | .ok .suspended =>
        match s.await env fuel m with
        | none => none
        | some ((.error e, m), s) => some ((.error e, m), s)
        | some ((.ok (), m), s) => blockOn env fuel s m

/-- Blocks on machines one after the other. -/
def runAll (env : Env σ) (fuel : Nat) : Scheduler σ → List Machine →
    Option (List (Except RunError Value) × Scheduler σ)
  | s, [] => some ([], s)
  | s, m :: ms =>
    match blockOn env fuel s m with
    | none => none
    | some ((r, _), s) => (runAll env fuel s ms).map fun (rs, s) => (r :: rs, s)

end Scheduler

end Coroutine
