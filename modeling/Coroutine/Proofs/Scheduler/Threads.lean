import Mathlib
import Coroutine.Scheduler

/-!
# Threads

Tasks are settled and waited for by any number of threads at once. A `System` is the shared state of
a scheduler, the threads, and the history of what has happened. A thread is a stack of acts: what it
is doing, on top of what it goes on with when that is done.

What happens under the lock of a task is one step: settling checks and sets the outcome and takes
those who wait, and waiting checks and joins them. Everything else is a step of its own, so steps of
other threads may come in between: each continuation that was taken runs later, on the thread that
took it, and between the end of a machine's resumption and the wait for its awaiter anything may
happen. Code of the host may settle tasks, wait for them, make new ones and spawn machines as often
as it likes, also from within a continuation or from within a machine that it was called by.
Machines are suspended under binders for tasks only: another binder is the host's, and what it does
with a continuation is its own affair.

The machines' locks are left out, so that a machine could be resumed by two threads at once. It is
not, but not because of its lock.

A continuation that waits for a task holds a ticket, which tells it from others that are the same.
Tickets and the history are only kept for the record; no step depends on them.
-/

namespace Coroutine

/-- What a thread is doing or still has to do. -/
inductive Act where
  /-- Code of the host. -/
  | host
  /-- A continuation that a ticket was given out for. -/
  | run (ticket : Nat) (k : Continuation)
  /-- A machine is to be resumed. -/
  | drive (machine : Nat)
  /-- A machine runs, with the code of the host that it calls. -/
  | resuming (machine : Nat)
  /-- A resumption is over, and its driver has to wait or to settle the machine's task. -/
  | returned (machine : Nat) (r : Except RunError Status)

/-- Something that has happened. -/
inductive Happening where
  /-- A task was to be settled, by the host or by the driver of a machine; says whether it had not
  settled before. -/
  | settled (driver : Option Nat) (task : Nat) (outcome : Outcome) (first : Bool)
  /-- A continuation got a ticket for a task. -/
  | registered (ticket task : Nat) (k : Continuation)
  /-- A continuation with a ticket began to run. -/
  | ran (ticket : Nat) (k : Continuation)
  /-- A machine was spawned, to settle a task in the end. -/
  | spawned (machine task : Nat)
  | resumed (machine : Nat)
  | returned (machine : Nat) (r : Except RunError Status)

/-- Whether an act is code that may do whatever a host can do. -/
def Act.isCode : Act → Bool
  | .host | .resuming _ => true
  | _ => false

/-- What running a continuation amounts to. Continuations of the host may do anything. -/
def Continuation.start : Continuation → Act
  | .resume k => .drive k
  | _ => .host

/-- A job under a ticket. -/
def Job.ticketed (n : Nat) : Job → Act
  | .continue k => .run n k
  | .report _ _ => .host

/-- The tickets for a task with their continuations, in the order in which they were given out. -/
def registrations (h : List Happening) (t : Nat) : List (Nat × Continuation) :=
  h.filterMap fun
    | .registered n t' k => if t' = t then some (n, k) else none
    | _ => none

/-- The jobs that settling a task sets off, under the tickets for that task. -/
def ticketedJobs (h : List Happening) (t : Nat) (jobs : List Job) : List Act :=
  List.zipWith Job.ticketed ((registrations h t).map Prod.fst) jobs

/-- Whether a machine is suspended on a task, under a binder for tasks. -/
def Machine.Awaits (m : Machine) (t : Nat) : Prop :=
  ∃ b, m.suspension = some ⟨.task t, b⟩ ∧ b.protocol = .task

/-- Whether waiting for what a machine is suspended on fails: there is nothing to wait for, or
something that is no task. -/
def Machine.Stranded (m : Machine) : Prop :=
  ∀ x ∈ m.suspension, x.binder.protocol = .task ∧ ∀ t, x.awaiter ≠ .task t

variable {σ : Type}

/-- A machine is spawned: it gets a task, and is to be resumed. -/
def Scheduler.enlist (s : Scheduler σ) (m : Machine) : Scheduler σ :=
  { s with
    world := (s.world.newTask none).2
    machines := s.machines.push m
    tasks := s.tasks.push s.world.tasks.size }

theorem Scheduler.spawn_eq (env : Env σ) (fuel : Nat) (s : Scheduler σ) (m : Machine) :
    s.spawn env fuel m = (work env fuel [.continue (.resume s.machines.size)] (s.enlist m)).map
      fun s' => (s.world.tasks.size, s') := rfl

/-- What the driver of a machine does after a resumption: it waits, or settles the machine's task. -/
def Scheduler.proceed (env : Env σ) (s : Scheduler σ) (k : Nat) (m : Machine) :
    Except RunError Status → List Job × Scheduler σ
  | .ok .suspended => s.waitFor env k m
  | .ok (.completed v) => s.finish k (.ok v)
  | .ok (.yielded _) => s.fail k "a spawned machine cannot yield"
  | .error (.thrown e) => s.finish k (.error e)
  | .error e => s.fail k e.message

theorem Scheduler.drive_eq (env : Env σ) (fuel : Nat) (s : Scheduler σ) {k : Nat} {m : Machine}
    (hm : s.machines[k]? = some m) :
    s.drive env fuel k = (m.resume env fuel s.world).map fun ((r, m), world) =>
      { s with world, machines := s.machines.setIfInBounds k m }.proceed env k m r := by
  rw [drive, hm]
  refine congrArg (Option.map · _) (funext fun ((r, m), world) => ?_)
  cases r with
  | ok r => cases r <;> rfl
  | error e => cases e <;> rfl

/-- `Does h s a as e s'`: the act `a` makes a step in the shared state `s`, after the history `h`.
It turns into the acts `as` and adds `e` to the history. -/
inductive Does (h : List Happening) (s : Scheduler σ) :
    Act → List Act → Option Happening → Scheduler σ → Prop where
  /-- The host settles a task. -/
  | settle {a : Act} {t : Nat} {o : Outcome} {first : Bool} {jobs : List Job} {s' : Scheduler σ}
    (ha : a.isCode = true) (ht : t < s.world.tasks.size)
    (hs : s.settle t o = ((first, jobs), s')) :
    Does h s a (ticketedJobs h t jobs ++ [a]) (some (.settled none t o first)) s'
  /-- The host waits for a task. Only drivers resume machines. -/
  | await {a : Act} {t n : Nat} {k : Continuation} {now : List Continuation} {w : World σ}
    (ha : a.isCode = true) (ht : t < s.world.tasks.size) (hk : ∀ m, k ≠ .resume m)
    (hn : ∀ t' k', .registered n t' k' ∉ h) (hs : s.world.await t k = (now, w)) :
    Does h s a (now.map (.run n) ++ [a]) (some (.registered n t k)) { s with world := w }
  /-- The host makes a task, which may be settled from the start. -/
  | create {a : Act} (outcome : Option Outcome) (ha : a.isCode = true) :
    Does h s a [a] (outcome.map fun o => .settled none s.world.tasks.size o true)
      { s with world := (s.world.newTask outcome).2 }
  /-- The host spawns a machine. -/
  | spawn {a : Act} (m : Machine) (ha : a.isCode = true) :
    Does h s a [.drive s.machines.size, a] (some (.spawned s.machines.size s.world.tasks.size))
      (s.enlist m)
  /-- The host or a machine does anything that has nothing to do with tasks. -/
  | other {a : Act} {w : World σ} (ha : a.isCode = true) (hw : w.tasks = s.world.tasks) :
    Does h s a [a] none { s with world := w }
  /-- Code of the host comes to its end. -/
  | leave : Does h s .host [] none s
  /-- A continuation begins to run. -/
  | run (n : Nat) (k : Continuation) : Does h s (.run n k) [k.start] (some (.ran n k)) s
  /-- A machine is resumed. -/
  | resume (k : Nat) : Does h s (.drive k) [.resuming k] (some (.resumed k)) s
  /-- A resumption ends, in whatever way. -/
  | return (k : Nat) (m : Machine) (r : Except RunError Status) :
    Does h s (.resuming k) [.returned k r] (some (.returned k r))
      { s with machines := s.machines.setIfInBounds k m }
  /-- The driver of a machine that is suspended on a task waits for it. -/
  | wait (env : Env σ) {k t n : Nat} {m : Machine} {jobs : List Job} {s' : Scheduler σ}
    (hm : s.machines[k]? = some m) (hawaits : m.Awaits t) (ht : t < s.world.tasks.size)
    (hn : ∀ t' k', .registered n t' k' ∉ h)
    (hs : s.proceed env k m (.ok .suspended) = (jobs, s')) :
    Does h s (.returned k (.ok .suspended)) (jobs.map (Job.ticketed n))
      (some (.registered n t (.resume k))) s'
  /-- The driver of any other machine settles its task. -/
  | conclude (env : Env σ) {k t : Nat} {m : Machine} {r : Except RunError Status} {o : Outcome}
    {first : Bool} {jobs : List Job} {s' : Scheduler σ} (hm : s.machines[k]? = some m)
    (ht : s.tasks[k]? = some t) (hr : r = .ok .suspended → m.Stranded)
    (hs : s.proceed env k m r = (jobs, s'))
    (hfirst : first = (s.world.task t).outcome.isNone)
    (ho : first = true → (s'.world.task t).outcome = some o) :
    Does h s (.returned k r) (ticketedJobs h t jobs) (some (.settled (some k) t o first)) s'

/-- Threads that share a scheduler's state. -/
structure System (σ : Type) where
  shared : Scheduler σ
  threads : List (List Act)
  history : List Happening

namespace System

/-- Everything that some thread is doing or still has to do. -/
def acts (s : System σ) : Multiset Act := s.threads.flatten

/-- No thread is inside an operation: what remains to be done is code of the host. -/
def Idle (s : System σ) : Prop := ∀ a ∈ s.acts, a = .host

/-- One step: a thread makes one, or another thread comes in. -/
inductive Step : System σ → System σ → Prop where
  | start (s : System σ) : Step s { s with threads := s.threads ++ [[.host]] }
  | act {s : System σ} {before after : List (List Act)} {a : Act} {rest as : List Act}
    {e : Option Happening} {shared : Scheduler σ}
    (hthreads : s.threads = before ++ (a :: rest) :: after)
    (hdoes : Does s.history s.shared a as e shared) :
    Step s ⟨shared, before ++ (as ++ rest) :: after, s.history ++ e.toList⟩

/-- Nothing has happened, and there are no tasks and no machines. -/
def initial (w : World σ) : System σ := ⟨{ world := { w with tasks := #[] } }, [], []⟩

/-- Any number of steps. -/
abbrev Steps : System σ → System σ → Prop := Relation.ReflTransGen Step

/-- Whether a state is reached from the start by steps of threads in any order. -/
def Reachable (s : System σ) : Prop := ∃ w, Steps (initial w) s

end System

end Coroutine
