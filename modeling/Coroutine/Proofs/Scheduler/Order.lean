import Mathlib
import Coroutine.Proofs.Scheduler.Courses

/-!
# Tasks settle once and wake each waiter once

Whatever the order in which threads make their steps, a task settles once, a continuation that was
registered for it runs once, and not before, and a machine in the background is resumed once for
every suspension: `System.Orderly`. Each part is an invariant of steps, and all of them together are
`System.Sound`.
-/

namespace Coroutine

variable {σ : Type} {a : Act}

/-! ## Counting in the history -/

/-- Whether a continuation with a ticket began to run. -/
def Happening.calls (n : Nat) : Happening → Bool
  | .ran n' _ => n' == n
  | _ => false

/-- Whether a machine was resumed. -/
def Happening.resumes (k : Nat) : Happening → Bool
  | .resumed k' => k' == k
  | _ => false

/-- Whether a machine began to wait. -/
def Happening.suspends (k : Nat) : Happening → Bool
  | .registered _ _ (.resume k') => k' == k
  | _ => false

/-- Whether the driver of a machine settled its task. -/
def Happening.concludes (k : Nat) : Happening → Bool
  | .settled (some k') _ _ _ => k' == k
  | _ => false

/-- How often a ticket was called is how often it ran. -/
theorem countP_calls (n : Nat) (h : List Happening) :
    h.countP (Happening.calls n) = ((ran h).map Prod.fst).count n := by
  induction h with
  | nil => rfl
  | cons e h ih =>
    cases e with
    | ran n' k =>
      have hran : ran (.ran n' k :: h) = (n', k) :: ran h := rfl
      rw [hran, List.map_cons, List.countP_cons, List.count_cons, ih]
      rfl
    | _ => rw [List.countP_cons_of_neg (by simp [Happening.calls]), ih]; rfl

/-- What does not concern a coroutine neither resumes, suspends nor concludes it. -/
theorem Happening.Concerns.not {k : Nat} {e : Happening} (he : ¬ e.Concerns k) :
    e.resumes k = false ∧ e.suspends k = false ∧ e.concludes k = false := by
  cases e with
  | settled d t o first => cases d <;> simp_all [resumes, suspends, concludes, Concerns]
  | registered n t κ => cases κ <;> simp_all [resumes, suspends, concludes, Concerns]
  | _ => simp_all [resumes, suspends, concludes, Concerns]

/-- Whether a machine has been resumed once more than it has been suspended. -/
def Standing.ahead : Standing → Nat
  | .active .running | .active (.back _) | .done => 1
  | _ => 0

/-- Whether the task of a machine has been settled by its driver. -/
def Standing.concluded : Standing → Nat
  | .done => 1
  | _ => 0

/-- Where something stands in a history that has grown by one. -/
theorem snoc_eq_append {h h₁ h₂ : List Happening} {e x : Happening}
    (heq : h ++ [e] = h₁ ++ x :: h₂) :
    (h = h₁ ∧ e = x ∧ h₂ = []) ∨ ∃ h₂', h = h₁ ++ x :: h₂' ∧ h₂ = h₂' ++ [e] := by
  induction h₂ using List.reverseRecOn with
  | nil =>
    obtain ⟨rfl, hx⟩ := List.append_inj' heq rfl
    exact .inl ⟨rfl, by simpa using hx, rfl⟩
  | append_singleton h₂' y _ =>
    rw [← List.cons_append, ← List.append_assoc] at heq
    obtain ⟨rfl, hy⟩ := List.append_inj' heq rfl
    exact .inr ⟨h₂', rfl, by rw [hy]⟩

namespace Course

variable {k : Nat} {h : List Happening} {p : Standing}

/-- Resumptions and suspensions take turns. -/
theorem countP_resumes (hc : Course k h p) :
    h.countP (Happening.resumes k) = h.countP (Happening.suspends k) + p.ahead := by
  induction hc with
  | nothing => rfl
  | other _ he ih =>
    obtain ⟨hresumes, hsuspends, -⟩ := Happening.Concerns.not he
    simpa [List.countP_append, hresumes, hsuspends] using ih
  | spawned | resumed | returned | waits | wakes | concluded =>
    simp_all [List.countP_append, Happening.resumes, Happening.suspends, Standing.ahead]

/-- A coroutine has concluded as often as its course says. -/
theorem countP_concludes (hc : Course k h p) :
    h.countP (Happening.concludes k) = p.concluded := by
  induction hc with
  | nothing => rfl
  | other _ he ih =>
    obtain ⟨-, -, hconcludes⟩ := Happening.Concerns.not he
    simpa [List.countP_append, hconcludes] using ih
  | spawned | resumed | returned | waits | wakes | concluded =>
    simp_all [List.countP_append, Happening.concludes, Standing.concluded]

/-- A machine that is over is not resumed again. -/
theorem not_resumed (hc : Course k h p) {h₁ h₂ : List Happening} {r : Except RunError Status}
    (heq : h = h₁ ++ .returned k r :: h₂) (hr : r ≠ .ok .suspended) :
    (p = .active (.back r) ∨ p = .done) ∧ .resumed k ∉ h₂ := by
  -- by induction on the course: the return is the last thing that happened, or came before it
  induction hc generalizing h₂ with
  | nothing => simp at heq
  | @other h p e _ he ih =>
    obtain ⟨-, rfl, -⟩ | ⟨h₂', rfl, rfl⟩ := snoc_eq_append heq
    · simp [Happening.Concerns] at he
    · obtain ⟨hp, hnot⟩ := ih rfl
      refine ⟨hp, ?_⟩
      rw [List.mem_append, not_or]
      refine ⟨hnot, fun hmem => he ?_⟩
      rw [← List.mem_singleton.1 hmem]
      rfl
  | spawned _ _ ih | resumed _ ih | wakes _ _ ih =>
    obtain ⟨-, hx, -⟩ | ⟨h₂', rfl, rfl⟩ := snoc_eq_append heq
    · simp at hx
    · simpa using (ih rfl).1
  | returned r' _ ih =>
    obtain ⟨-, hx, rfl⟩ | ⟨h₂', rfl, rfl⟩ := snoc_eq_append heq
    · obtain rfl : r' = r := by simpa using hx
      exact ⟨.inl rfl, by simp⟩
    · simpa using (ih rfl).1
  | waits _ _ _ ih =>
    obtain ⟨-, hx, -⟩ | ⟨h₂', rfl, rfl⟩ := snoc_eq_append heq
    · simp at hx
    -- only a coroutine that came back suspended goes on to wait
    · exact absurd (by simpa using (ih rfl).1) (Ne.symm hr)
  | concluded _ _ _ _ ih =>
    obtain ⟨-, hx, -⟩ | ⟨h₂', rfl, rfl⟩ := snoc_eq_append heq
    · simp at hx
    · exact ⟨.inr rfl, by simpa using (ih rfl).2⟩

end Course

/-! ## All of them together -/

/-- No continuation runs before the task that it waits for has settled. -/
def Timely (h : List Happening) : Prop :=
  ∀ h₁ n k h₂, h = h₁ ++ .ran n k :: h₂ → ∃ t, .registered n t k ∈ h₁ ∧ firsts h₁ t ≠ []

/-- What happens in time is in time after what happened before. -/
theorem Timely.snoc {h : List Happening} (ht : Timely h) {e : Option Happening}
    (he : ∀ n k, e = some (.ran n k) → ∃ t, .registered n t k ∈ h ∧ firsts h t ≠ []) :
    Timely (h ++ e.toList) := by
  cases e with
  | none => simpa using ht
  | some e =>
    intro h₁ n k h₂ heq
    obtain ⟨rfl, rfl, -⟩ | ⟨h₂', rfl, -⟩ := snoc_eq_append heq
    · exact he n k rfl
    · exact ht h₁ n k h₂' rfl

/-- A step spawns a machine with a new task, or leaves the machines and their tasks. -/
theorem Does.roster {h : List Happening} {s s' : Scheduler σ} {as : List Act}
    {e : Option Happening} (hd : Does h s a as e s') (hp : s.Placed) :
    (s'.tasks = s.tasks ∧ s'.machines.size = s.machines.size) ∨
      (e = some (.spawned s.machines.size s.world.tasks.size) ∧
        s'.tasks = s.tasks.push s.world.tasks.size ∧ s'.machines.size = s.machines.size + 1 ∧
        s.world.tasks.size < s'.world.tasks.size) := by
  cases hd with
  | settle _ ht hs =>
    obtain ⟨htasks, hmachines, -⟩ := Scheduler.settle_cases ht hs
    exact .inl ⟨htasks, by rw [hmachines]⟩
  | spawn m =>
    exact .inr ⟨rfl, rfl, by simp [Scheduler.enlist], by simp [Scheduler.enlist, World.newTask]⟩
  | wait _ _ hawaits _ _ hs =>
    obtain ⟨now, w, -, -, rfl⟩ := Scheduler.proceed_of_awaits hawaits hs
    exact .inl ⟨rfl, by simp⟩
  | conclude _ _ htask hr hs =>
    obtain ⟨htasks, hmachines, -⟩ :=
      (Scheduler.concludes_proceed hr htask hs).cases (hp _ _ htask)
    exact .inl ⟨htasks, hmachines⟩
  | «return» => exact .inl ⟨rfl, by simp⟩
  | _ => exact .inl ⟨rfl, rfl⟩

/-- Only the act of a continuation runs it. -/
theorem Does.of_ran {h : List Happening} {s s' : Scheduler σ} {as : List Act} {n : Nat}
    {k : Continuation} (hd : Does h s a as (some (.ran n k)) s') : a = .run n k := by
  generalize he : some (Happening.ran n k) = e at hd
  cases hd with
  | run n' k' =>
    obtain ⟨rfl, rfl⟩ : n = n' ∧ k = k' := by simpa using he
    rfl
  | create outcome => cases outcome <;> simp at he
  | _ => simp at he

namespace System

/-- Whether history, tasks, machines and threads agree. -/
structure Sound (s : System σ) : Prop where
  faithful : Faithful s.history s.shared.world
  accounted : Accounted s.history s.shared.world s.acts
  timely : Timely s.history
  placed : s.shared.Placed
  size : s.shared.tasks.size = s.shared.machines.size
  spawned : ∀ k t : Nat, s.shared.tasks[k]? = some t → .spawned k t ∈ s.history
  tended : ∀ k, ∃ p, Tended s.history s.acts s.shared.machines.size k p

/-- A system in which nothing has happened is sound. -/
theorem sound_initial (w : World σ) : (initial w).Sound where
  faithful :=
    { outcome := fun t => by simp [initial, firsts, World.task]
      waiters := fun t _ => by simp [initial, registrations, World.task]
      exist := by simp [initial]
      nodup := by simp [initial, tickets] }
  accounted := rfl
  timely := by simp [Timely, initial]
  placed := by simp [Scheduler.Placed, initial]
  size := rfl
  spawned := by simp [initial]
  tended := fun k => ⟨.absent, .nothing, rfl, by simp [initial], by simp [initial], by simp⟩

/-- A new thread adds what it is to do. -/
theorem acts_start (s : System σ) :
    ({ s with threads := s.threads ++ [[.host]] } : System σ).acts = .host ::ₘ s.acts := by
  simp only [acts, List.flatten_append, List.flatten_singleton, ← Multiset.coe_add]
  rw [add_comm]
  rfl

/-- The acts of all threads, with those of one of them singled out. -/
theorem acts_eq {shared : Scheduler σ} {before after : List (List Act)} (as : List Act)
    {rest : List Act} {h : List Happening} :
    (⟨shared, before ++ (as ++ rest) :: after, h⟩ : System σ).acts =
      as + ((before.flatten ++ rest ++ after.flatten : List Act) : Multiset Act) := by
  simp only [acts, List.flatten_append, List.flatten_cons, ← Multiset.coe_add]
  abel

/-- A new thread disturbs nothing. -/
theorem Sound.start {s : System σ} (h : s.Sound) :
    ({ s with threads := s.threads ++ [[.host]] } : System σ).Sound :=
  { h with
    accounted := by
      rw [acts_start, Accounted, pending_cons, ← h.accounted]
      rfl
    tended := by
      intro k
      obtain ⟨p, hp⟩ := h.tended k
      refine ⟨p, { hp with stages := ?_ }⟩
      rw [acts_start, Tended.stages_cons]
      exact (zero_add _).trans hp.stages }

/-- A step of a thread keeps the system sound. -/
theorem Sound.act {shared shared' : Scheduler σ} {before after : List (List Act)}
    {rest as : List Act} {history : List Happening} {e : Option Happening}
    (h : Sound ⟨shared, before ++ (a :: rest) :: after, history⟩)
    (hdoes : Does history shared a as e shared') :
    Sound ⟨shared', before ++ (as ++ rest) :: after, history ++ e.toList⟩ := by
  -- the acts of all other threads stay what they are
  let others : Multiset Act := (before.flatten ++ rest ++ after.flatten : List Act)
  have hacts : (⟨shared, before ++ (a :: rest) :: after, history⟩ : System σ).acts =
      a ::ₘ others := acts_eq [a]
  have haccounted : Accounted history shared.world (a ::ₘ others) := hacts ▸ h.accounted
  obtain ⟨hbooks, -⟩ := hdoes.books h.faithful h.placed
  refine
    { faithful := hbooks.faithful h.faithful
      accounted := ?_
      timely := h.timely.snoc ?_
      placed := ?_
      size := ?_
      spawned := ?_
      tended := ?_ }
  · rw [acts_eq]
    exact haccounted.step hdoes h.faithful h.placed
  · rintro n k rfl
    obtain rfl := hdoes.of_ran
    obtain ⟨t, hreg, hsettled, -⟩ := haccounted.ticket h.faithful
    exact ⟨t, hreg, hsettled⟩
  · intro k t ht
    -- the task of a coroutine was there before, or has just been made with it
    obtain ⟨htasks, -⟩ | ⟨-, htasks, -, hlt⟩ := hdoes.roster h.placed
    · exact (h.placed k t (htasks ▸ ht)).trans_le hbooks.size_le
    · rw [htasks, Array.getElem?_push] at ht
      by_cases hk : k = shared.tasks.size
      · obtain rfl : shared.world.tasks.size = t := by simpa [hk] using ht
        exact hlt
      · rw [if_neg hk] at ht
        exact (h.placed k t ht).trans hlt
  · obtain ⟨htasks, hmachines⟩ | ⟨-, htasks, hmachines, -⟩ := hdoes.roster h.placed
    · exact (congrArg Array.size htasks).trans (h.size.trans hmachines.symm)
    · rw [htasks, hmachines, Array.size_push, h.size]
  · intro k t ht
    obtain ⟨htasks, -⟩ | ⟨rfl, htasks, -, -⟩ := hdoes.roster h.placed
    · exact List.mem_append_left _ (h.spawned k t (htasks ▸ ht))
    · rw [htasks, Array.getElem?_push] at ht
      by_cases hk : k = shared.tasks.size
      · obtain rfl : shared.world.tasks.size = t := by simpa [hk] using ht
        have hsize : shared.tasks.size = shared.machines.size := h.size
        rw [hk, hsize]
        exact List.mem_append_right _ (List.mem_singleton_self _)
      · rw [if_neg hk] at ht
        exact List.mem_append_left _ (h.spawned k t ht)
  · intro k
    obtain ⟨p, hp⟩ := h.tended k
    rw [acts_eq]
    rw [hacts] at hp
    exact hp.step hdoes h.faithful haccounted h.placed h.spawned

/-- Every step keeps the system sound. -/
theorem Sound.step {s s' : System σ} (h : s.Sound) (hstep : Step s s') : s'.Sound := by
  cases hstep with
  | start => exact h.start
  | act hthreads hdoes =>
    obtain ⟨shared, threads, history⟩ := s
    dsimp only at hthreads
    subst hthreads
    exact h.act hdoes

/-- Soundness is kept by any number of steps. -/
theorem Sound.steps {s s' : System σ} (h : s.Sound) (hsteps : Steps s s') : s'.Sound := by
  induction hsteps with
  | refl => exact h
  | tail _ hstep ih => exact ih.step hstep

/-- All systems that can be reached are sound. -/
theorem Reachable.sound {s : System σ} (h : s.Reachable) : s.Sound := by
  obtain ⟨w, hsteps⟩ := h
  exact (sound_initial w).steps hsteps

/-- The history only grows. -/
theorem Steps.history {s s' : System σ} (h : Steps s s') : s.history <+: s'.history := by
  induction h with
  | refl => exact List.prefix_rfl
  | tail _ hstep ih =>
    cases hstep with
    | start => exact ih
    | act _ _ => exact ih.trans (List.prefix_append _ _)

/-! ## The order of things -/

/-- What holds in whatever order threads make their steps. -/
structure Orderly (s : System σ) : Prop where
  /-- At most one settlement of a task came first, and its outcome is the task's. -/
  settles_once : ∀ t, firsts s.history t = (s.shared.world.task t).outcome.toList
  /-- An outcome never changes. -/
  outcome_stays : ∀ t o s', (s.shared.world.task t).outcome = some o → Steps s s' →
    (s'.shared.world.task t).outcome = some o
  /-- Every registration has a ticket of its own. -/
  tickets_differ : (tickets s.history).Nodup
  /-- A continuation runs at most once. -/
  runs_at_most_once : ∀ n, s.history.countP (Happening.calls n) ≤ 1
  /-- A continuation runs only after it was registered and the task that it waits for has settled. -/
  runs_after_settlement : Timely s.history
  /-- A continuation has run when its task has settled and no thread is inside an operation. -/
  runs_when_settled : ∀ n t k, .registered n t k ∈ s.history →
    s.shared.world.hasSettled t = true → s.Idle → s.history.countP (Happening.calls n) = 1
  /-- A machine is resumed when it is spawned and once for every suspension, after the task that it
  waits for has settled. -/
  resumes_per_suspension : ∀ k, ∃ p, Course k s.history p ∧
    (s.Idle → p = .absent ∨ p = .done ∨
      ∃ n t, p = .asleep n t ∧ s.shared.world.hasSettled t = false)
  /-- Resumptions and suspensions take turns. -/
  takes_turns : ∀ k,
    s.history.countP (Happening.suspends k) ≤ s.history.countP (Happening.resumes k) ∧
      s.history.countP (Happening.resumes k) ≤ s.history.countP (Happening.suspends k) + 1
  /-- A machine that is over is not resumed again. -/
  stays_over : ∀ k r h₁ h₂, s.history = h₁ ++ .returned k r :: h₂ → r ≠ .ok .suspended →
    .resumed k ∉ h₂
  /-- The driver of a machine settles its task at most once. -/
  concludes_once : ∀ k, s.history.countP (Happening.concludes k) ≤ 1

/-- Idle threads hold no tickets and have nothing to do with machines. -/
theorem Idle.pending_eq {s : System σ} (h : s.Idle) : pending s.acts = 0 := by
  rw [Multiset.eq_zero_iff_forall_notMem]
  intro x hx
  obtain ⟨a, ha, hticket⟩ := (Multiset.mem_filterMap _ _).1 hx
  rw [h a ha] at hticket
  simp [Act.ticket?] at hticket

/-- Where nothing is left to do, no coroutine is in a stage. -/
theorem Idle.stages_eq {s : System σ} (h : s.Idle) (k : Nat) : stages k s.acts = 0 := by
  rw [Multiset.eq_zero_iff_forall_notMem]
  intro x hx
  obtain ⟨a, ha, hstage⟩ := (Multiset.mem_filterMap _ _).1 hx
  rw [h a ha] at hstage
  simp [Act.stage?] at hstage

/-- What is due has run when no thread is inside an operation. -/
theorem Sound.ran_of_idle {s : System σ} (h : s.Sound) (hidle : s.Idle) {n t : Nat}
    {k : Continuation} (hreg : .registered n t k ∈ s.history)
    (ht : s.shared.world.hasSettled t = true) : .ran n k ∈ s.history := by
  have hdue : (n, k) ∈ (due s.shared.world.hasSettled s.history : Multiset _) :=
    Multiset.mem_coe.2 (mem_due.2 ⟨t, hreg, ht⟩)
  rw [← h.accounted, hidle.pending_eq, zero_add] at hdue
  exact mem_ran.1 (Multiset.mem_coe.1 hdue)

/-- A machine that no thread has to do with has not been spawned, is done, or waits for a task that
has not settled. -/
theorem Sound.standing_of_idle {s : System σ} (h : s.Sound) (hidle : s.Idle) {k : Nat}
    {p : Standing} (hp : Tended s.history s.acts s.shared.machines.size k p) :
    p = .absent ∨ p = .done ∨ ∃ n t, p = .asleep n t ∧ s.shared.world.hasSettled t = false := by
  have hstages := hp.stages
  rw [hidle.stages_eq k] at hstages
  cases p with
  | absent => exact .inl rfl
  | active st => simp [Standing.stages] at hstages
  | done => exact .inr (.inl rfl)
  | asleep n t =>
    refine .inr (.inr ⟨n, t, rfl, ?_⟩)
    obtain ⟨hreg, hran⟩ := hp.asleep n t rfl
    by_contra ht
    exact hran (h.ran_of_idle hidle hreg (by simpa using ht))

/-- Whatever the order of steps, tasks settle once, waiters run once, and machines are resumed once
for every suspension. -/
theorem threads_orderly {s : System σ} (hs : s.Reachable) : s.Orderly := by
  have h := hs.sound
  -- every ticket is accounted for once, so it ran at most once
  have hnodup : ((ran s.history).map Prod.fst).Nodup := by
    have hall := h.accounted.nodup h.faithful
    rw [Multiset.map_add, Multiset.nodup_add] at hall
    exact Multiset.coe_nodup.1 hall.2.1
  refine
    { settles_once := h.faithful.outcome
      outcome_stays := ?_
      tickets_differ := h.faithful.nodup
      runs_at_most_once := ?_
      runs_after_settlement := h.timely
      runs_when_settled := ?_
      resumes_per_suspension := ?_
      takes_turns := ?_
      stays_over := ?_
      concludes_once := ?_ }
  · intro t o s' ho hsteps
    have hfirsts := h.faithful.outcome t
    have hfirsts' := (h.steps hsteps).faithful.outcome t
    obtain ⟨rest, hrest⟩ := hsteps.history
    rw [← hrest, firsts_append, hfirsts, ho] at hfirsts'
    cases hout : (s'.shared.world.task t).outcome with
    | none => simp [hout] at hfirsts'
    | some o' =>
      rw [hout] at hfirsts'
      simp only [Option.toList_some, List.singleton_append, List.cons.injEq] at hfirsts'
      rw [hfirsts'.1]
  · intro n
    rw [countP_calls]
    exact List.nodup_iff_count_le_one.1 hnodup n
  · intro n t k hreg ht hidle
    rw [countP_calls]
    apply List.count_eq_one_of_mem hnodup
    exact List.mem_map.2 ⟨(n, k), mem_ran.2 (h.ran_of_idle hidle hreg ht), rfl⟩
  -- what is left is read off the course of each coroutine
  · intro k
    obtain ⟨p, hp⟩ := h.tended k
    exact ⟨p, hp.course, fun hidle => h.standing_of_idle hidle hp⟩
  · intro k
    obtain ⟨p, hp⟩ := h.tended k
    have hcount := hp.course.countP_resumes
    have hahead : p.ahead ≤ 1 := by
      unfold Standing.ahead
      split <;> omega
    omega
  · intro k r h₁ h₂ heq hr
    obtain ⟨p, hp⟩ := h.tended k
    exact (hp.course.not_resumed heq hr).2
  · intro k
    obtain ⟨p, hp⟩ := h.tended k
    rw [hp.course.countP_concludes]
    unfold Standing.concluded
    split <;> omega

/-! ## A task that another thread settles -/

/-- What an act does is a step of the system. -/
theorem Step.of_does (before after : List (List Act)) {shared shared' : Scheduler σ}
    {as rest : List Act} {h : List Happening} {e : Option Happening}
    (hd : Does h shared a as e shared') :
    Step ⟨shared, before ++ (a :: rest) :: after, h⟩
      ⟨shared', before ++ (as ++ rest) :: after, h ++ e.toList⟩ :=
  .act rfl hd

/-- A machine that is suspended on the first task. -/
def sleeper : Machine :=
  .interpreted
    { name := "sleeper", kind := .async, code := default, limit := none
      context := { scopes := [], suspension := some ⟨.task 0, .task "Task"⟩ } }

/-- The first task, and a machine that was spawned. -/
def spawnedSleeper : Scheduler Unit :=
  { world := (World.newTask { host := () } none).2 : Scheduler Unit }.enlist sleeper

/-- The machine waits for the task. -/
def waitingSleeper : Scheduler Unit :=
  (spawnedSleeper.proceed Env.bare 0 sleeper (.ok .suspended)).2

/-- The task is settled, and the machine is resumed. -/
def wokenSleeper : Scheduler Unit :=
  let s := (waitingSleeper.settle 0 (.ok .unit)).2
  { s with machines := s.machines.setIfInBounds 0 sleeper }

/-- One thread spawns a machine, which waits for a task. Another thread settles the task, and finds
itself resuming the machine to its end. -/
def handover : System Unit where
  shared := (wokenSleeper.proceed Env.bare 0 sleeper (.ok (.completed .unit))).2
  threads := [[.host], [.host]]
  history :=
    [.spawned 0 1, .resumed 0, .returned 0 (.ok .suspended), .registered 0 0 (.resume 0),
     .settled none 0 (.ok .unit) true, .ran 0 (.resume 0), .resumed 0,
     .returned 0 (.ok (.completed .unit)), .settled (some 0) 1 (.ok .unit) true]

theorem steps_waitingSleeper : Steps (initial { host := () }) ⟨waitingSleeper, [[.host], [.host]],
    [.spawned 0 1, .resumed 0, .returned 0 (.ok .suspended), .registered 0 0 (.resume 0)]⟩ := by
  have hstart : Steps (initial { host := () }) ⟨{ world := { host := () } }, [[.host]], []⟩ :=
    .single (.start _)
  have htask := (hstart.tail (.of_does [] [] (.create none rfl))).tail (.start _)
  have hspawned := htask.tail (.of_does [] [[.host]] (.spawn sleeper rfl))
  have hresumed := hspawned.tail (.of_does [] [[.host]] (.resume 0))
  have hreturned := hresumed.tail (.of_does [] [[.host]] (.return 0 sleeper (.ok .suspended)))
  have hproceed : spawnedSleeper.proceed Env.bare 0 sleeper (.ok .suspended) =
      ([], waitingSleeper) := rfl
  have hlt : 0 < spawnedSleeper.world.tasks.size := by decide
  have hfresh : ∀ t k, Happening.registered 0 t k ∉
      [.spawned 0 1, .resumed 0, .returned 0 (.ok .suspended)] := by simp
  have hwait := Does.wait Env.bare rfl ⟨_, rfl, rfl⟩ hlt hfresh hproceed
  exact hreturned.tail (.of_does [] [[.host]] hwait)

theorem reachable_handover : handover.Reachable := by
  refine ⟨{ host := () }, ?_⟩
  have hlt : 0 < waitingSleeper.world.tasks.size := by decide
  have hjobs : waitingSleeper.settle 0 (.ok .unit) =
      ((true, [.continue (.resume 0)]), (waitingSleeper.settle 0 (.ok .unit)).2) := rfl
  have hsettled := steps_waitingSleeper.tail (.of_does [[.host]] [] (.settle rfl hlt hjobs))
  have hran := hsettled.tail (.of_does [[.host]] [] (.run 0 (.resume 0)))
  have hresumed := hran.tail (.of_does [[.host]] [] (.resume 0))
  have hreturned := hresumed.tail
    (.of_does [[.host]] [] (.return 0 sleeper (.ok (.completed .unit))))
  have hproceed : wokenSleeper.proceed Env.bare 0 sleeper (.ok (.completed .unit)) =
      ([], handover.shared) := rfl
  have houtcome : (handover.shared.world.task 1).outcome = some (.ok .unit) := rfl
  have hconclude : Does handover.history.dropLast wokenSleeper
      (.returned 0 (.ok (.completed .unit))) _ (some (.settled (some 0) 1 (.ok .unit) true)) _ :=
    .conclude Env.bare rfl rfl (by simp) hproceed rfl fun _ => houtcome
  exact hreturned.tail (.of_does [[.host]] [] hconclude)

theorem handover_orderly : handover.Reachable ∧ handover.Idle ∧ handover.Orderly := by
  refine ⟨reachable_handover, ?_, threads_orderly reachable_handover⟩
  intro a ha
  simpa [acts, handover] using ha

end System

end Coroutine
