import Mathlib
import Coroutine.Proofs.Scheduler.Threads

/-!
# Tickets

A continuation that was registered for a task is in one place at a time: it waits in the task, or a
thread has taken it and will run it, or it has run. It waits exactly as long as the task has not
settled. So the numbers of threads that will run it and of its runs add up to one once the task has
settled, and to zero before: `Accounted`. This rests on the agreement of the tasks with the history,
`Faithful`: outcomes are those of the settlements that came first, and those who wait are those who
registered.
-/

namespace Coroutine

variable {σ : Type} {o : Outcome} {first : Bool} {jobs : List Job} {env : Env σ} {m : Machine}
  {n : Nat} {acts : Multiset Act}

/-! ## Tasks -/

namespace World

variable {w w' : World σ} {t : Nat}

/-- Changing a task leaves all others alone. -/
theorem task_modify (w : World σ) {t : Nat} (ht : t < w.tasks.size) (f : Task → Task) (t' : Nat) :
    { w with tasks := w.tasks.modify t f }.task t' = if t' = t then f (w.task t) else w.task t' := by
  simp only [task, Array.getD_eq_getD_getElem?, Array.getElem?_modify]
  by_cases h : t' = t
  · subst h
    simp [ht]
  · simp [h, Ne.symm h]

/-- A new task gets the next number. -/
theorem task_newTask (w : World σ) (outcome : Option Outcome) (t : Nat) :
    (w.newTask outcome).2.task t = if t = w.tasks.size then { outcome } else w.task t := by
  simp only [newTask, task, Array.getD_eq_getD_getElem?, Array.getElem?_push]
  by_cases h : t = w.tasks.size <;> simp [h]

/-- One task is added. -/
theorem size_newTask (w : World σ) (outcome : Option Outcome) :
    (w.newTask outcome).2.tasks.size = w.tasks.size + 1 := by
  simp [newTask]

/-- A task that is not there is pending and has no continuations. -/
theorem task_of_size_le (h : w.tasks.size ≤ t) : w.task t = {} := by
  simp [task, Array.getD_eq_getD_getElem?, h]

/-- Only the tasks matter for the tasks. -/
theorem task_congr (h : w'.tasks = w.tasks) (t : Nat) : w'.task t = w.task t := by
  simp only [task, h]

/-- What waiting for a task does: it joins those who wait, or goes on at once. -/
theorem await_cases (ht : t < w.tasks.size) {k : Continuation} {now : List Continuation}
    (h : w.await t k = (now, w')) :
    ((w.task t).outcome = none ∧ now = [] ∧ w'.tasks.size = w.tasks.size ∧
      ∀ t', w'.task t' = if t' = t then ⟨none, (w.task t).waiters ++ [k]⟩ else w.task t') ∨
    ((w.task t).outcome.isSome = true ∧ now = [k] ∧ w' = w) := by
  unfold await at h
  split at h
  · rename_i waiters htask
    obtain ⟨rfl, rfl⟩ := Prod.mk.inj h
    refine .inl ⟨by rw [htask], rfl, by simp, fun t' => ?_⟩
    rw [task_modify w ht, htask]
  · rename_i o waiters htask
    obtain ⟨rfl, rfl⟩ := Prod.mk.inj h
    exact .inr ⟨by rw [htask]; rfl, rfl, rfl⟩

end World

namespace Scheduler

variable {s s' : Scheduler σ} {t : Nat}

/-- What settling a task does: it sets the outcome and takes those who wait, or nothing. -/
theorem settle_cases (ht : t < s.world.tasks.size) (h : s.settle t o = ((first, jobs), s')) :
    s'.tasks = s.tasks ∧ s'.machines = s.machines ∧ s'.world.tasks.size = s.world.tasks.size ∧
      ((first = true ∧ (s.world.task t).outcome = none ∧
        jobs = (s.world.task t).waiters.map .continue ∧
        ∀ t', s'.world.task t' = if t' = t then ⟨some o, []⟩ else s.world.task t') ∨
      (first = false ∧ (s.world.task t).outcome.isSome = true ∧ jobs = [] ∧
        s'.world = s.world)) := by
  unfold settle World.settle at h
  split at h
  rename_i settled waiters world heq
  obtain ⟨⟨rfl, rfl⟩, rfl⟩ : (settled = first ∧ waiters.map .continue = jobs) ∧
      { s with world } = s' := by simpa using h
  split at heq
  · rename_i waiters' htask
    obtain ⟨⟨rfl, rfl⟩, rfl⟩ : (true = settled ∧ waiters' = waiters) ∧ _ = world := by
      simpa using heq
    refine ⟨rfl, rfl, by simp, .inl ⟨rfl, by rw [htask], by rw [htask], fun t' => ?_⟩⟩
    rw [World.task_modify _ ht]
  · rename_i o' waiters' htask
    obtain ⟨⟨rfl, rfl⟩, rfl⟩ : (false = settled ∧ [] = waiters) ∧ s.world = world := by
      simpa using heq
    exact ⟨rfl, rfl, rfl, .inr ⟨rfl, by rw [htask]; rfl, rfl, rfl⟩⟩

/-- A machine waits for a task as anyone does. -/
theorem proceed_of_awaits {k : Nat} (hm : m.Awaits t)
    (h : s.proceed env k m (.ok .suspended) = (jobs, s')) :
    ∃ now w, s.world.await t (.resume k) = (now, w) ∧ jobs = now.map .continue ∧
      s' = { s with machines := s.machines.setIfInBounds k m.withoutSuspension, world := w } := by
  obtain ⟨b, hsuspension, hb⟩ := hm
  have hperform : (env.onCompleted ⟨.task t, b⟩ (.resume k)).perform s.world =
      (.ok (s.world.await t (.resume k)).1, (s.world.await t (.resume k)).2) := by
    simp only [Env.onCompleted, Env.protocol, hb]
    rfl
  simp only [proceed, waitFor, Machine.takeSuspension, hsuspension, hperform] at h
  obtain ⟨rfl, rfl⟩ := Prod.mk.inj h
  exact ⟨_, _, rfl, rfl, rfl⟩

/-- `Concludes s t jobs s'`: the task `t` is settled, after changes that have nothing to do with
tasks. -/
def Concludes (s : Scheduler σ) (t : Nat) (jobs : List Job) (s' : Scheduler σ) : Prop :=
  ∃ (s₀ : Scheduler σ) (o : Outcome) (first : Bool),
    s₀.world.tasks = s.world.tasks ∧ s₀.tasks = s.tasks ∧
    s₀.machines.size = s.machines.size ∧ s₀.settle t o = ((first, jobs), s')

/-- A coroutine that has come to its end settles its task. -/
theorem concludes_finish {k : Nat} (h : s.finish k o = (jobs, s')) (ht : s.tasks[k]? = some t) :
    s.Concludes t jobs s' := by
  have hk : s.tasks.getD k 0 = t := by simp [Array.getD_eq_getD_getElem?, ht]
  rw [finish, hk] at h
  obtain ⟨rfl, rfl⟩ := Prod.mk.inj h
  exact ⟨s, o, _, rfl, rfl, rfl, rfl⟩

/-- Only tasks, coroutines and the number of machines matter. -/
theorem Concludes.of_eq {s₀ : Scheduler σ} (h : s₀.Concludes t jobs s')
    (hworld : s₀.world.tasks = s.world.tasks) (htasks : s₀.tasks = s.tasks)
    (hmachines : s₀.machines.size = s.machines.size) : s.Concludes t jobs s' := by
  obtain ⟨s₁, o, first, hworld', htasks', hmachines', hs⟩ := h
  exact ⟨s₁, o, first, hworld'.trans hworld, htasks'.trans htasks, hmachines'.trans hmachines, hs⟩

/-- A coroutine that has failed settles its task as well. -/
theorem concludes_fail {k : Nat} {message : String} (h : s.fail k message = (jobs, s'))
    (ht : s.tasks[k]? = some t) : s.Concludes t jobs s' := by
  unfold fail at h
  exact (concludes_finish h ht).of_eq rfl rfl rfl

/-- A machine that is stranded is over. -/
theorem concludes_waitFor {k : Nat} (hm : m.Stranded) (ht : s.tasks[k]? = some t)
    (h : s.waitFor env k m = (jobs, s')) : s.Concludes t jobs s' := by
  unfold waitFor Machine.takeSuspension at h
  cases hsuspension : m.suspension with
  | none =>
    simp only [hsuspension] at h
    exact (concludes_fail h ht).of_eq rfl rfl (by simp)
  | some x =>
    obtain ⟨hb, hawaiter⟩ := hm x hsuspension
    have hraise : ∃ e w, (env.onCompleted x (.resume k)).perform s.world = (.error e, w) ∧
        w.tasks = s.world.tasks := by
      simp only [Env.onCompleted, Env.protocol, hb]
      obtain ⟨v, b⟩ := x
      cases v with
      | task t' => exact absurd rfl (hawaiter t')
      | _ => exact ⟨_, _, rfl, rfl⟩
    obtain ⟨e, w, hperform, hw⟩ := hraise
    simp only [hsuspension, hperform] at h
    exact (concludes_finish h ht).of_eq hw rfl (by simp)

/-- A machine that waits for no task is over. -/
theorem concludes_proceed {k : Nat} {r : Except RunError Status}
    (hr : r = .ok .suspended → m.Stranded) (ht : s.tasks[k]? = some t)
    (h : s.proceed env k m r = (jobs, s')) : s.Concludes t jobs s' := by
  cases r with
  | ok status =>
    cases status with
    | suspended => exact concludes_waitFor (hr rfl) ht h
    | yielded v => exact concludes_fail h ht
    | completed v => exact concludes_finish h ht
  | error e =>
    cases e with
    | thrown e => exact concludes_finish h ht
    | _ => exact concludes_fail h ht

/-- What the settlement of a machine's task does to tasks and machines. -/
theorem Concludes.cases (ht : t < s.world.tasks.size) (h : s.Concludes t jobs s') :
    s'.tasks = s.tasks ∧ s'.machines.size = s.machines.size ∧
      s'.world.tasks.size = s.world.tasks.size ∧
      (((s.world.task t).outcome = none ∧ jobs = (s.world.task t).waiters.map .continue ∧
        ∃ o, ∀ t', s'.world.task t' = if t' = t then ⟨some o, []⟩ else s.world.task t') ∨
      ((s.world.task t).outcome.isSome = true ∧ jobs = [] ∧ s'.world.tasks = s.world.tasks)) := by
  obtain ⟨s₀, o, first, hworld, htasks, hmachines, hs⟩ := h
  have heq := World.task_congr hworld
  rw [← hworld] at ht
  obtain ⟨htasks', hmachines', hsize, ⟨-, hnone, hjobs, hw⟩ | ⟨-, hsome, hjobs, hw⟩⟩ :=
    settle_cases ht hs
  · refine ⟨htasks'.trans htasks, (congrArg _ hmachines').trans hmachines, by rw [hsize, hworld],
      .inl ?_⟩
    simp only [heq] at hnone hjobs hw
    exact ⟨hnone, hjobs, o, hw⟩
  · refine ⟨htasks'.trans htasks, (congrArg _ hmachines').trans hmachines, by rw [hsize, hworld],
      .inr ?_⟩
    rw [heq] at hsome
    exact ⟨hsome, hjobs, by rw [hw, hworld]⟩

end Scheduler

/-! ## What the history says -/

/-- The outcomes of the settlements of a task that came first. -/
def firsts (h : List Happening) (t : Nat) : List Outcome :=
  h.filterMap fun
    | .settled _ t' o true => if t' = t then some o else none
    | _ => none

/-- All tickets that were given out. -/
def tickets (h : List Happening) : List Nat :=
  h.filterMap fun
    | .registered n _ _ => some n
    | _ => none

/-- The continuations that have run, with their tickets. -/
def ran (h : List Happening) : List (Nat × Continuation) :=
  h.filterMap fun
    | .ran n k => some (n, k)
    | _ => none

/-- The continuations that are to run, with their tickets: those for tasks that have settled. -/
def due (settled : Nat → Bool) (h : List Happening) : List (Nat × Continuation) :=
  h.filterMap fun
    | .registered n t k => if settled t then some (n, k) else none
    | _ => none

/-- The continuation that an act runs, with its ticket. -/
def Act.ticket? : Act → Option (Nat × Continuation)
  | .run n k => some (n, k)
  | _ => none

/-- The continuations that threads have taken and will run. -/
def pending (acts : Multiset Act) : Multiset (Nat × Continuation) := acts.filterMap Act.ticket?

/-- Whether a task has settled. -/
def World.hasSettled (w : World σ) (t : Nat) : Bool := (w.task t).outcome.isSome

section History

variable (h h' : List Happening) (t : Nat)

/-- First settlements are read off a history part by part. -/
theorem firsts_append : firsts (h ++ h') t = firsts h t ++ firsts h' t := List.filterMap_append

/-- Registrations are read off a history part by part. -/
theorem registrations_append :
    registrations (h ++ h') t = registrations h t ++ registrations h' t := List.filterMap_append

/-- Tickets are read off a history part by part. -/
theorem tickets_append : tickets (h ++ h') = tickets h ++ tickets h' := List.filterMap_append

/-- Continuations that have run are read off a history part by part. -/
theorem ran_append : ran (h ++ h') = ran h ++ ran h' := List.filterMap_append

/-- Continuations that are due are read off a history part by part. -/
theorem due_append (settled : Nat → Bool) :
    due settled (h ++ h') = due settled h ++ due settled h' := List.filterMap_append

end History

/-- Settling a task makes all its tickets due. -/
theorem due_settle {settled settled' : Nat → Bool} {t : Nat} (ht : settled t = false)
    (hsettled : ∀ t', settled' t' = if t' = t then true else settled t') (h : List Happening) :
    (due settled' h).Perm (registrations h t ++ due settled h) := by
  induction h with
  | nil => rfl
  | cons e h ih =>
    cases e with
    | registered n t' k =>
      by_cases heq : t' = t
      · subst heq
        simpa [due, registrations, hsettled, ht] using ih
      · by_cases hdue : settled t' = true
        · simpa [due, registrations, hsettled, heq, hdue] using
            (ih.cons (n, k)).trans List.perm_middle.symm
        · simpa [due, registrations, hsettled, heq, hdue] using ih
    | _ => simpa [due, registrations] using ih

/-- Tickets are given out by registrations. -/
theorem mem_tickets {h : List Happening} : n ∈ tickets h ↔ ∃ t k, .registered n t k ∈ h := by
  constructor
  · intro hn
    obtain ⟨e, he, heq⟩ := List.mem_filterMap.1 hn
    cases e with
    | registered n' t k =>
      obtain rfl : n' = n := by simpa using heq
      exact ⟨t, k, he⟩
    | _ => simp at heq
  · rintro ⟨t, k, he⟩
    exact List.mem_filterMap.2 ⟨_, he, rfl⟩

/-- A continuation is due once its task has settled. -/
theorem mem_due {settled : Nat → Bool} {h : List Happening} {k : Continuation} :
    (n, k) ∈ due settled h ↔ ∃ t, .registered n t k ∈ h ∧ settled t = true := by
  constructor
  · intro hn
    obtain ⟨e, he, heq⟩ := List.mem_filterMap.1 hn
    cases e with
    | registered n' t k' =>
      by_cases ht : settled t = true
      · obtain ⟨rfl, rfl⟩ : n' = n ∧ k' = k := by simpa [ht] using heq
        exact ⟨t, he, ht⟩
      · simp [ht] at heq
    | _ => simp at heq
  · rintro ⟨t, he, ht⟩
    exact List.mem_filterMap.2 ⟨_, he, by simp [ht]⟩

/-- What has run, with its ticket. -/
theorem mem_ran {h : List Happening} {k : Continuation} : (n, k) ∈ ran h ↔ .ran n k ∈ h := by
  constructor
  · intro hn
    obtain ⟨e, he, heq⟩ := List.mem_filterMap.1 hn
    cases e with
    | ran n' k' =>
      obtain ⟨rfl, rfl⟩ : n' = n ∧ k' = k := by simpa using heq
      exact he
    | _ => simp at heq
  · exact fun he => List.mem_filterMap.2 ⟨_, he, rfl⟩

/-- What is due has a ticket, in order. -/
theorem due_sublist (settled : Nat → Bool) (h : List Happening) :
    ((due settled h).map Prod.fst).Sublist (tickets h) := by
  induction h with
  | nil => exact .slnil
  | cons e h ih =>
    cases e with
    | registered n t k =>
      by_cases ht : settled t = true
      · simpa [due, tickets, ht] using ih.cons_cons n
      · simpa [due, tickets, ht] using ih.cons n
    | _ => simpa [due, tickets] using ih

/-! ## The agreement of tasks and history -/

/-- Whether tasks agree with the history. -/
structure Faithful (h : List Happening) (w : World σ) : Prop where
  /-- An outcome is that of the one settlement that came first. -/
  outcome : ∀ t, firsts h t = (w.task t).outcome.toList
  /-- Until a task settles, those who registered wait for it in their order. -/
  waiters : ∀ t, w.hasSettled t = false → (w.task t).waiters = (registrations h t).map Prod.snd
  exist : ∀ n t k, .registered n t k ∈ h → t < w.tasks.size
  nodup : (tickets h).Nodup

/-- What a step does to the tasks: `Books h w e new w'` says that it turns `w` into `w'`, adds `e` to
the history `h`, and that the continuations `new` become due. -/
inductive Books (h : List Happening) (w : World σ) :
    Option Happening → List (Nat × Continuation) → World σ → Prop where
  /-- Nothing. -/
  | same {e : Option Happening} {w' : World σ} (hw : w'.tasks = w.tasks)
    (hfirsts : ∀ t, firsts e.toList t = []) (htickets : tickets e.toList = []) :
    Books h w e [] w'
  /-- A task settles. -/
  | settle {d : Option Nat} {t : Nat} {o : Outcome} {w' : World σ} (hnone : w.hasSettled t = false)
    (hsize : w'.tasks.size = w.tasks.size)
    (hw : ∀ t', w'.task t' = if t' = t then ⟨some o, []⟩ else w.task t') :
    Books h w (some (.settled d t o true)) (registrations h t) w'
  /-- A continuation joins those who wait. -/
  | join {n t : Nat} {k : Continuation} {w' : World σ} (hn : n ∉ tickets h)
    (ht : t < w.tasks.size) (hnone : w.hasSettled t = false)
    (hsize : w'.tasks.size = w.tasks.size)
    (hw : ∀ t', w'.task t' = if t' = t then ⟨none, (w.task t).waiters ++ [k]⟩ else w.task t') :
    Books h w (some (.registered n t k)) [] w'
  /-- A continuation need not wait. -/
  | pass {n t : Nat} {k : Continuation} (hn : n ∉ tickets h) (ht : t < w.tasks.size)
    (hsome : w.hasSettled t = true) :
    Books h w (some (.registered n t k)) [(n, k)] w
  /-- There is a new task. -/
  | create {e : Option Happening} (outcome : Option Outcome)
    (hfirsts : ∀ t, firsts e.toList t = if t = w.tasks.size then outcome.toList else [])
    (htickets : tickets e.toList = []) :
    Books h w e [] (w.newTask outcome).2

namespace Books

variable {h : List Happening} {w w' : World σ} {e : Option Happening}
  {new : List (Nat × Continuation)}

/-- No task is ever lost. -/
theorem size_le (hb : Books h w e new w') : w.tasks.size ≤ w'.tasks.size := by
  cases hb with
  | same hw => rw [hw]
  | settle _ hsize => exact hsize.ge
  | join _ _ _ hsize => exact hsize.ge
  | pass => exact le_rfl
  | create => simp [World.size_newTask]

/-- A new ticket is not one of the old ones. -/
theorem nodup_tickets (hb : Books h w e new w') (hf : Faithful h w) :
    (tickets (h ++ e.toList)).Nodup := by
  rw [tickets_append]
  cases hb with
  | same _ _ htickets => simpa [htickets] using hf.nodup
  | settle => simpa [tickets] using hf.nodup
  | join hn => exact List.concat_eq_append ▸ hf.nodup.concat hn
  | pass hn => exact List.concat_eq_append ▸ hf.nodup.concat hn
  | create _ _ htickets => simpa [htickets] using hf.nodup

/-- Without a ticket there is no registration. -/
theorem registrations_of_tickets {h : List Happening} (hnil : tickets h = []) (t : Nat) :
    registrations h t = [] := by
  rw [tickets, List.filterMap_eq_nil_iff] at hnil
  rw [registrations, List.filterMap_eq_nil_iff]
  intro e he
  cases e with
  | registered n t' k => simpa using hnil _ he
  | _ => rfl

/-- Without a ticket nothing is due. -/
theorem due_of_tickets {h : List Happening} (hnil : tickets h = []) (settled : Nat → Bool) :
    due settled h = [] := by
  have hsub := due_sublist settled h
  rw [hnil, List.sublist_nil, List.map_eq_nil_iff] at hsub
  exact hsub

/-- Tasks go on to agree with the history. -/
theorem faithful (hb : Books h w e new w') (hf : Faithful h w) :
    Faithful (h ++ e.toList) w' where
  nodup := hb.nodup_tickets hf
  exist := by
    intro n t k hmem
    -- a registration is an old one, or the one that is booked now
    rcases List.mem_append.1 hmem with hmem | hmem
    · exact (hf.exist n t k hmem).trans_le hb.size_le
    · cases hb with
      | same _ _ htickets => exact absurd (mem_tickets.2 ⟨t, k, hmem⟩) (by simp [htickets])
      | settle => simp at hmem
      | join _ ht _ hsize =>
        obtain ⟨rfl, rfl, rfl⟩ : _ ∧ _ ∧ _ := by simpa using hmem
        rwa [hsize]
      | pass _ ht =>
        obtain ⟨rfl, rfl, rfl⟩ : _ ∧ _ ∧ _ := by simpa using hmem
        exact ht
      | create _ _ htickets => exact absurd (mem_tickets.2 ⟨t, k, hmem⟩) (by simp [htickets])
  outcome := by
    intro t
    -- a task has the outcome of its first settlement
    rw [firsts_append, hf.outcome t]
    cases hb with
    | same hw hfirsts => rw [hfirsts, List.append_nil, World.task_congr hw]
    | @settle d t' o _ hnone _ hw =>
      rw [hw]
      by_cases ht : t = t'
      · subst ht
        simp [World.hasSettled] at hnone
        simp [firsts, hnone]
      · simp [firsts, ht, Ne.symm ht]
    | @join n t' k _ _ _ hnone _ hw =>
      rw [hw]
      by_cases ht : t = t'
      · subst ht
        simp [World.hasSettled] at hnone
        simp [firsts, hnone]
      · simp [firsts, ht]
    | pass => simp [firsts]
    | @create _ outcome hfirsts =>
      rw [hfirsts, World.task_newTask]
      by_cases ht : t = w.tasks.size
      · rw [if_pos ht, if_pos ht, World.task_of_size_le ht.ge]
        rfl
      · rw [if_neg ht, if_neg ht, List.append_nil]
  waiters := by
    intro t hsettled
    rw [registrations_append]
    cases hb with
    | same hw _ htickets =>
      rw [World.hasSettled, World.task_congr hw] at hsettled
      rw [World.task_congr hw, hf.waiters t hsettled, registrations_of_tickets htickets,
        List.append_nil]
    | @settle d t' o _ _ _ hw =>
      rw [World.hasSettled, hw] at hsettled
      by_cases ht : t = t'
      · simp [ht] at hsettled
      · rw [if_neg ht] at hsettled
        rw [hw, if_neg ht, hf.waiters t hsettled]
        simp [registrations]
    | @join n t' k _ _ _ hnone _ hw =>
      rw [World.hasSettled, hw] at hsettled
      rw [hw]
      by_cases ht : t = t'
      · subst ht
        rw [if_pos rfl, hf.waiters t hnone]
        simp [registrations]
      · rw [if_neg ht] at hsettled ⊢
        rw [hf.waiters t hsettled]
        simp [registrations, Ne.symm ht]
    | @pass n t' k _ _ hsome =>
      rw [hf.waiters t hsettled]
      have ht : t' ≠ t := by
        rintro rfl
        simp [hsome] at hsettled
      simp [registrations, ht]
    | @create _ outcome _ htickets =>
      rw [World.hasSettled, World.task_newTask] at hsettled
      rw [World.task_newTask, registrations_of_tickets htickets, List.append_nil]
      by_cases ht : t = w.tasks.size
      -- nobody can have waited for a task that was not there
      · have hnil : registrations h t = [] := by
          rw [registrations, List.filterMap_eq_nil_iff]
          intro e he
          cases e with
          | registered n t' k =>
            have hlt := hf.exist n t' k he
            simp
            omega
          | _ => rfl
        rw [if_pos ht, hnil]
        rfl
      · rw [if_neg ht] at hsettled ⊢
        rw [hf.waiters t hsettled]

/-- What becomes due is what the step says. -/
theorem due_perm (hb : Books h w e new w') (hf : Faithful h w) :
    (due w'.hasSettled (h ++ e.toList)).Perm (new ++ due w.hasSettled h) := by
  rw [due_append]
  cases hb with
  | same hw _ htickets =>
    have heq : w'.hasSettled = w.hasSettled := by
      funext t
      rw [World.hasSettled, World.hasSettled, World.task_congr hw]
    rw [due_of_tickets htickets, heq, List.append_nil, List.nil_append]
  | @settle d t o _ hnone _ hw =>
    have hsettled : ∀ t', w'.hasSettled t' = if t' = t then true else w.hasSettled t' := by
      intro t'
      rw [World.hasSettled, hw]
      by_cases ht : t' = t <;> simp [ht, World.hasSettled]
    -- all that waited for the task becomes due at once
    simpa [due] using due_settle hnone hsettled h
  | @join n t k _ _ _ hnone _ hw =>
    have heq : w'.hasSettled = w.hasSettled := by
      funext t'
      rw [World.hasSettled, hw]
      by_cases ht : t' = t
      · subst ht
        rw [if_pos rfl, hnone]
        rfl
      · rw [if_neg ht]
        rfl
    simp [heq, due, hnone]
  | @pass n t k _ _ hsome =>
    have hone : due w.hasSettled [.registered n t k] = [(n, k)] := by simp [due, hsome]
    rw [Option.toList_some, hone]
    exact List.perm_append_comm
  | @create _ outcome _ htickets =>
    -- the new task is not one that anybody waits for
    have heq : due (w.newTask outcome).2.hasSettled h = due w.hasSettled h := by
      apply List.filterMap_congr
      intro e he
      cases e with
      | registered n t k =>
        have hlt := hf.exist n t k he
        have heq : (w.newTask outcome).2.hasSettled t = w.hasSettled t := by
          rw [World.hasSettled, World.task_newTask, if_neg hlt.ne]
          rfl
        simp only [heq]
      | _ => rfl
    rw [due_of_tickets htickets, heq, List.append_nil, List.nil_append]

end Books

/-! ## The books of every step -/

/-- A ticket that was not registered was not given out. -/
theorem not_mem_tickets {h : List Happening} (hn : ∀ t k, .registered n t k ∉ h) :
    n ∉ tickets h := by
  rw [mem_tickets]
  rintro ⟨t, k, he⟩
  exact hn t k he

/-- A pending task has not settled. -/
theorem World.hasSettled_eq_false {w : World σ} {t : Nat} (h : (w.task t).outcome = none) :
    w.hasSettled t = false := by
  rw [World.hasSettled, h]
  rfl

/-- Those who waited are taken with the tickets that they were given. -/
theorem ticketedJobs_eq {h : List Happening} {w : World σ} {t : Nat} (hf : Faithful h w)
    (ht : w.hasSettled t = false) :
    ticketedJobs h t ((w.task t).waiters.map .continue) =
      (registrations h t).map fun x => .run x.1 x.2 := by
  rw [ticketedJobs, hf.waiters t ht]
  induction registrations h t with
  | nil => rfl
  | cons x l ih => exact congrArg _ ih

/-- The tickets of continuations to be run. -/
theorem filterMap_ticket?_run (l : List (Nat × Continuation)) :
    (l.map fun x => Act.run x.1 x.2).filterMap Act.ticket? = l := by
  induction l with
  | nil => rfl
  | cons x l ih => exact congrArg _ ih

/-- A step of settling keeps the books. -/
theorem Books.of_settle {h : List Happening} {s s' : Scheduler σ} {t : Nat}
    (hf : Faithful h s.world) (ht : t < s.world.tasks.size)
    (hs : s.settle t o = ((first, jobs), s')) (d : Option Nat) :
    Books h s.world (some (.settled d t o first))
      ((ticketedJobs h t jobs).filterMap Act.ticket?) s'.world := by
  obtain ⟨-, -, hsize, ⟨rfl, hnone, rfl, hw⟩ | ⟨rfl, hsome, rfl, hw⟩⟩ := Scheduler.settle_cases ht hs
  · have hsettled := World.hasSettled_eq_false hnone
    rw [ticketedJobs_eq hf hsettled, filterMap_ticket?_run]
    exact .settle hsettled hsize hw
  · have hnil : ticketedJobs h t [] = [] := List.zipWith_nil_right
    rw [hnil, hw]
    exact .same rfl (fun _ => rfl) rfl

/-- The settlement of a machine's task keeps the books. -/
theorem Books.of_concludes {h : List Happening} {s s' : Scheduler σ} {t : Nat}
    (hf : Faithful h s.world) (ht : t < s.world.tasks.size) (hs : s.Concludes t jobs s')
    (hfirst : first = (s.world.task t).outcome.isNone)
    (ho : first = true → (s'.world.task t).outcome = some o) (d : Option Nat) :
    Books h s.world (some (.settled d t o first))
      ((ticketedJobs h t jobs).filterMap Act.ticket?) s'.world := by
  obtain ⟨-, -, hsize, ⟨hnone, rfl, o', hw⟩ | ⟨hsome, rfl, hw⟩⟩ := hs.cases ht
  · obtain rfl : first = true := by rw [hfirst, hnone]; rfl
    obtain rfl : o' = o := by simpa [hw] using ho rfl
    have hsettled := World.hasSettled_eq_false hnone
    rw [ticketedJobs_eq hf hsettled, filterMap_ticket?_run]
    exact .settle hsettled hsize hw
  · obtain rfl : first = false := by
      obtain ⟨o', ho'⟩ := Option.isSome_iff_exists.1 hsome
      rw [hfirst, ho']
      rfl
    have hnil : ticketedJobs h t [] = [] := List.zipWith_nil_right
    rw [hnil]
    exact .same hw (fun _ => rfl) rfl

/-- A step of waiting keeps the books. -/
theorem Books.of_await {h : List Happening} {w w' : World σ} {t : Nat} {k : Continuation}
    {now : List Continuation} (ht : t < w.tasks.size) (hn : ∀ t' k', .registered n t' k' ∉ h)
    (hs : w.await t k = (now, w')) :
    Books h w (some (.registered n t k)) ((now.map (Act.run n)).filterMap Act.ticket?) w' := by
  obtain ⟨hnone, rfl, hsize, hw⟩ | ⟨hsome, rfl, rfl⟩ := World.await_cases ht hs
  · exact .join (not_mem_tickets hn) ht (World.hasSettled_eq_false hnone) hsize hw
  · exact .pass (not_mem_tickets hn) ht hsome

/-- Whether the tasks of the machines exist. -/
def Scheduler.Placed (s : Scheduler σ) : Prop :=
  ∀ k t : Nat, s.tasks[k]? = some t → t < s.world.tasks.size

/-- Every step keeps the books: it takes on the continuations that become due, and an act that runs
one is gone with it. -/
theorem Does.books {h : List Happening} {s s' : Scheduler σ} {a : Act} {as : List Act}
    {e : Option Happening} (hd : Does h s a as e s') (hf : Faithful h s.world)
    (hp : s.Placed) :
    Books h s.world e (as.filterMap Act.ticket?) s'.world ∧ a.ticket?.toList = ran e.toList := by
  -- only continuations have tickets, so nothing the program does uses one up
  have hcode : ∀ {a : Act}, a.isCode = true → a.ticket? = none := by
    intro a ha
    cases a <;> simp_all [Act.isCode, Act.ticket?]
  cases hd with
  | settle ha ht hs =>
    rw [List.filterMap_append, List.filterMap_cons_none (hcode ha), List.filterMap_nil,
      List.append_nil, hcode ha]
    exact ⟨.of_settle hf ht hs none, rfl⟩
  | await ha ht _ hn hs =>
    rw [List.filterMap_append, List.filterMap_cons_none (hcode ha), List.filterMap_nil,
      List.append_nil, hcode ha]
    exact ⟨.of_await ht hn hs, rfl⟩
  | create outcome ha =>
    rw [List.filterMap_cons_none (hcode ha), hcode ha]
    refine ⟨.create outcome (fun t => ?_) ?_, ?_⟩
    · cases outcome with
      | none => simp [firsts]
      | some o =>
        by_cases ht : t = s.world.tasks.size
        · subst ht
          simp [firsts]
        · simp [firsts, ht, Ne.symm ht]
    · cases outcome <;> rfl
    · cases outcome <;> rfl
  | spawn m ha =>
    rw [List.filterMap_cons_none rfl, List.filterMap_cons_none (hcode ha), hcode ha]
    exact ⟨.create none (fun t => by simp [firsts]) rfl, rfl⟩
  | other ha hw =>
    rw [List.filterMap_cons_none (hcode ha), hcode ha]
    exact ⟨.same hw (fun _ => rfl) rfl, rfl⟩
  | leave => exact ⟨.same rfl (fun _ => rfl) rfl, rfl⟩
  | run n k =>
    have hstart : k.start.ticket? = none := by cases k <;> rfl
    rw [List.filterMap_cons_none hstart]
    exact ⟨.same rfl (fun _ => rfl) rfl, rfl⟩
  | resume k => exact ⟨.same rfl (fun _ => rfl) rfl, rfl⟩
  | «return» k m r => exact ⟨.same rfl (fun _ => rfl) rfl, rfl⟩
  | @wait env k t n m jobs _ hm hawaits ht hn hs =>
    obtain ⟨now, w, hawait, rfl, rfl⟩ := Scheduler.proceed_of_awaits hawaits hs
    rw [List.map_map]
    exact ⟨.of_await ht hn hawait, rfl⟩
  | conclude _ _ ht hr hs hfirst ho =>
    have hconcludes := Scheduler.concludes_proceed hr ht hs
    exact ⟨.of_concludes hf (hp _ _ ht) hconcludes hfirst ho _, rfl⟩

/-! ## The account -/

/-- Whether every continuation that is due is about to run or has run, each once. -/
def Accounted (h : List Happening) (w : World σ) (acts : Multiset Act) : Prop :=
  pending acts + ran h = due w.hasSettled h

/-- The tickets that are still to be used, one act at a time. -/
theorem pending_cons (a : Act) (acts : Multiset Act) :
    pending (a ::ₘ acts) = a.ticket?.toList + pending acts := by
  rw [pending, Multiset.filterMap_cons, pending]
  cases a.ticket? <;> rfl

/-- The tickets that are still to be used, several acts at a time. -/
theorem pending_add (as : List Act) (acts : Multiset Act) :
    pending (as + acts) = as.filterMap Act.ticket? + pending acts := by
  rw [pending, Multiset.filterMap_add]
  rfl

/-- A step keeps the account. -/
theorem Accounted.step {h : List Happening} {s s' : Scheduler σ} {a : Act} {as : List Act}
    {e : Option Happening} (hd : Does h s a as e s') (hf : Faithful h s.world) (hp : s.Placed)
    (ha : Accounted h s.world (a ::ₘ acts)) : Accounted (h ++ e.toList) s'.world (as + acts) := by
  obtain ⟨hbooks, hticket⟩ := hd.books hf hp
  rw [Accounted, pending_cons, hticket] at ha
  calc pending (as + acts) + ran (h ++ e.toList)
      = as.filterMap Act.ticket? + (ran e.toList + pending acts + ran h) := by
        rw [pending_add, ran_append, ← Multiset.coe_add]
        abel
    _ = as.filterMap Act.ticket? + due s.world.hasSettled h := by rw [ha]
    _ = due s'.world.hasSettled (h ++ e.toList) := by
        rw [Multiset.coe_add]
        exact Multiset.coe_eq_coe.2 (hbooks.due_perm hf).symm

/-- No ticket is called twice. -/
theorem Accounted.nodup {h : List Happening} {w : World σ} (ha : Accounted h w acts)
    (hf : Faithful h w) : ((pending acts + ran h).map Prod.fst).Nodup := by
  rw [ha]
  exact Multiset.coe_nodup.2 (hf.nodup.sublist (due_sublist _ _))

/-- What has run had a ticket for a task that has settled. -/
theorem Accounted.registered {h : List Happening} {w : World σ} {k : Continuation}
    (ha : Accounted h w acts) (hran : .ran n k ∈ h) :
    ∃ t, .registered n t k ∈ h ∧ w.hasSettled t = true := by
  rw [← mem_due, ← Multiset.mem_coe, ← ha]
  exact Multiset.mem_add.2 (.inr (mem_ran.2 hran))

/-- A ticket that a thread holds has been called by no one, and its task has settled. -/
theorem Accounted.ticket {h : List Happening} {w : World σ} {k : Continuation}
    (ha : Accounted h w (.run n k ::ₘ acts)) (hf : Faithful h w) :
    ∃ t, .registered n t k ∈ h ∧ firsts h t ≠ [] ∧ ∀ k', .ran n k' ∉ h := by
  have hpending : (n, k) ∈ pending (.run n k ::ₘ acts) := by
    rw [pending_cons]
    simp [Act.ticket?]
  have hmem : (n, k) ∈ (due w.hasSettled h : Multiset _) := by
    rw [← ha]
    exact Multiset.mem_add.2 (.inl hpending)
  obtain ⟨t, hreg, ht⟩ := mem_due.1 hmem
  refine ⟨t, hreg, ?_, ?_⟩
  · rw [hf.outcome t]
    simpa [World.hasSettled, Option.isSome_iff_ne_none] using ht
  · intro k' hran
    have hnodup := ha.nodup hf
    rw [Multiset.map_add, Multiset.nodup_add] at hnodup
    have hheld : n ∈ (pending (.run n k ::ₘ acts)).map Prod.fst :=
      Multiset.mem_map.2 ⟨_, hpending, rfl⟩
    have hcalled : n ∈ (ran h : Multiset _).map Prod.fst :=
      Multiset.mem_map.2 ⟨(n, k'), mem_ran.2 hran, rfl⟩
    exact Multiset.disjoint_left.1 hnodup.2.2 hheld hcalled

end Coroutine
