import Mathlib
import Coroutine.Proofs.Scheduler.Tickets

/-!
# The courses of machines

A machine in the background is resumed once when it is spawned and once for every time it is
suspended, after the task that it waits for has settled. `Course` is the order in which its
resumptions, suspensions and wake-ups come.

Why two threads never resume the same machine: at any time there is one act in all threads that has
to do with it, or none while it sleeps, and the ticket under which it sleeps is called once.
-/

namespace Coroutine

variable {σ : Type}

/-- What a thread that has to do with a machine is about to do. -/
inductive Stage where
  /-- It will resume the machine. -/
  | due
  /-- It resumes the machine. -/
  | running
  /-- It has resumed the machine, and has to wait or to settle its task. -/
  | back (r : Except RunError Status)

/-- Where a machine stands. -/
inductive Standing where
  /-- It has not been spawned. -/
  | absent
  | active (s : Stage)
  /-- It waits for a task under a ticket. -/
  | asleep (ticket task : Nat)
  /-- Its task has been settled. -/
  | done

/-- Whether something that happened has to do with a machine. -/
def Happening.Concerns (k : Nat) : Happening → Prop
  | .settled d _ _ _ => d = some k
  | .registered _ _ κ | .ran _ κ => κ = .resume k
  | .spawned k' _ | .resumed k' | .returned k' _ => k' = k

/-- The course of a machine: how what happened to it follows upon one another, and where it stands
then. -/
inductive Course (k : Nat) : List Happening → Standing → Prop where
  | nothing : Course k [] .absent
  | other {h : List Happening} {p : Standing} {e : Happening} (hp : Course k h p)
    (he : ¬ e.Concerns k) : Course k (h ++ [e]) p
  | spawned {h : List Happening} (t : Nat) (hp : Course k h .absent) :
    Course k (h ++ [.spawned k t]) (.active .due)
  | resumed {h : List Happening} (hp : Course k h (.active .due)) :
    Course k (h ++ [.resumed k]) (.active .running)
  | returned {h : List Happening} (r : Except RunError Status)
    (hp : Course k h (.active .running)) :
    Course k (h ++ [.returned k r]) (.active (.back r))
  /-- Only a machine that is suspended waits. -/
  | waits {h : List Happening} (n t : Nat) (hp : Course k h (.active (.back (.ok .suspended)))) :
    Course k (h ++ [.registered n t (.resume k)]) (.asleep n t)
  /-- A machine wakes under its ticket, and not before the task has settled. -/
  | wakes {h : List Happening} {n t : Nat} (hp : Course k h (.asleep n t)) (ht : firsts h t ≠ []) :
    Course k (h ++ [.ran n (.resume k)]) (.active .due)
  /-- The task that is settled is the one that the machine was spawned for. -/
  | concluded {h : List Happening} {t : Nat} {r : Except RunError Status} (o : Outcome)
    (first : Bool) (hp : Course k h (.active (.back r))) (ht : .spawned k t ∈ h) :
    Course k (h ++ [.settled (some k) t o first]) .done

/-- What a thread that does an act is about to do with a machine. -/
def Act.stage? (k : Nat) : Act → Option Stage
  | .drive k' => if k' = k then some .due else none
  | .resuming k' => if k' = k then some .running else none
  | .returned k' r => if k' = k then some (.back r) else none
  | _ => none

/-- A coroutine that is to be driven is due. -/
theorem Act.stage?_drive (k : Nat) : (Act.drive k).stage? k = some .due := if_pos rfl

/-- What threads are about to do with a machine by where it stands. -/
def Standing.stages : Standing → Multiset Stage
  | .active s => {s}
  | _ => 0

/-- What threads are about to do with a machine. -/
def stages (k : Nat) (acts : Multiset Act) : Multiset Stage := acts.filterMap (Act.stage? k)

/-- Whether a machine stands where the threads and the history say. -/
structure Tended (h : List Happening) (acts : Multiset Act) (size k : Nat) (p : Standing) : Prop where
  course : Course k h p
  /-- A machine has one thread at most. -/
  stages : stages k acts = p.stages
  absent : p = .absent ↔ size ≤ k
  /-- A ticket that has not been called is the one under which the machine sleeps. -/
  tickets : ∀ n t, .registered n t (.resume k) ∈ h → .ran n (.resume k) ∈ h ∨ p = .asleep n t
  asleep : ∀ n t, p = .asleep n t → .registered n t (.resume k) ∈ h ∧ .ran n (.resume k) ∉ h

namespace Tended

variable {h : List Happening} {acts : Multiset Act} {a : Act} {as : List Act}
  {e : Option Happening} {size size' k : Nat} {p : Standing}

/-- The stages of a coroutine, one act at a time. -/
theorem stages_cons (k : Nat) (a : Act) (acts : Multiset Act) :
    Coroutine.stages k (a ::ₘ acts) = (a.stage? k).toList + Coroutine.stages k acts := by
  rw [Coroutine.stages, Multiset.filterMap_cons, Coroutine.stages]
  cases a.stage? k <;> rfl

/-- The stages of a coroutine, several acts at a time. -/
theorem stages_add (k : Nat) (as : List Act) (acts : Multiset Act) :
    Coroutine.stages k (as + acts) = as.filterMap (Act.stage? k) + Coroutine.stages k acts := by
  rw [Coroutine.stages, Multiset.filterMap_add]
  rfl

/-- A step that has nothing to do with a machine leaves it where it stands. -/
theorem apart (ht : Tended h (a ::ₘ acts) size k p) (he : ∀ x ∈ e, ¬ x.Concerns k)
    (hstage : as.filterMap (Act.stage? k) = (a.stage? k).toList)
    (hsize : size' ≤ k ↔ size ≤ k) : Tended (h ++ e.toList) (as + acts) size' k p where
  course := by
    cases e with
    | none => simpa using ht.course
    | some x => exact .other ht.course (he x rfl)
  stages := by rw [stages_add, hstage, ← stages_cons, ht.stages]
  absent := ht.absent.trans hsize.symm
  tickets := by
    intro n t hmem
    rcases List.mem_append.1 hmem with hmem | hmem
    · exact (ht.tickets n t hmem).imp_left (List.mem_append_left _)
    · exact absurd rfl (he _ (Option.mem_toList.1 hmem))
  asleep := by
    intro n t hp
    obtain ⟨hreg, hran⟩ := ht.asleep n t hp
    refine ⟨List.mem_append_left _ hreg, ?_⟩
    rw [List.mem_append, not_or]
    exact ⟨hran, fun hmem => he _ (Option.mem_toList.1 hmem) rfl⟩

/-- A thread that has to do with a machine is the only one. -/
theorem sole (ht : Tended h (a ::ₘ acts) size k p) {st : Stage} (ha : a.stage? k = some st) :
    p = .active st ∧ Coroutine.stages k acts = 0 := by
  have hstages := ht.stages
  rw [stages_cons, ha] at hstages
  have hcard := congrArg Multiset.card hstages
  cases p with
  | active st' =>
    have hrest : Coroutine.stages k acts = 0 := by
      simpa [Standing.stages] using hcard
    rw [hrest, add_zero] at hstages
    exact ⟨congrArg Standing.active (Multiset.singleton_inj.1 hstages).symm, hrest⟩
  | _ => simp [Standing.stages] at hcard

/-- The step of the one thread that has to do with a machine. -/
theorem turn (ht : Tended h (a ::ₘ acts) size k p) (st : Stage) (ha : a.stage? k = some st)
    {x : Happening} {p' : Standing} (hcourse : Course k h (.active st) → Course k (h ++ [x]) p')
    (hstage : as.filterMap (Act.stage? k) = p'.stages) (hp : p' ≠ .absent)
    (htickets : ∀ n t, x = .registered n t (.resume k) → p' = .asleep n t)
    (hasleep : ∀ n t, p' = .asleep n t →
      x = .registered n t (.resume k) ∧ .ran n (.resume k) ∉ h) :
    Tended (h ++ (some x).toList) (as + acts) size k p' := by
  obtain ⟨rfl, hrest⟩ := ht.sole ha
  have hsize : ¬ size ≤ k := fun hle => by simpa using ht.absent.2 hle
  refine ⟨hcourse ht.course, by rw [stages_add, hrest, add_zero, hstage], by simp [hp, hsize], ?_, ?_⟩
  · intro n t hmem
    rcases List.mem_append.1 hmem with hmem | hmem
    · rcases ht.tickets n t hmem with hran | hactive
      · exact .inl (List.mem_append_left _ hran)
      · simp at hactive
    · exact .inr (htickets n t (by simpa [eq_comm] using hmem))
  · intro n t hp'
    obtain ⟨rfl, hran⟩ := hasleep n t hp'
    exact ⟨by simp, by simpa using hran⟩

/-- A machine that is spawned is due. -/
theorem spawned (ht : Tended h (a ::ₘ acts) k k p) (t : Nat) :
    Tended (h ++ (some (.spawned k t)).toList) (Multiset.ofList [.drive k, a] + acts) (k + 1) k
      (.active .due) := by
  obtain rfl := ht.absent.2 le_rfl
  refine ⟨.spawned t ht.course, ?_, by simp, ?_, by simp⟩
  · have hstages := ht.stages
    rw [stages_cons] at hstages
    have hdrive : [.drive k, a].filterMap (Act.stage? k) = .due :: (a.stage? k).toList := by
      cases hst : a.stage? k <;> simp [Act.stage?_drive, hst]
    rw [stages_add, hdrive, ← Multiset.cons_coe, Multiset.cons_add, hstages]
    rfl
  · intro n t' hmem
    have hold : .registered n t' (.resume k) ∈ h := by simpa using hmem
    rcases ht.tickets n t' hold with hran | habsent
    · exact .inl (List.mem_append_left _ hran)
    · simp at habsent

/-- A machine whose ticket is called is due. -/
theorem wakes {n t : Nat} (ht : Tended h (.run n (.resume k) ::ₘ acts) size k p)
    (hreg : .registered n t (.resume k) ∈ h) (hsettled : firsts h t ≠ [])
    (hran : .ran n (.resume k) ∉ h) :
    Tended (h ++ (some (.ran n (.resume k))).toList) (Multiset.ofList [.drive k] + acts) size k
      (.active .due) := by
  obtain rfl := (ht.tickets n t hreg).resolve_left hran
  have hsize : ¬ size ≤ k := fun hle => by simpa using ht.absent.2 hle
  refine ⟨.wakes ht.course hsettled, ?_, by simp [hsize], ?_, by simp⟩
  · have hstages : Coroutine.stages k acts = 0 := by
      simpa [stages_cons, Act.stage?, Standing.stages] using ht.stages
    have hdrive : [.drive k].filterMap (Act.stage? k) = [.due] := by simp [Act.stage?]
    rw [stages_add, hdrive, hstages]
    rfl
  · intro n' t' hmem
    have hold : .registered n' t' (.resume k) ∈ h := by simpa using hmem
    rcases ht.tickets n' t' hold with hran' | hasleep
    · exact .inl (List.mem_append_left _ hran')
    · obtain ⟨rfl, rfl⟩ : n = n' ∧ t = t' := by simpa using hasleep
      exact .inl (by simp)

end Tended

/-- Running continuations is no stage of a coroutine. -/
theorem stage?_run (k n : Nat) (now : List Continuation) :
    (now.map (Act.run n)).filterMap (Act.stage? k) = [] := by
  rw [List.filterMap_map, List.filterMap_eq_nil_iff]
  exact fun _ _ => rfl

/-- A job with a ticket is no stage of a coroutine. -/
theorem stage?_ticketed (k n : Nat) (job : Job) : (job.ticketed n).stage? k = none := by
  cases job <;> rfl

/-- Jobs with tickets are no stages of a coroutine. -/
theorem stage?_ticketedJobs (k t : Nat) (h : List Happening) (jobs : List Job) :
    (ticketedJobs h t jobs).filterMap (Act.stage? k) = [] := by
  rw [ticketedJobs]
  induction (registrations h t).map Prod.fst generalizing jobs with
  | nil => rfl
  | cons n ns ih =>
    cases jobs with
    | nil => rfl
    | cons job jobs => rw [List.zipWith_cons_cons, List.filterMap_cons_none (stage?_ticketed k n job), ih]

/-- A step keeps the courses of all machines. -/
theorem Tended.step {h : List Happening} {s s' : Scheduler σ} {a : Act} {as : List Act}
    {e : Option Happening} {acts : Multiset Act} {k : Nat} {p : Standing}
    (hd : Does h s a as e s') (hf : Faithful h s.world)
    (ha : Accounted h s.world (a ::ₘ acts))
    (hp : s.Placed) (hspawned : ∀ k t : Nat, s.tasks[k]? = some t → .spawned k t ∈ h)
    (ht : Tended h (a ::ₘ acts) s.machines.size k p) :
    ∃ p', Tended (h ++ e.toList) (as + acts) s'.machines.size k p' := by
  have hcode : ∀ (l : List Act), l.filterMap (Act.stage? k) = [] →
      (l ++ [a]).filterMap (Act.stage? k) = (a.stage? k).toList := by
    intro l hl
    rw [List.filterMap_append, hl, List.nil_append]
    cases hst : a.stage? k <;> simp [hst]
  -- an act of another machine leaves the standing of this one as it is (`Tended.apart`)
  cases hd with
  | settle _ hlt hs =>
    obtain ⟨-, hmachines, -⟩ := Scheduler.settle_cases hlt hs
    exact ⟨p, ht.apart (by simp [Happening.Concerns]) (hcode _ (stage?_ticketedJobs _ _ _ _))
      (by rw [hmachines])⟩
  | @await _ t n κ now w _ _ hκ _ hs =>
    exact ⟨p, ht.apart (by simpa [Happening.Concerns] using hκ k) (hcode _ (stage?_run _ _ _))
      Iff.rfl⟩
  | create outcome =>
    exact ⟨p, ht.apart (by simp [Happening.Concerns]) (hcode [] rfl) Iff.rfl⟩
  | spawn m =>
    have hsize : (s.enlist m).machines.size = s.machines.size + 1 := by simp [Scheduler.enlist]
    by_cases hk : s.machines.size = k
    · subst hk
      rw [hsize]
      exact ⟨_, ht.spawned _⟩
    · refine ⟨p, ht.apart (by simp [Happening.Concerns, hk]) (hcode [.drive _] ?_) ?_⟩
      · simp [Act.stage?, hk]
      · omega
  | other => exact ⟨p, ht.apart (by simp) (hcode [] rfl) Iff.rfl⟩
  | leave => exact ⟨p, ht.apart (by simp) rfl Iff.rfl⟩
  | run n κ =>
    by_cases hκ : κ = .resume k
    · subst hκ
      obtain ⟨t, hreg, hsettled, hran⟩ := ha.ticket hf
      exact ⟨_, ht.wakes hreg hsettled (hran _)⟩
    · refine ⟨p, ht.apart (by simpa [Happening.Concerns] using hκ) ?_ Iff.rfl⟩
      cases κ with
      | resume k' => simpa [Continuation.start, Act.stage?] using hκ
      | _ => rfl
  | resume k' =>
    by_cases hk : k' = k
    · subst hk
      exact ⟨_, ht.turn .due (by simp [Act.stage?]) .resumed
        (by simp [Act.stage?, Standing.stages]) (by simp) (by simp) (by simp)⟩
    · exact ⟨p, ht.apart (by simp [Happening.Concerns, hk]) (by simp [Act.stage?, hk]) Iff.rfl⟩
  | «return» k' m r =>
    rw [Array.size_setIfInBounds]
    by_cases hk : k' = k
    · subst hk
      exact ⟨_, ht.turn .running (by simp [Act.stage?]) (.returned r)
        (by simp [Act.stage?, Standing.stages]) (by simp) (by simp) (by simp)⟩
    · exact ⟨p, ht.apart (by simp [Happening.Concerns, hk]) (by simp [Act.stage?, hk]) Iff.rfl⟩
  | @wait env k' t n m jobs _ hm hawaits hlt hn hs =>
    obtain ⟨now, w, -, rfl, rfl⟩ := Scheduler.proceed_of_awaits hawaits hs
    have hstage : ((now.map Job.continue).map (Job.ticketed n)).filterMap (Act.stage? k) = [] := by
      rw [List.map_map]
      exact stage?_run k n now
    rw [Array.size_setIfInBounds]
    by_cases hk : k' = k
    · subst hk
      have hran : .ran n (.resume k') ∉ h := by
        intro hran
        obtain ⟨t', hreg, -⟩ := ha.registered hran
        exact hn _ _ hreg
      refine ⟨_, ht.turn (.back (.ok .suspended)) (by simp [Act.stage?]) (.waits n t) ?_ (by simp) ?_ ?_⟩
      · rw [hstage]
        rfl
      · rintro _ _ ⟨⟩
        rfl
      · rintro _ _ ⟨⟩
        exact ⟨rfl, hran⟩
    · refine ⟨p, ht.apart (by simp [Happening.Concerns, hk]) ?_ Iff.rfl⟩
      rw [hstage]
      simp [Act.stage?, hk]
  | @conclude env k' t m r o first jobs _ _ htask hr hs _ _ =>
    obtain ⟨-, hmachines, -⟩ := (Scheduler.concludes_proceed hr htask hs).cases (hp _ _ htask)
    rw [hmachines]
    have hstage := stage?_ticketedJobs k t h jobs
    by_cases hk : k' = k
    · subst hk
      refine ⟨_, ht.turn (.back r) (by simp [Act.stage?])
        (fun hcourse => .concluded o first hcourse (hspawned _ _ htask)) ?_ (by simp) (by simp)
        (by simp)⟩
      rw [hstage]
      rfl
    · refine ⟨p, ht.apart (by simp [Happening.Concerns, hk]) ?_ Iff.rfl⟩
      rw [hstage]
      simp [Act.stage?, hk]

end Coroutine
