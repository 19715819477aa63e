import Mathlib
import Coroutine.Proofs.Interpreter.Heights
import Coroutine.Proofs.Machine.Interpreted

/-!
# Cleanups run once

What an interpreted machine does with a try, from the moment its frame is pushed until it is gone.
`step_try` lists what a step can do with a try on top of the stack, and `Moves.turn` adds that
nothing happens to one below. So the frame goes through its phases in one direction, and if the try
has a cleanup, the frame does not go before the cleanup has been started, once, with the completion
that is at hand then; this completion goes on where the cleanup ends.
-/

namespace Coroutine

variable {σ : Type} {t : Transfer} {l : Lambda} {resolve : Expr.Resolver} {fs : List Frame}
  {handlers : List HandlerSlots} {cleanup : Option Nat} {c : Context} {w w' : World σ}

/-! ## A step of a try -/

/-- What is on its way when a body ends: the last result, or the transfer in flight. -/
def Context.completion (c : Context) : Completion :=
  match c.control with
  | none => .value c.result
  | some t => .abrupt t

/-- The context without what is on its way. -/
def Context.withoutCompletion (c : Context) : Context :=
  match c.control with
  | none => c.pop
  | some _ => { c with control := none }

/-- Whether a phase is one of a try. -/
def Phase.isTry : Phase → Bool
  | .guarded | .inBody | .inHandler _ | .inCleanup _ => true
  | _ => false

/-- What a step can do with a try on top of the stack. -/
inductive TryStep (mode : LambdaKind) (f : Frame) (handlers : List HandlerSlots)
    (cleanup : Option Nat) (c : Context) (w : World σ) : Context → World σ → Prop
  | body {c' : Context} {w' : World σ} (hphase : f.phase = .guarded) (hcontrol : c.control = none)
      (h : enterChild mode f 0 (c.setPhase .inBody) w = (.ok c', w')) :
      TryStep mode f handlers cleanup c w c' w'
  | handler {e : Exception} {handler : HandlerSlots} {c' : Context} {w' : World σ}
      (hphase : f.phase = .inBody) (hcontrol : c.control = some (.throw e))
      (hfind : handlers.find? (·.filter.accepts e.toFault) = some handler)
      (h : startHandler mode f handler e c.withoutCompletion w = (.ok c', w')) :
      TryStep mode f handlers cleanup c w c' w'
  | cleanup {slot : Nat} {c' : Context} {w' : World σ} (hphase : f.phase.isGuarded = true)
      (hslot : cleanup = some slot)
      (h : startCleanup mode f slot c.completion c.withoutCompletion w = (.ok c', w')) :
      TryStep mode f handlers cleanup c w c' w'
  /-- The cleanup has ended with a value: what was deferred goes on. -/
  | done {deferred : Completion} (hphase : f.phase = .inCleanup deferred)
      (hcontrol : c.control = none) :
      TryStep mode f handlers cleanup c w (afterCleanup c.pop deferred) w
  /-- Nothing is left to do before what is on its way goes on. -/
  | pass (hphase : cleanup = none ∨ ∃ deferred t, f.phase = .inCleanup deferred ∧
        c.control = some t) :
      TryStep mode f handlers cleanup c w (afterCleanup c.withoutCompletion c.completion) w

section

variable {env : Env σ} {mode : LambdaKind} {f : Frame}

/-- What a changed result was before. -/
theorem map_eq_ok {α β : Type} {m : Run σ α} {g : α → β} {b : β}
    (h : (g <$> m) w = (.ok b, w')) : ∃ a, b = g a ∧ m w = (.ok a, w') := by
  rw [map_eq_pure_bind, exceptState_bind] at h
  split at h
  · rename_i a w₁ ha
    cases h
    exact ⟨a, rfl, ha⟩
  · cases h

/-- A cleanup is pending in the phases that it guards. -/
theorem Frame.pendingCleanup?_eq (hop : f.op = .tryCatch handlers cleanup) :
    f.pendingCleanup? = if f.phase.isGuarded then cleanup else none := by
  rw [Frame.pendingCleanup?, hop]

/-- Handlers are asked in turn, and only while the body runs. -/
theorem Frame.handlerFor?_eq_some (hop : f.op = .tryCatch handlers cleanup) {e : Exception}
    {handler : HandlerSlots} (h : f.handlerFor? e = some handler) :
    f.phase = .inBody ∧ handlers.find? (·.filter.accepts e.toFault) = some handler := by
  unfold Frame.handlerFor? at h
  split at h
  · rename_i handlers' cleanup' hop' hphase
    rw [hop] at hop'
    cases hop'
    exact ⟨hphase, h⟩
  · cases h

/-- A transfer passes a try. -/
theorem leave_try (hop : f.op = .tryCatch handlers cleanup) (hphase : f.phase.isTry = true)
    (hne : f.phase ≠ .guarded) (ht : c.control = some t) {c' : Context}
    (h : leave mode f t { c with control := none } w = (.ok c', w')) :
    TryStep mode f handlers cleanup c w c' w' := by
  have hcompletion : c.completion = .abrupt t := by rw [Context.completion, ht]
  have hwithout : c.withoutCompletion = { c with control := none } := by
    rw [Context.withoutCompletion, ht]
  -- the frame goes without a cleanup, or from inside the cleanup
  have hpass : c' = afterCleanup c.withoutCompletion c.completion → w' = w →
      (cleanup = none ∨ ∃ deferred t, f.phase = .inCleanup deferred ∧ c.control = some t) →
      TryStep mode f handlers cleanup c w c' w' := by
    rintro rfl rfl hleft
    exact .pass hleft
  rw [leave, Frame.pendingCleanup?_eq hop] at h
  by_cases hguarded : f.phase.isGuarded = true
  · rw [if_pos hguarded] at h
    cases cleanup with
    | some slot =>
      refine .cleanup hguarded rfl ?_
      rw [hcompletion, hwithout]
      exact h
    | none =>
      cases h
      exact hpass (by rw [hcompletion, hwithout]; rfl) rfl (.inl rfl)
  · rw [if_neg hguarded] at h
    cases h
    refine hpass (by rw [hcompletion, hwithout]; rfl) rfl (.inr ?_)
    -- the body and the handlers are guarded, so this is the cleanup
    cases hp : f.phase with
    | inCleanup deferred => exact ⟨deferred, t, rfl, ht⟩
    | guarded => exact absurd hp hne
    | inBody | inHandler =>
      rw [hp] at hguarded
      exact absurd rfl hguarded
    | _ =>
      rw [hp] at hphase
      cases hphase

/-- No jump ends at a try. -/
theorem land_try (hphase : f.phase.isTry = true) {j : Jump} {path : List Nat} {kind : RouteKind}
    {c' : Context} : land mode f j path kind c w ≠ (.ok c', w') := by
  intro h
  unfold land at h
  cases hp : f.phase with
  | guarded | inBody | inHandler | inCleanup =>
    simp only [hp] at h
    cases h
  | _ =>
    rw [hp] at hphase
    cases hphase

/-- How a transfer meets a frame. -/
theorem unwind_cons (hframes : c.frames = f :: fs) :
    (unwind mode t c : Run σ Progress) =
      match t with
      | .jump j =>
        match j.route with
        | .within ancestor path kind =>
          if ancestor = f.node ∧ j.code.same f.code then .running <$> land mode f j path kind c
          else .running <$> leave mode f t c
        | .escape => .running <$> leave mode f t c
      | .throw e =>
        match f.handlerFor? e with
        | some h => .running <$> startHandler mode f h e c
        | none => .running <$> leave mode f t c
      | .exit _ => .running <$> leave mode f t c := by
  obtain ⟨scopes, results, frames, current, suspension, control⟩ := c
  subst hframes
  rfl

/-- A transfer reaches a try. -/
theorem unwind_try (hframes : c.frames = f :: fs) (hop : f.op = .tryCatch handlers cleanup)
    (hphase : f.phase.isTry = true) (hne : f.phase ≠ .guarded) (ht : c.control = some t)
    {progress : Progress} (h : unwind mode t { c with control := none } w = (.ok progress, w')) :
    ∃ c', progress = .running c' ∧ TryStep mode f handlers cleanup c w c' w' := by
  have hleave (h : (Progress.running <$> leave mode f t { c with control := none } :
      Run σ Progress) w = (.ok progress, w')) :
      ∃ c', progress = .running c' ∧ TryStep mode f handlers cleanup c w c' w' := by
    obtain ⟨c', hc', h⟩ := map_eq_ok h
    exact ⟨c', hc', leave_try hop hphase hne ht h⟩
  rw [unwind_cons (c := { c with control := none }) hframes] at h
  cases t with
  | jump j =>
    cases hroute : j.route with
    | within ancestor path kind =>
      simp only [hroute] at h
      -- no jump lands in a guarded node, so it is left
      by_cases hhere : ancestor = f.node ∧ j.code.same f.code
      · rw [if_pos hhere] at h
        obtain ⟨c', -, h⟩ := map_eq_ok h
        exact absurd h (land_try hphase)
      · rw [if_neg hhere] at h
        exact hleave h
    | escape =>
      simp only [hroute] at h
      exact hleave h
  | throw e =>
    cases hhandler : f.handlerFor? e with
    | some handler =>
      simp only [hhandler] at h
      obtain ⟨c', hc', h⟩ := map_eq_ok h
      obtain ⟨hbody, hfind⟩ := Frame.handlerFor?_eq_some hop hhandler
      refine ⟨c', hc', .handler hbody ht hfind ?_⟩
      rw [Context.withoutCompletion, ht]
      exact h
    | none =>
      simp only [hhandler] at h
      exact hleave h
  | exit v => exact hleave h

/-- What a step does with a try on top of the stack. -/
theorem step_try (hframes : c.frames = f :: fs) (hop : f.op = .tryCatch handlers cleanup)
    (hphase : f.phase.isTry = true) (hbegun : c.control ≠ none → f.phase ≠ .guarded)
    {progress : Progress} (h : step env mode c w = (.ok progress, w')) :
    ∃ c', progress = .running c' ∧ TryStep mode f handlers cleanup c w c' w' := by
  cases ht : c.control with
  | none =>
    have hcompletion : c.completion = .value c.result := by rw [Context.completion, ht]
    have hwithout : c.withoutCompletion = c.pop := by rw [Context.withoutCompletion, ht]
    have hmatched : f.isMatched = true := by
      cases hp : f.phase with
      | guarded | inBody | inHandler | inCleanup => simp only [Frame.isMatched, hp, hop]
      | _ =>
        rw [hp] at hphase
        cases hphase
    simp only [step, ht, hframes, stepFrame_eq hmatched] at h
    -- the body or a handler has ended with a value
    have hended (hguarded : f.phase.isGuarded = true) :
        ∃ c', progress = .running c' ∧ TryStep mode f handlers cleanup c w c' w' := by
      rw [advance_guarded hguarded, Frame.pendingCleanup?_eq hop, if_pos hguarded] at h
      cases cleanup with
      | some slot =>
        obtain ⟨c', hc', h⟩ := map_eq_ok h
        refine ⟨c', hc', .cleanup hguarded rfl ?_⟩
        rw [hcompletion, hwithout]
        exact h
      | none =>
        cases h
        refine ⟨_, rfl, ?_⟩
        have hpass : TryStep mode f handlers none c w
            (afterCleanup c.withoutCompletion c.completion) w := .pass (.inl rfl)
        rw [hcompletion, hwithout] at hpass
        exact hpass
    cases hp : f.phase with
    | guarded =>
      simp only [advance, hp] at h
      obtain ⟨c', hc', h⟩ := map_eq_ok h
      exact ⟨c', hc', .body hp ht h⟩
    | inBody | inHandler e => exact hended (by rw [hp]; rfl)
    | inCleanup deferred =>
      simp only [advance, hp] at h
      cases h
      exact ⟨_, rfl, .done hp ht⟩
    | _ =>
      rw [hp] at hphase
      cases hphase
  | some t =>
    simp only [step, ht] at h
    exact unwind_try hframes hop hphase (hbegun (by simp [ht])) ht h

/-! ## Phases of a try -/

/-- One result is due in the phases that a cleanup guards. -/
theorem Phase.due_of_isGuarded {q : Phase} (h : q.isGuarded = true) : q.due = 1 := by
  cases q <;> first | rfl | cases h

/-- The top frame of a context whose body has ended. -/
theorem Context.Level.topped_withoutCompletion (hlevel : c.Level) (hframes : c.frames = f :: fs)
    (hphase : f.phase.isGuarded = true) :
    ∃ n, Topped c.withoutCompletion f fs c.lowerResults n := by
  cases ht : c.control with
  | none =>
    have htop := hlevel.topped_calm ht hframes
    rw [Phase.due_of_isGuarded hphase] at htop
    refine ⟨0, ?_⟩
    rw [Context.withoutCompletion, ht]
    exact htop.pop
  | some t =>
    refine ⟨c.results.length - f.base, ?_⟩
    rw [Context.withoutCompletion, ht]
    exact hlevel.topped hframes

/-- The frame is gone once its cleanup is over. -/
theorem frames_afterCleanup (hframes : c.frames = f :: fs) (deferred : Completion) :
    (afterCleanup c deferred).frames = fs := by
  cases deferred with
  | value v => exact (Context.popFrame_eq hframes).1
  | abrupt t => exact (Context.popFrame_eq hframes).1

/-- The completion says nothing about the frames. -/
theorem frames_withoutCompletion (c : Context) : c.withoutCompletion.frames = c.frames := by
  unfold Context.withoutCompletion
  split <;> rfl

end

namespace InterpretedMachine

variable {p : Prepared} {ground : Chain} {F : Frame} {q q' : Phase} {qs : List Phase} {c' : Context}

/-- The stack has the frame `F`, pushed upon `fs`, in some phase. -/
def Holds (F : Frame) (fs : List Frame) (q : Phase) (c : Context) : Prop :=
  { F with phase := q } :: fs <:+ c.frames

/-- A frame is in one phase only. -/
theorem Holds.unique (h : Holds F fs q c) (h' : Holds F fs q' c) : q = q' := by
  have hle : ({ F with phase := q } :: fs).length ≤ ({ F with phase := q' } :: fs).length := le_rfl
  have heq := (List.suffix_of_suffix_length_le h h' hle).eq_of_length rfl
  rw [List.cons.injEq, Frame.mk.injEq] at heq
  exact heq.1.2.2.1

/-- A frame that is there is not among those below it. -/
theorem Holds.ne (h : Holds F fs q c) : c.frames ≠ fs := by
  intro heq
  have hlength := List.IsSuffix.length_le h
  rw [heq, List.length_cons] at hlength
  omega

/-- The phases that a try has gone through, the last one first. -/
inductive Course : List Phase → Prop
  | start : Course [.guarded]
  | body : Course [.inBody, .guarded]
  | handler (e : Exception) : Course [.inHandler e, .inBody, .guarded]
  | bodyCleanup (deferred : Completion) : Course [.inCleanup deferred, .inBody, .guarded]
  | handlerCleanup (deferred : Completion) (e : Exception) :
      Course [.inCleanup deferred, .inHandler e, .inBody, .guarded]

/-- All phases of a course are those of a guarded node. -/
theorem Course.isTry (h : Course (q :: qs)) : q.isTry = true := by
  cases h <;> rfl

/-- What a step of a try does to its phase, or else the try is gone. -/
theorem turn_of_tryStep {mode : LambdaKind} (hlevel : c.Level)
    (hframes : c.frames = { F with phase := q } :: fs)
    (h : TryStep mode { F with phase := q } handlers cleanup c w c' w') :
    (q = .guarded ∧ Holds F fs .inBody c') ∨
    (q = .inBody ∧ ∃ e, Holds F fs (.inHandler e) c' ∧ c.control = some (.throw e) ∧
      ∃ h, handlers.find? (·.filter.accepts e.toFault) = some h) ∨
    (q.isGuarded = true ∧ Holds F fs (.inCleanup c.completion) c' ∧
      ∃ slot, cleanup = some slot ∧ startCleanup mode { F with phase := q } slot c.completion
        c.withoutCompletion w = (.ok c', w')) ∨
    c'.frames = fs ∧ (cleanup = none ∨ ∃ deferred, q = .inCleanup deferred ∧
      (c.control = none → c' = afterCleanup c.pop deferred)) := by
  -- each kind of step leads to one phase, or leaves the frame
  cases h with
  | body hphase hcontrol h =>
    have htop := hlevel.topped_calm hcontrol hframes
    rw [show Frame.phase _ = q from rfl, show q = .guarded from hphase] at htop
    have hstands := htop.enterChild_over (p := .inBody) rfl rfl nofun 0 _ _ _ h
    exact .inl ⟨hphase, hstands.bottom⟩
  | @handler e handler _ _ hphase hcontrol hfind h =>
    have hguarded : Phase.isGuarded q = true := by rw [show q = .inBody from hphase]; rfl
    obtain ⟨n, htop⟩ := hlevel.topped_withoutCompletion hframes hguarded
    have hstands := htop.startHandler_over handler e _ _ _ h
    exact .inr (.inl ⟨hphase, e, hstands.bottom, hcontrol, handler, hfind⟩)
  | @cleanup slot _ _ hphase hslot h =>
    obtain ⟨n, htop⟩ := hlevel.topped_withoutCompletion hframes hphase
    have hstands := htop.startCleanup_over slot c.completion _ _ _ h
    exact .inr (.inr (.inl ⟨hphase, hstands.bottom, slot, hslot, h⟩))
  | @done deferred hphase hcontrol =>
    refine .inr (.inr (.inr ⟨?_, .inr ⟨deferred, hphase, fun _ => rfl⟩⟩))
    exact frames_afterCleanup (c := c.pop) hframes deferred
  | pass hphase =>
    refine .inr (.inr (.inr ⟨?_, ?_⟩))
    · exact frames_afterCleanup ((frames_withoutCompletion c).trans hframes) c.completion
    · rcases hphase with hnone | ⟨deferred, t, hphase, hcontrol⟩
      · exact .inl hnone
      · refine .inr ⟨deferred, hphase, fun hnone => ?_⟩
        rw [hcontrol] at hnone
        cases hnone

/-- A move leaves a try as it is, unless it is a step of the try itself. -/
theorem Moves.turn_of_sound {T : Terms} (hop : F.op = .tryCatch handlers cleanup)
    (hsound : c.Sound T w) (hlevel : c.Level) (hq : q.isTry = true) (hholds : Holds F fs q c)
    (h : Moves T.mode c w c' w') :
    (Holds F fs q c' ∧
      (c.frames = { F with phase := q } :: fs → ∃ s, c' = { c with suspension := s })) ∨
    (c.frames = { F with phase := q } :: fs ∧
      TryStep T.mode { F with phase := q } handlers cleanup c w c' w') := by
  -- the try is on top, or below the frame that moves
  have hwhere : c.frames = { F with phase := q } :: fs ∨
      { F with phase := q } :: fs <:+ c.frames.tail := by
    obtain ⟨above, habove⟩ := hholds
    cases above with
    | nil => exact .inl habove.symm
    | cons g above =>
      rw [← habove]
      exact .inr (List.suffix_append above _)
  have hnotop (hbelow : { F with phase := q } :: fs <:+ c.frames.tail) :
      c.frames ≠ { F with phase := q } :: fs := by
    intro heq
    rw [heq, List.tail_cons] at hbelow
    have hlength := hbelow.length_le
    rw [List.length_cons] at hlength
    omega
  cases h with
  | step henv h =>
    rcases hwhere with htop | hbelow
    · have hbegun (hne : c.control ≠ none) : q ≠ .guarded :=
        hlevel.begun hne { F with phase := q } (by rw [htop]; rfl)
      obtain ⟨c₁, hc₁, hstep⟩ := step_try htop hop hq hbegun h
      cases hc₁
      exact .inr ⟨htop, hstep⟩
    · refine .inl ⟨hbelow.trans (step_level hlevel hsound.control _ _ _ h).bottom, fun htop => ?_⟩
      exact absurd htop (hnotop hbelow)
  | pause henv h hpauses =>
    rcases hwhere with htop | hbelow
    · have hbegun (hne : c.control ≠ none) : q ≠ .guarded :=
        hlevel.begun hne { F with phase := q } (by rw [htop]; rfl)
      obtain ⟨c₁, hc₁, -⟩ := step_try htop hop hq hbegun h
      cases hc₁
    · have hstands := step_level hlevel hsound.control _ _ _ h hpauses
      exact .inl ⟨hbelow.trans hstands.bottom, fun htop => absurd htop (hnotop hbelow)⟩
  | @change s => exact .inl ⟨hholds, fun _ => ⟨s, rfl⟩⟩

/-- One move: the frame stays, goes on in the course of a guarded node, or goes. -/
theorem Moves.turn (hp : l.prepare resolve = .ok p) (hop : F.op = .tryCatch handlers cleanup)
    (hv : Visits p ground c w) (hq : q.isTry = true) (hholds : Holds F fs q c)
    (h : Moves p.kind c w c' w') :
    (Holds F fs q c' ∧
      (c.frames = { F with phase := q } :: fs → ∃ s, c' = { c with suspension := s })) ∨
    (c.frames = { F with phase := q } :: fs ∧
      TryStep p.kind { F with phase := q } handlers cleanup c w c' w') := by
  obtain ⟨-, hsound, hlevel⟩ := hv.sound hp
  exact Moves.turn_of_sound (T := terms p ground) hop hsound hlevel hq hholds h

/-! ## The life of a try -/

/-- The life of a try up to some context of a run: its frame `F` is pushed upon `fs`, and as long as
it is on the stack, its phases are noted, the last one first. -/
inductive Life (p : Prepared) (ground : Chain) (F : Frame) (fs : List Frame) :
    List Phase → Context → World σ → Prop
  | pushed {c : Context} {w : World σ} (hv : Visits p ground c w) (hframes : c.frames = F :: fs)
      (hphase : F.phase = .guarded) : Life p ground F fs [.guarded] c w
  | stay {q : Phase} {qs : List Phase} {c c' : Context} {w w' : World σ}
      (before : Life p ground F fs (q :: qs) c w) (h : Moves p.kind c w c' w')
      (hholds : Holds F fs q c') : Life p ground F fs (q :: qs) c' w'
  | turn {q q' : Phase} {qs : List Phase} {c c' : Context} {w w' : World σ}
      (before : Life p ground F fs (q :: qs) c w) (h : Moves p.kind c w c' w')
      (hholds : Holds F fs q' c') (hne : q' ≠ q) : Life p ground F fs (q' :: q :: qs) c' w'

/-- A life ends in a context that has been visited. -/
theorem Life.visits (h : Life p ground F fs qs c w) : Visits p ground c w := by
  induction h with
  | pushed hv => exact hv
  | stay before h hholds ih => exact .move ih h
  | turn before h hholds hne ih => exact .move ih h

/-- At the end of its life so far, the frame is in the last phase. -/
theorem Life.holds (h : Life p ground F fs qs c w) : ∀ q ∈ qs.head?, Holds F fs q c := by
  intro q hq
  cases h with
  | pushed hv hframes hphase =>
    cases hq
    rw [Holds, hframes, ← hphase]
  | stay before h hholds =>
    cases hq
    exact hholds
  | turn before h hholds hne =>
    cases hq
    exact hholds

/-- The phases of a try come in one order. -/
theorem Life.course (hp : l.prepare resolve = .ok p) (hop : F.op = .tryCatch handlers cleanup)
    (h : Life p ground F fs qs c w) : Course qs := by
  induction h with
  | pushed => exact .start
  | stay before h hholds ih => exact ih
  | @turn q q' qs c c' w w' before hmove hholds hne ih =>
    have hv := before.visits
    obtain ⟨-, -, hlevel⟩ := hv.sound hp
    rcases hmove.turn hp hop hv ih.isTry (before.holds q rfl) with
      ⟨hstays, -⟩ | ⟨htop, hstep⟩
    · exact absurd (hholds.unique hstays) hne
    · rcases turn_of_tryStep hlevel htop hstep with
        ⟨rfl, hbody⟩ | ⟨rfl, e, hhandler, -⟩ | ⟨hguarded, hcleanup, -⟩ | ⟨hgone, -⟩
      · obtain rfl := hholds.unique hbody
        cases ih
        exact .body
      · obtain rfl := hholds.unique hhandler
        cases ih
        exact .handler e
      · obtain rfl := hholds.unique hcleanup
        cases ih with
        | start => cases hguarded
        | body => exact .bodyCleanup _
        | handler e => exact .handlerCleanup _ e
        | bodyCleanup => cases hguarded
        | handlerCleanup => cases hguarded
      · exact absurd hgone hholds.ne

/-- A life goes on in whatever phase the try has then. -/
theorem Life.next (h : Life p ground F fs (q :: qs) c w) (hmove : Moves p.kind c w c' w')
    (hholds : Holds F fs q' c') : ∃ qs', Life p ground F fs (q' :: qs') c' w' := by
  by_cases heq : q' = q
  · subst heq
    exact ⟨qs, .stay h hmove hholds⟩
  · exact ⟨q :: qs, .turn h hmove hholds heq⟩

/-- A move turns the top frame, or leaves all frames as they are. -/
theorem Moves.turned (hp : l.prepare resolve = .ok p) (hv : Visits p ground c w)
    (h : Moves p.kind c w c' w') : Turned c.frames c'.frames ∨ c'.frames = c.frames := by
  obtain ⟨-, hsound, hlevel⟩ := hv.sound hp
  cases h with
  | step henv h => exact .inl (step_level hlevel hsound.control _ _ _ h).turned
  | pause henv h hpauses => exact .inl (step_level hlevel hsound.control _ _ _ h hpauses).turned
  | change => exact .inr rfl

/-- Every try on the stack of a visited context has a life. -/
theorem Visits.life (hp : l.prepare resolve = .ok p) {f : Frame} (hv : Visits p ground c w)
    (hf : f :: fs <:+ c.frames) (hop : f.op = .tryCatch handlers cleanup) :
    ∃ qs, Life p ground { f with phase := .guarded } fs (f.phase :: qs) c w := by
  have hfirst {f : Frame} (hop : f.op = .tryCatch handlers cleanup)
      (h : f.phase = f.op.firstPhase) : f.phase = .guarded := by
    rw [h, hop]
    rfl
  -- a frame that has just been pushed begins its life
  have hborn {f : Frame} {fs : List Frame} {c : Context} {w : World σ}
      (hv : Visits p ground c w) (hframes : c.frames = f :: fs) (hphase : f.phase = .guarded) :
      ∃ qs, Life p ground { f with phase := .guarded } fs (f.phase :: qs) c w := by
    refine ⟨[], ?_⟩
    rw [hphase]
    refine .pushed hv ?_ rfl
    rw [hframes, ← hphase]
  induction hv generalizing f fs with
  | @start limit args m s c w w₁ w₂ w₃ hw hnew hground hchange henter =>
    have hvisits : Visits p ground c w₃ := .start hw hnew hground hchange henter
    obtain ⟨sc, rfl, -, -⟩ := new_eq_ok hnew
    have habove := enter_above (c := { scopes := [_], suspension := s }) .empty rfl _ _ _ henter
    rcases habove.pushed with heq | ⟨g, hg, heq⟩
    · rw [heq] at hf
      exact absurd (List.suffix_nil.1 hf) (List.cons_ne_nil _ _)
    · rw [heq] at hf
      rcases List.suffix_cons_iff.1 hf with hsame | hnil
      · cases hsame
        exact hborn hvisits heq (hfirst hop hg)
      · exact absurd (List.suffix_nil.1 hnil) (List.cons_ne_nil _ _)
  | @move c c' w w' before h ih =>
    have hvisits := before.move h
    -- a try that the move does not touch
    have hsame (hbefore : f :: fs <:+ c.frames) :
        ∃ qs, Life p ground { f with phase := .guarded } fs (f.phase :: qs) c' w' := by
      obtain ⟨qs, hlife⟩ := ih hbefore hop
      exact hlife.next h hf
    rcases h.turned hp before with hturned | heq
    · have hholds : f :: fs <:+ c'.frames := hf
      generalize hframes : c.frames = frames at hturned hsame ih
      generalize hframes' : c'.frames = frames' at hturned hf
      -- the try was the top frame, which went on
      have htop {g g' : Frame} {gs : List Frame} (hcons : frames = g :: gs) (hlater : g.Later g')
          (heq : f :: fs = g' :: gs) :
          ∃ qs, Life p ground { f with phase := .guarded } fs (f.phase :: qs) c' w' := by
        cases heq
        obtain ⟨phase, saved, rfl, hsaved⟩ := hlater
        have hop' : g.op = .tryCatch handlers cleanup := hop
        rcases hsaved with rfl | hinvoke
        · obtain ⟨qs, hlife⟩ := ih (by rw [hcons]) hop'
          exact hlife.next h hholds
        · rw [hop'] at hinvoke
          cases hinvoke
      cases hturned with
      | gone => exact hsame (hf.trans (List.suffix_cons _ _))
      | stays hlater =>
        rcases List.suffix_cons_iff.1 hf with heq | hgs
        · exact htop rfl hlater heq
        · exact hsame (hgs.trans (List.suffix_cons _ _))
      | under hlater hnew =>
        rcases List.suffix_cons_iff.1 hf with heq | hrest
        · cases heq
          exact hborn hvisits hframes' (hfirst hop hnew)
        · rcases List.suffix_cons_iff.1 hrest with heq | hgs
          · exact htop rfl hlater heq
          · exact hsame (hgs.trans (List.suffix_cons _ _))
    · exact hsame (heq ▸ hf)

/-- What a move does to a try that is in phase `q`. -/
structure Advance (mode : LambdaKind) (F : Frame) (fs : List Frame) (cleanup : Option Nat)
    (q : Phase) (c : Context) (w : World σ) (c' : Context) (w' : World σ) : Prop where
  /-- A try that is on top changes its phase in every step, so it runs a child once per phase. -/
  idle : Holds F fs q c' → c.frames = { F with phase := q } :: fs →
    ∃ s, c' = { c with suspension := s }
  /-- The cleanup is started for the completion that is at hand. -/
  starts : ∀ deferred, Holds F fs (.inCleanup deferred) c' → q ≠ .inCleanup deferred →
    deferred = c.completion ∧ c.frames = { F with phase := q } :: fs ∧ ∃ slot,
      cleanup = some slot ∧ startCleanup mode { F with phase := q } slot deferred
        c.withoutCompletion w = (.ok c', w')
  /-- The try goes, alone. If it has a cleanup, this has been started, and if it has ended with a
  value, what it was started for goes on. -/
  ends : (∀ q', ¬Holds F fs q' c') → c'.frames = fs ∧ ∀ slot, cleanup = some slot →
    ∃ deferred, q = .inCleanup deferred ∧ (c.control = none → c' = afterCleanup c.pop deferred)

/-- How a life goes on with the next move. -/
theorem Life.advance (hp : l.prepare resolve = .ok p) (hop : F.op = .tryCatch handlers cleanup)
    (h : Life p ground F fs (q :: qs) c w) (hmove : Moves p.kind c w c' w') :
    Advance p.kind F fs cleanup q c w c' w' := by
  have hv := h.visits
  obtain ⟨-, -, hlevel⟩ := hv.sound hp
  rcases hmove.turn hp hop hv (h.course hp hop).isTry (h.holds q rfl) with
    ⟨hstays, hidle⟩ | ⟨htop, hstep⟩
  -- the frame stays in its phase, so neither is a cleanup started nor the frame left
  · refine ⟨fun _ => hidle, fun deferred hholds hne => ?_, fun hgone => ?_⟩
    · exact absurd (hstays.unique hholds) hne
    · exact absurd hstays (hgone q)
  rcases turn_of_tryStep hlevel htop hstep with
    ⟨rfl, hbody⟩ | ⟨rfl, e, hhandler, -⟩ | ⟨hguarded, hcleanup, hslot⟩ | ⟨hgone, hends⟩
  · refine ⟨fun hholds => ?_, fun deferred hholds => ?_, fun hgone => ?_⟩
    · cases hholds.unique hbody
    · cases hholds.unique hbody
    · exact absurd hbody (hgone _)
  · refine ⟨fun hholds => ?_, fun deferred hholds => ?_, fun hgone => ?_⟩
    · cases hholds.unique hhandler
    · cases hholds.unique hhandler
    · exact absurd hhandler (hgone _)
  -- the cleanup starts, and defers how the node was completed
  · refine ⟨fun hholds => ?_, fun deferred hholds _ => ?_, fun hgone => ?_⟩
    · rw [hholds.unique hcleanup] at hguarded
      cases hguarded
    · cases hholds.unique hcleanup
      exact ⟨rfl, htop, hslot⟩
    · exact absurd hcleanup (hgone _)
  · refine ⟨fun hholds => ?_, fun deferred hholds => ?_, fun _ => ⟨hgone, fun slot hslot => ?_⟩⟩
    · exact absurd hgone hholds.ne
    · exact absurd hgone hholds.ne
    · rcases hends with hnone | hends
      · rw [hslot] at hnone
        cases hnone
      · exact hends

/-- Every try that the runs of a prepared lambda push has a life, over all suspensions and
resumptions. In it the phases come in one order, the cleanup among them at most once, and each move
advances the try: a try with a cleanup is not gone before the cleanup has been started for the
completion of the body or the handler, and if the cleanup ends with a value, this very completion
goes on. -/
theorem cleanup_runs_once {l : Lambda} {resolve : Expr.Resolver} {p : Prepared}
    (hp : l.prepare resolve = .ok p) (handlers : List HandlerSlots) (cleanup : Option Nat) :
    (∀ (ground : Chain) (c : Context) (w : World σ), Visits p ground c w → ∀ (f : Frame) fs,
      f :: fs <:+ c.frames → f.op = .tryCatch handlers cleanup →
        ∃ qs, Life p ground { f with phase := .guarded } fs (f.phase :: qs) c w) ∧
    ∀ (ground : Chain) (c : Context) (w : World σ) (F : Frame) fs q qs,
      F.op = .tryCatch handlers cleanup → Life p ground F fs (q :: qs) c w →
        Course (q :: qs) ∧
          ∀ c' w', Moves p.kind c w c' w' → Advance p.kind F fs cleanup q c w c' w' := by
  refine ⟨fun ground c w hv f fs hf hop => hv.life hp hf hop, ?_⟩
  intro ground c w F fs q qs hop hlife
  exact ⟨hlife.course hp hop, fun c' w' hmove => hlife.advance hp hop hmove⟩

/-- The context that a step leads to, if the run goes on. -/
def next? (env : Env σ) (mode : LambdaKind) (c : Context) (w : World σ) :
    Option (Context × World σ) :=
  match step env mode c w with
  | (.ok (.running c'), w') => some (c', w')
  | _ => none

/-- What the interpreter does next is a move. -/
theorem moves_of_next? {env : Env σ} (henv : env.Tame) {mode : LambdaKind}
    (h : next? env mode c w = some (c', w')) : Moves mode c w c' w' := by
  unfold next? at h
  split at h
  · rename_i c₁ w₁ hstep
    cases h
    exact .step henv hstep
  · cases h

/-- Cleanups belong to guarded nodes. -/
theorem op_of_pendingCleanup? {f : Frame} {slot : Nat} (h : f.pendingCleanup? = some slot) :
    ∃ handlers, f.op = .tryCatch handlers (some slot) := by
  unfold Frame.pendingCleanup? at h
  split at h
  · rename_i handlers cleanup hop
    obtain ⟨-, rfl⟩ := Option.ite_none_right_eq_some.1 h
    exact ⟨handlers, hop⟩
  · cases h

/-- A machine waits inside two protected bodies for a task that fails. The inner try has been in its
body since it was pushed, over the suspension. When what the task threw reaches it, its cleanup is
started for that exception. -/
theorem guardedWait_cleanup_runs_once : ∃ p m w m₁ w₁ ground F fs c₁ w₂ c₂ w₃ c₃ w₄ e slot qs,
    Lambda.guardedWait.prepare .tasks = .ok p ∧
    InterpretedMachine.new p none [.task 0] World.pending = .ok (m, w) ∧
    m.resume .bare 64 w = some ((.ok .suspended, m₁), w₁) ∧
    next? Env.bare p.kind m₁.context w₁.failing = some (c₁, w₂) ∧
    next? Env.bare p.kind c₁ w₂ = some (c₂, w₃) ∧ c₂.control = some (.throw e) ∧
    Life p ground F fs (.inBody :: qs) c₂ w₃ ∧ Course (.inBody :: qs) ∧
    next? Env.bare p.kind c₂ w₃ = some (c₃, w₄) ∧
    startCleanup p.kind { F with phase := .inBody } slot (.abrupt (.throw e)) c₂.withoutCompletion
      w₃ = (.ok c₃, w₄) := by
  have hrun : ((Lambda.guardedWait.prepare .tasks).toOption.bind fun p =>
      (InterpretedMachine.new p none [.task 0] World.pending).toOption.bind fun (m, w) =>
        (m.resume Env.bare 64 w).bind fun ((r, m₁), w₁) =>
          (next? Env.bare p.kind m₁.context w₁.failing).bind fun (c₁, w₂) =>
            (next? Env.bare p.kind c₁ w₂).bind fun (c₂, w₃) =>
              (next? Env.bare p.kind c₂ w₃).map fun (c₃, _) =>
                (r.toOption, m₁.started, m₁.completed,
                  c₂.frames.map fun f => (f.phase, f.pendingCleanup?), c₂.control,
                  c₃.frames.map Frame.phase)) =
      some (some .suspended, true, false, [(.inBody, some 1), (.inBody, some 1)],
        some (.throw ⟨⟨"Error", "failed"⟩, 0⟩),
        [.inCleanup (.abrupt (.throw ⟨⟨"Error", "failed"⟩, 0⟩)), .inBody]) := by
    cbv
  obtain ⟨p, hp, hrun⟩ := bind_toOption_eq_some hrun
  obtain ⟨⟨m, w⟩, hnew, hrun⟩ := bind_toOption_eq_some hrun
  obtain ⟨⟨⟨r, m₁⟩, w₁⟩, hfirst, hrun⟩ := Option.bind_eq_some_iff.1 hrun
  obtain ⟨⟨c₁, w₂⟩, hc₁, hrun⟩ := Option.bind_eq_some_iff.1 hrun
  obtain ⟨⟨c₂, w₃⟩, hc₂, hrun⟩ := Option.bind_eq_some_iff.1 hrun
  obtain ⟨⟨c₃, w₄⟩, hc₃, heq⟩ := Option.map_eq_some_iff.1 hrun
  simp only [Prod.mk.injEq] at heq
  obtain ⟨hr, hstarted, hcompleted, hframes₂, hcontrol, hframes₃⟩ := heq
  obtain rfl := eq_ok_of_toOption hr
  have hlives : Lives p none m₁ w₁ := .resume (.new (.of_empty rfl) hnew) Env.bare_tame hfirst
  obtain ⟨ground, hvisits⟩ : ∃ ground, Visits p ground m₁.context w₁ := by
    cases (hlives.settled hp).stands hcompleted with
    | fresh hfresh =>
      rw [hstarted] at hfresh
      cases hfresh
    | @visiting ground _ hvisits => exact ⟨ground, hvisits⟩
  -- the task fails, and its exception reaches the inner try
  have hvisits : Visits p ground m₁.context w₁.failing :=
    .move hvisits (.change (s := m₁.context.suspension) fun hw => hw.keeps rfl fun _ _ hi => hi)
  have hvisits : Visits p ground c₂ w₃ :=
    (hvisits.move (moves_of_next? Env.bare_tame hc₁)).move (moves_of_next? Env.bare_tame hc₂)
  obtain ⟨f, fs, hf, hfirst', hrest⟩ := List.map_eq_cons_iff.1 hframes₂
  obtain ⟨f₃, fs₃, hf₃, hphase₃, hrest₃⟩ := List.map_eq_cons_iff.1 hframes₃
  simp only [Prod.mk.injEq] at hfirst'
  obtain ⟨hphase, hpending⟩ := hfirst'
  obtain ⟨handlers, hop⟩ := op_of_pendingCleanup? hpending
  have hmove := moves_of_next? Env.bare_tame hc₃
  obtain ⟨hlives, hadvances⟩ :=
    @cleanup_runs_once Unit _ _ _ hp handlers (some 1)
  obtain ⟨qs, hlife⟩ := hlives ground c₂ w₃ hvisits f fs (by rw [hf]) hop
  obtain ⟨hcourse, hadvance⟩ := hadvances ground c₂ w₃ { f with phase := .guarded } fs _ qs hop
    hlife
  have hholds : Holds { f with phase := .guarded } fs
      (.inCleanup (.abrupt (.throw ⟨⟨"Error", "failed"⟩, 0⟩))) c₃ := by
    have hlength : fs₃.length = fs.length := by
      have h₂ := congrArg List.length hrest
      have h₃ := congrArg List.length hrest₃
      rw [List.length_map] at h₂ h₃
      rw [h₂, h₃]
      rfl
    have hlater : f.Later f₃ ∧ fs₃ = fs := by
      rcases hmove.turned hp hvisits with hturned | heq
      · rw [hf, hf₃] at hturned
        exact hturned.later hlength
      · rw [hf, hf₃] at heq
        cases heq
        exact ⟨.phase f f.phase, rfl⟩
    obtain ⟨⟨phase, saved, rfl, hsaved⟩, rfl⟩ := hlater
    rcases hsaved with rfl | hinvoke
    · rw [Holds, hf₃, ← hphase₃]
    · rw [hop] at hinvoke
      cases hinvoke
  obtain ⟨-, -, slot, hslot, hstart⟩ :=
    (hadvance c₃ w₄ hmove).starts _ hholds (by rw [hphase]; simp)
  rw [hphase] at hlife hcourse hstart
  exact ⟨p, m, w, m₁, w₁, ground, _, fs, c₁, w₂, c₂, w₃, c₃, w₄, _, slot, qs, hp, hnew, hfirst, hc₁,
    hc₂, hcontrol, hlife, hcourse, hc₃, hstart⟩

end InterpretedMachine

end Coroutine
