import Mathlib
import Coroutine.Proofs.Machine.Events
import Coroutine.Proofs.Machine.Fuel

/-!
# Step limits

A step limit only cuts runs short. A resumption under a limit always ends. It does all that the
resumption under a larger limit or none does, event by event, and ends alike; or it stops at an
instruction or a step that the longer one goes on with, in the world that this one finds, and the
machine is done: `Machine.limit_only_cuts`.

Two budgets are counted, the instructions of a compiled machine and the steps of each expression that
it evaluates. `Traced.Cuts` compares parts of two such runs and is a congruence, so it is enough to
look at the two places where a limit is checked.
-/

namespace Coroutine

variable {σ α β : Type} {steps fuel : Nat}

/-- Whether a limit, if there is one, lies above a number of steps. -/
def Exceeds (limit : Option Nat) (n : Nat) : Prop := ∀ k ∈ limit, n < k

/-- No limit that exceeds the steps has been reached. -/
theorem Exceeds.limitReached {limit : Option Nat} {n : Nat} (h : Exceeds limit n)
    (hsteps : steps ≤ n) : limitReached limit steps = false := by
  cases limit with
  | none => rfl
  | some k =>
    have hk : n < k := h k rfl
    simp only [Coroutine.limitReached, decide_eq_false_iff_not]
    omega

/-- A limit is reached after exactly as many steps. -/
theorem limitReached_some {n : Nat} (hsteps : steps ≤ n) :
    limitReached (some n) steps = true ↔ steps = n := by
  simp only [limitReached, decide_eq_true_eq]
  omega

/-! ## Runs cut short -/

section

variable {τ : Type}

/-- A run fails at the limit `n`, where the other one goes on with some event in the same world. -/
def CutAt (n : Nat) (world : τ → World σ) (x : Option (Except RunError α × τ))
    (events events' : List (Event σ)) : Prop :=
  ∃ s e, x = some (.error (.stepLimitExceeded n), s) ∧ e.world = world s ∧ events ++ [e] <+: events'

/-- Two runs are the same and do not fail at a limit, or the first one is cut short. -/
def Cuts (n : Nat) (world : τ → World σ) (x : Option (Except RunError α × τ))
    (events : List (Event σ)) (y : Option (Except RunError α × τ)) (events' : List (Event σ)) :
    Prop :=
  (y = x ∧ events' = events ∧ ∀ r s, x = some (r, s) → OffLimit r) ∨ CutAt n world x events events'

variable {n : Nat} {world : τ → World σ} {x y : Option (Except RunError α × τ)}
  {events events' : List (Event σ)}

/-- What happened before makes no difference to where a run is cut. -/
theorem CutAt.prepend (h : CutAt n world x events events') (before : List (Event σ)) :
    CutAt n world x (before ++ events) (before ++ events') := by
  obtain ⟨s, e, hx, he, hpre⟩ := h
  refine ⟨s, e, hx, he, ?_⟩
  rw [List.append_assoc]
  exact (List.prefix_append_right_inj before).2 hpre

/-- What happened before makes no difference to how runs compare. -/
theorem Cuts.prepend (h : Cuts n world x events y events') (before : List (Event σ)) :
    Cuts n world x (before ++ events) y (before ++ events') := by
  rcases h with ⟨hrun, hevents, hoff⟩ | hcut
  · exact .inl ⟨hrun, by rw [hevents], hoff⟩
  · exact .inr (hcut.prepend before)

/-- A result may be turned into another one, if errors stay as they are. -/
theorem Cuts.map {τ' : Type} {world' : τ' → World σ} (h : Cuts n world x events y events')
    {f : Except RunError α × τ → Except RunError β × τ'} {g : τ → τ'}
    (herror : ∀ e s, f (.error e, s) = (.error e, g s)) (hworld : ∀ s, world' (g s) = world s)
    (hok : ∀ a s, OffLimit (f (.ok a, s)).1) :
    Cuts n world' (x.map f) events (y.map f) events' := by
  rcases h with ⟨rfl, rfl, hoff⟩ | ⟨s, e, rfl, he, hpre⟩
  · refine .inl ⟨rfl, rfl, fun r s' hr => ?_⟩
    obtain ⟨⟨r₀, s₀⟩, hy, hf⟩ := Option.map_eq_some_iff.1 hr
    cases r₀ with
    | ok a =>
      have hfa := hok a s₀
      rwa [hf] at hfa
    | error e =>
      rw [herror] at hf
      cases hf
      exact hoff (.error e) s₀ hy
  · exact .inr ⟨g s, e, congrArg some (herror _ s), he.trans (hworld s).symm, hpre⟩

end

/-! ## The interpreter -/

/-- No part of a step fails at a limit: the limit is checked before it. -/
def Env.offLimit (env : Env σ) : Concern.Logic {} env where
  Runs _ m w _ := ∀ mode, OffLimit (m mode w).1
  Host _ := True
  ret _ _ := trivial
  fail he _ := he
  bind {α β pre w P Q m f} h hf mode := by
    dsimp only
    rw [exceptState_bind]
    have hm := h mode
    rcases hr : m mode w with ⟨e | a, w'⟩
    · rw [hr] at hm
      exact hm
    · exact hf a w' mode
  suspend _ _ mode := by
    dsimp only
    split
    · trivial
    · exact rfl
  lookup {β pre w Q χ x f} _ hf mode := by
    dsimp only
    rw [exceptState_bind]
    simp only [Run.look]
    cases w.lookup χ x.word with
    | some v => exact hf v w mode
    | none => exact rfl
  assign {β pre w Q χ e id x a m} _ _ _ hf mode := by
    dsimp only
    rw [exceptState_bind]
    simp only [Run.act]
    cases (w.assign χ x.word a).1 with
    | true => exact hf _ mode
    | false => exact rfl
  newScope _ _ := trivial
  newClosure _ _ _ := trivial
  closure _ _ := trivial
  raise _ _ := trivial
  asException _ _ := trivial
  attempt _ _ _ := trivial
  ofFault _ := trivial
  call _ _ := trivial
  getAwaiter _ _ _ := trivial
  isCompleted _ _ := trivial
  getResult _ _ := trivial

section

variable (env : Env σ) (mode : LambdaKind)

variable {limit : Option Nat} {n : Nat} (hlimit : Exceeds limit n)
include hlimit

/-- An iteration under a limit goes along with one under a larger limit. -/
theorem iterate_cuts (fuel : Nat) (hsteps : steps ≤ n) (c : Context) (w : World σ) :
    Cuts n id (iterate env mode (some n) fuel steps c w)
      (iterateEvents env mode (some n) fuel steps c w)
      (iterate env mode limit fuel steps c w) (iterateEvents env mode limit fuel steps c w) := by
  induction fuel generalizing steps c w with
  | zero => exact .inl ⟨rfl, rfl, fun _ _ h => by cases h⟩
  | succ fuel ih =>
    simp only [iterate, iterateEvents, hlimit.limitReached hsteps, Bool.false_eq_true, if_false]
    by_cases hn : steps = n
    · -- the limit is reached: the longer run takes the step that this one may not take
      simp only [(limitReached_some hsteps).2 hn, if_true]
      exact .inr ⟨w, .step c w, by rw [limitError, Option.getD_some], rfl, by simp⟩
    · have hgo : limitReached (some n) steps = false := by
        simpa using mt (limitReached_some hsteps).1 hn
      simp only [hgo, Bool.false_eq_true, if_false]
      have hoff : OffLimit (step env mode c w).1 :=
        env.offLimit.step (fun h : False => h.elim) False.elim mode
      rcases hstep : step env mode c w with ⟨e | c' | ⟨h, c'⟩, w'⟩
      · rw [hstep] at hoff
        exact .inl ⟨rfl, rfl, fun r s hr => by cases hr; exact hoff⟩
      · exact ((ih (by omega) c' w').prepend (c.calls env w)).prepend [.step c w]
      · exact .inl ⟨rfl, rfl, fun r s hr => by cases hr; trivial⟩

/-- A run from the root under a limit goes along with one under a larger limit. -/
theorem start_cuts (fuel : Nat) (code : Code) (c : Context) (w : World σ) :
    Cuts n id (start env mode (some n) fuel code c w)
      (startEvents env mode (some n) fuel code c w)
      (start env mode limit fuel code c w) (startEvents env mode limit fuel code c w) := by
  unfold start startEvents
  have hoff : OffLimit (enter mode code Code.root c w).1 :=
    env.offLimit.enter (fun h : False => h.elim) False.elim Code.root mode
  rcases henter : (enter mode code Code.root c : Run σ Context) w with ⟨e | c', w'⟩
  · rw [henter] at hoff
    exact .inl ⟨rfl, rfl, fun r s hr => by cases hr; exact hoff⟩
  · exact iterate_cuts env mode hlimit fuel (Nat.zero_le n) c' w'

end

/-- An iteration under a limit ends. -/
theorem iterate_ends (env : Env σ) (mode : LambdaKind) {n : Nat} (hfuel : n - steps < fuel)
    (c : Context) (w : World σ) : ∃ x, iterate env mode (some n) fuel steps c w = some x := by
  induction fuel generalizing steps c w with
  | zero => omega
  | succ fuel ih =>
    rw [iterate]
    by_cases hreached : limitReached (some n) steps = true
    · exact ⟨_, if_pos hreached⟩
    · have hlt : steps < n := by simpa [limitReached] using hreached
      rw [if_neg hreached]
      rcases step env mode c w with ⟨e | c' | ⟨h, c'⟩, w'⟩
      · exact ⟨_, rfl⟩
      · exact ih (by omega) c' w'
      · exact ⟨_, rfl⟩

/-- A run under a limit ends if there is more fuel than the limit. -/
theorem start_ends (env : Env σ) (mode : LambdaKind) {n : Nat} (hfuel : n < fuel) (code : Code)
    (c : Context) (w : World σ) : ∃ x, start env mode (some n) fuel code c w = some x := by
  unfold start
  rcases (enter mode code Code.root c : Run σ Context) w with ⟨e | c', w'⟩
  · exact ⟨_, rfl⟩
  · exact iterate_ends env mode (by omega) c' w'

/-! ## Compiled machines -/

namespace Traced

/-- Two parts of a run are the same, or the first one is cut short. -/
def Cuts (n : Nat) (α : Type) (x y : Traced σ α) : Prop :=
  ∀ s, Coroutine.Cuts n Prod.snd (x.run s) (x.events s) (y.run s) (y.events s)

/-- The parts of a compiled run are cut like the run. -/
theorem Cuts.congruence (n : Nat) : Congruence (Cuts (σ := σ) n) where
  quiet x hx s := by
    obtain ⟨r, s', hr, hoff⟩ := hx s
    refine .inl ⟨rfl, rfl, fun r' s'' hr' => ?_⟩
    cases hr.symm.trans hr'
    exact hoff
  bind {α β x y f g} hxy hfg s := by
    change Coroutine.Cuts n Prod.snd ((x.run >>= fun a => (f a).run) s) (x.events s ++ _)
      ((y.run >>= fun a => (g a).run) s) (y.events s ++ _)
    rw [Exec.bind_eq, Exec.bind_eq]
    rcases hxy s with ⟨hrun, hevents, hoff⟩ | ⟨s', e, hx, he, hpre⟩
    · rw [hrun, hevents]
      rcases hr : x.run s with _ | ⟨e | a, s'⟩
      · exact .inl ⟨rfl, rfl, fun _ _ h => by cases h⟩
      · exact .inl ⟨rfl, rfl, fun r s'' h => by cases h; exact hoff _ _ hr⟩
      · exact (hfg a s').prepend (x.events s)
    · rw [hx]
      refine .inr ⟨s', e, rfl, he, ?_⟩
      change (x.events s ++ []) ++ [e] <+: _
      rw [List.append_nil]
      exact hpre.trans (List.prefix_append _ _)

/-- A part of a run that ends wherever it starts; of the other part nothing is said. -/
def Ends (α : Type) (x _y : Traced σ α) : Prop := ∀ s, ∃ r, x.run s = some r

/-- A compiled run ends if its parts do. -/
theorem Ends.congruence : Congruence (Ends (σ := σ)) where
  quiet x hx s := by
    obtain ⟨r, s', hr, -⟩ := hx s
    exact ⟨_, hr⟩
  bind {α β x y f g} hx hf s := by
    change ∃ r, (x.run >>= fun a => (f a).run) s = some r
    rw [Exec.bind_eq]
    obtain ⟨⟨e | a, s'⟩, hr⟩ := hx s
    · rw [hr]
      exact ⟨_, rfl⟩
    · rw [hr]
      exact hf a s'

end Traced

namespace CompiledMachine

/-- A jump out of blocks evaluates nothing. -/
theorem leaveTo_prompt (target : Target) (enclosing : List Enclosing) :
    (leaveTo target enclosing : Exec σ Position).Prompt := by
  induction enclosing with
  | nil => exact .throw rfl
  | cons e rest ih =>
    unfold leaveTo
    split
    · exact (Exec.Prompt.write _ _).bind fun _ => .pure _
    · exact ih

/-- An exception that leaves blocks evaluates nothing. -/
theorem catchIn_prompt (x : Exception) (enclosing : List Enclosing) :
    (catchIn x enclosing : Exec σ Position).Prompt := by
  induction enclosing with
  | nil => exact .throw rfl
  | cons e rest ih =>
    unfold catchIn
    split
    · exact (Exec.Prompt.write _ _).bind fun _ => (Exec.Prompt.write _ _).bind fun _ => .pure _
    · exact ih

/-- Entering a block evaluates nothing. -/
theorem entryPoint_prompt (b : Block) : (entryPoint b : Exec σ Nat).Prompt := by
  refine Exec.Prompt.durably.bind fun d => ?_
  dsimp only
  split
  · exact .pure _
  · split
    · exact .throw rfl
    · split
      · refine (Exec.Prompt.modifyDurable _).bind fun _ => ?_
        split
        · exact .pure _
        · exact .throw rfl
      · split
        · exact .pure _
        · exact .throw rfl

/-- Going on after an instruction evaluates nothing, unless a block is entered. -/
theorem proceed_prompt (p : Position) (next : Next) :
    (proceed p next : Exec σ (Position ⊕ Flow)).Prompt := by
  cases next with
  | advance => exact .pure _
  | jump target =>
    unfold proceed
    dsimp only
    split
    · exact .pure _
    · exact (leaveTo_prompt target _).bind fun _ => .pure _
  | stop f => exact .pure _
  | enter r => exact (entryPoint_prompt r.block).bind fun _ => .pure _

section

variable (env : Env σ) {n : Nat} {limit : Option Nat} {m m' : CompiledMachine}

/-- After an instruction the run ends or goes on, at a limit only if the instruction failed at one. -/
theorem stepAt_ends (p : Position) {i : Instr} {s s' : Durable × World σ}
    {r : Except RunError Next} (h : m.exec env fuel i s = some (r, s')) :
    ∃ r' s'', m.stepAt env fuel p i s = some (r', s'') ∧ (OffLimit r → OffLimit r') := by
  unfold stepAt
  rw [h]
  cases r with
  | ok next =>
    obtain ⟨r', s'', hproceed, hoff⟩ := proceed_prompt p next s'
    exact ⟨r', s'', hproceed, fun _ => hoff⟩
  | error e =>
    cases e with
    | thrown x =>
      obtain ⟨r', s'', hcatch, hoff⟩ := (catchIn_prompt x p.enclosing).map Sum.inl s'
      exact ⟨r', s'', hcatch, fun _ => hoff⟩
    | _ => exact ⟨_, _, rfl, id⟩

/-- What comes after an instruction is the same, unless the instruction is cut short. -/
theorem stepAtT_cuts {p : Position} {i : Instr}
    (h : Traced.Cuts n _ (m.execT env fuel i) (m'.execT env fuel i)) :
    Traced.Cuts n _ (m.stepAtT env fuel p i) (m'.stepAtT env fuel p i) := by
  intro s
  have hs := h s
  rw [execT_run, execT_run] at hs
  change Coroutine.Cuts n Prod.snd (m.stepAt env fuel p i s) ([.instr p s.1 s.2] ++ _)
    (m'.stepAt env fuel p i s) ([.instr p s.1 s.2] ++ _)
  rcases hs with ⟨hrun, hevents, hoff⟩ | ⟨s', e, hx, he, hpre⟩
  · have hstep : m'.stepAt env fuel p i s = m.stepAt env fuel p i s := by
      unfold stepAt
      rw [hrun]
    refine .inl ⟨hstep, by rw [hevents], fun r t ht => ?_⟩
    rcases hr : m.exec env fuel i s with _ | ⟨r', s'⟩
    · unfold stepAt at ht
      rw [hr] at ht
      cases ht
    · obtain ⟨r'', s'', hend, hoff'⟩ := stepAt_ends env p hr
      cases hend.symm.trans ht
      exact hoff' (hoff r' s' hr)
  · refine .inr (CutAt.prepend ⟨s', e, ?_, he, hpre⟩ _)
    unfold stepAt
    rw [hx]

variable (hm : m.limit = some n) (hm' : m'.limit = limit) (hlimit : Exceeds limit n)
include hm hm' hlimit

/-- An evaluation under a limit goes along with one under a larger limit. -/
theorem evaluateT_cuts (fuel : Nat) (e : CompiledExpr) (χ : Chain) :
    Traced.Cuts n _ (m.evaluateT env fuel e χ) (m'.evaluateT env fuel e χ) := by
  rintro ⟨d, w⟩
  have hevaluate : Coroutine.Cuts n id (evaluate env (some n) fuel e.code χ w)
      (startEvents env .sync (some n) fuel e.code { scopes := χ } w)
      (evaluate env limit fuel e.code χ w)
      (startEvents env .sync limit fuel e.code { scopes := χ } w) := by
    refine (start_cuts env .sync hlimit fuel e.code { scopes := χ } w).map (fun _ _ => rfl)
      (fun _ => rfl) fun ⟨h, c⟩ w => ?_
    cases h <;> trivial
  change Coroutine.Cuts n Prod.snd ((evaluate env m.limit fuel e.code χ w).map _)
    (startEvents env .sync m.limit fuel e.code { scopes := χ } w)
    ((evaluate env m'.limit fuel e.code χ w).map _)
    (startEvents env .sync m'.limit fuel e.code { scopes := χ } w)
  rw [hm, hm']
  exact hevaluate.map (fun _ _ => rfl) (fun _ => rfl) fun _ _ => trivial

variable (hprogram : m'.program = m.program)
include hprogram

/-- An instruction under a limit goes along with one under a larger limit. -/
theorem execT_cuts (fuel : Nat) (i : Instr) :
    Traced.Cuts n _ (m.execT env fuel i) (m'.execT env fuel i) := by
  have hR := Traced.Cuts.congruence (σ := σ) n
  have hcall {γ : Type} (q : Call) (e : Effect σ γ) :
      Traced.Cuts n _ (Traced.call q e) (Traced.call q e) := by
    intro s
    obtain ⟨r, s', hr, hoff⟩ := Exec.Prompt.perform e s
    refine .inl ⟨rfl, rfl, fun r' s'' hr' => ?_⟩
    cases hr.symm.trans hr'
    exact hoff
  exact execT_congr hR
    (evalT_congr hR hprogram (evaluateT_cuts env hm hm' hlimit fuel))
    (fun _ _ _ => hcall _ _) (fun _ _ => hcall _ _) (fun _ _ => hcall _ _) i

/-- A run under a limit goes along with one under a larger limit. -/
theorem runFromT_cuts (fuel : Nat) (hsteps : steps ≤ n) (p : Position) :
    Traced.Cuts n _ (m.runFromT env fuel steps p) (m'.runFromT env fuel steps p) := by
  have hR := Traced.Cuts.congruence (σ := σ) n
  induction fuel generalizing steps p with
  | zero => exact fun _ => .inl ⟨rfl, rfl, fun _ _ h => by cases h⟩
  | succ fuel ih =>
    unfold runFromT
    cases p.block.instrs[p.pc]? with
    | none => exact hR.quiet _ (.throw rfl)
    | some i =>
      simp only [hm, hm', hlimit.limitReached hsteps, Bool.false_eq_true, if_false]
      by_cases hn : steps = n
      · -- the limit is reached: the longer run goes on with this instruction
        simp only [(limitReached_some hsteps).2 hn, if_true]
        intro s
        exact .inr ⟨s, .instr p s.1 s.2, rfl, rfl, by simp [Traced.quiet, Traced.bind, stepAtT]⟩
      · have hgo : limitReached (some n) steps = false := by
          simpa using mt (limitReached_some hsteps).1 hn
        simp only [hgo, Bool.false_eq_true, if_false]
        refine hR.bind (stepAtT_cuts env
          (execT_cuts env hm hm' hlimit hprogram fuel i)) fun next => ?_
        cases next with
        | inl p' => exact ih (by omega) p'
        | inr f => exact hR.quiet _ (.pure _)

omit hm' hlimit hprogram in
/-- A run under a limit ends: the instructions are counted, and so are the steps of each expression. -/
theorem runFrom_ends (hfuel : n - steps + n + 1 < fuel) (p : Position) (s : Durable × World σ) :
    ∃ r, m.runFrom env fuel steps p s = some r := by
  -- each step takes one of the steps that are left, so the fuel lasts until the limit
  induction fuel generalizing steps p s with
  | zero => omega
  | succ fuel ih =>
    -- evaluations end since there is more fuel than the limit, and calls of the host end anyway
    have hR := Traced.Ends.congruence (σ := σ)
    have hevaluate (e : CompiledExpr) (χ : Chain) :
        Traced.Ends _ (m.evaluateT env fuel e χ) (m.evaluateT env fuel e χ) := by
      rintro ⟨d, w⟩
      obtain ⟨x, hx⟩ := start_ends env .sync (show n < fuel by omega) e.code { scopes := χ } w
      change ∃ r, ((start env .sync m.limit fuel e.code { scopes := χ } w).map _).map _ = some r
      rw [hm, hx]
      exact ⟨_, rfl⟩
    have hcall {γ : Type} (q : Call) (e : Effect σ γ) :
        Traced.Ends _ (Traced.call q e) (Traced.call q e) := by
      intro s
      obtain ⟨r, s', hr, -⟩ := Exec.Prompt.perform e s
      exact ⟨_, hr⟩
    unfold runFrom
    cases p.block.instrs[p.pc]? with
    | none => exact ⟨_, rfl⟩
    | some i =>
      dsimp only
      rw [hm]
      by_cases hreached : limitReached (some n) steps = true
      · rw [if_pos hreached]
        exact ⟨_, rfl⟩
      · have hlt : steps < n := by simpa [limitReached] using hreached
        rw [if_neg hreached, Exec.bind_eq]
        have hexec := execT_congr hR (evalT_congr hR rfl hevaluate) (fun _ _ _ => hcall _ _)
          (fun _ _ => hcall _ _) (fun _ _ => hcall _ _) i s
        rw [execT_run] at hexec
        obtain ⟨⟨r, s'⟩, hr⟩ := hexec
        obtain ⟨e | next, s'', hnext, -⟩ := stepAt_ends env p hr
        · rw [hnext]
          exact ⟨_, rfl⟩
        · rw [hnext]
          cases next with
          | inl p' => exact ih (by omega) p' s''
          | inr f => exact ⟨_, rfl⟩

omit hm' hlimit hprogram in
/-- The whole entry block ends under a limit. -/
theorem runEntry_ends (hfuel : 2 * n + 1 < fuel) (s : Durable × World σ) :
    ∃ r, m.runEntry env fuel s = some r := by
  unfold runEntry
  rw [Exec.bind_eq]
  obtain ⟨e | pc, s', hentry, -⟩ := entryPoint_prompt m.program.entry s
  · rw [hentry]
    exact ⟨_, rfl⟩
  · rw [hentry]
    exact runFrom_ends env hm (by omega) _ s'

/-- Runs of the entry block go along with each other. -/
theorem runEntryT_cuts (fuel : Nat) :
    Traced.Cuts n _ (m.runEntryT env fuel) (m'.runEntryT env fuel) := by
  unfold runEntryT
  rw [hprogram]
  have hR := Traced.Cuts.congruence (σ := σ) n
  exact hR.bind (hR.quiet _ (entryPoint_prompt _)) fun pc =>
    runFromT_cuts env hm hm' hlimit hprogram fuel (Nat.zero_le n) _

end

end CompiledMachine

/-! ## Resumptions -/

/-- A machine with another step limit. -/
def Machine.withLimit (limit : Option Nat) : Machine → Machine
  | .compiled m => .compiled { m with limit }
  | .interpreted m => .interpreted { m with limit }

section

variable {n : Nat} {limit : Option Nat}

/-- What the comparison of two runs says about the first one's end. -/
theorem Cuts.ended {τ : Type} {world : τ → World σ} {r : Except RunError α} {s : τ}
    {y : Option (Except RunError α × τ)} {events events' : List (Event σ)}
    (h : Cuts n world (some (r, s)) events y events') :
    (OffLimit r ∧ y = some (r, s) ∧ events' = events) ∨
      (r = .error (.stepLimitExceeded n) ∧ ∃ e, e.world = world s ∧ events ++ [e] <+: events') := by
  rcases h with ⟨rfl, rfl, hoff⟩ | ⟨s', e, hx, he, hpre⟩
  · exact .inl ⟨hoff r s rfl, rfl, rfl⟩
  · cases hx
    exact .inr ⟨rfl, e, he, hpre⟩

/-- How a resumption under the limit `n`, which ends with `r`, `m'` and `w'`, compares with the same
one under another limit. -/
def Machine.Compares (env : Env σ) (fuel n : Nat) (limit : Option Nat) (m : Machine) (w : World σ)
    (r : Except RunError Status) (m' : Machine) (w' : World σ) : Prop :=
  (OffLimit r ∧ (m.withLimit limit).resume env fuel w = some ((r, m'.withLimit limit), w') ∧
      (m.withLimit limit).events env fuel w = (m.withLimit (some n)).events env fuel w) ∨
    (r = .error (.stepLimitExceeded n) ∧ m'.isCompleted = true ∧ ∃ e : Event σ, e.world = w' ∧
      (m.withLimit (some n)).events env fuel w ++ [e] <+: (m.withLimit limit).events env fuel w)

/-- A compiled machine that is resumed under a limit ends, and goes along with all larger limits. -/
theorem CompiledMachine.resume_compares (env : Env σ) (m : CompiledMachine) (w : World σ)
    (hfuel : 2 * n + 1 < fuel) :
    ∃ r m' w', (Machine.withLimit (some n) (.compiled m)).resume env fuel w = some ((r, m'), w') ∧
      ∀ limit, Exceeds limit n → Machine.Compares env fuel n limit (.compiled m) w r m' w' := by
  by_cases hdone : m.isCompleted = true
  · refine ⟨.error .alreadyCompleted, .compiled { m with limit := some n }, w, ?_, fun limit _ => ?_⟩
    · exact congrArg (Option.map _) (if_pos hdone)
    · refine .inl ⟨rfl, congrArg (Option.map _) (if_pos hdone), ?_⟩
      exact (if_pos hdone).trans (if_pos hdone).symm
  · obtain ⟨⟨r, d, w'⟩, hrun⟩ := runEntry_ends env (m := { m with limit := some n }) rfl hfuel
      ({ m.durable with success := false }, w)
    -- the limit plays no part in how a run is settled, and the machine keeps it
    have hresume (limit : Option Nat) {x : Except RunError Flow × (Durable × World σ)}
        (h : CompiledMachine.runEntry env fuel { m with limit }
          ({ m.durable with success := false }, w) = some x) :
        (Machine.withLimit limit (.compiled m)).resume env fuel w =
          some (((m.settle x.2.1 x.1).1, .compiled { (m.settle x.2.1 x.1).2 with limit }), x.2.2) := by
      have hsettle : ({ m with limit } : CompiledMachine).settle x.2.1 x.1 =
          ((m.settle x.2.1 x.1).1, { (m.settle x.2.1 x.1).2 with limit }) := by
        rcases x with ⟨_ | _ | _, _, _⟩
        · rfl
        · rename_i kind _ _
          cases kind <;> rfl
        · rfl
      change Option.map _ (if m.isCompleted = true then _ else Option.map _ _) = _
      rw [if_neg hdone, h]
      simp only [Option.map_some, hsettle]
    refine ⟨_, _, _, hresume (some n) hrun, fun limit hlimit => ?_⟩
    have hentry : Traced.Cuts n _ (CompiledMachine.runEntryT env fuel { m with limit := some n })
        (CompiledMachine.runEntryT env fuel { m with limit }) :=
      runEntryT_cuts env (rfl : ({ m with limit := some n } : CompiledMachine).limit = some n)
        (rfl : ({ m with limit } : CompiledMachine).limit = limit) hlimit rfl fuel
    have hcuts := hentry ({ m.durable with success := false }, w)
    rw [runEntryT_run, runEntryT_run, hrun] at hcuts
    have hevents (limit : Option Nat) : (Machine.withLimit limit (.compiled m)).events env fuel w =
        (CompiledMachine.runEntryT env fuel { m with limit }).events
          ({ m.durable with success := false }, w) := if_neg hdone
    unfold Machine.Compares
    rw [hevents, hevents]
    -- the run was not cut, or it was cut at the limit
    rcases hcuts.ended with ⟨hoff, hsame, hsameEvents⟩ | ⟨rfl, e, he, hpre⟩
    · refine .inl ⟨?_, hresume limit hsame, hsameEvents⟩
      rcases r with _ | _ | _
      · exact hoff
      · rename_i kind
        cases kind <;> trivial
      · trivial
    · exact .inr ⟨rfl, rfl, e, he, hpre⟩

/-- The run of an interpreted machine under a limit. -/
def InterpretedMachine.run (env : Env σ) (fuel : Nat) (limit : Option Nat) (m : InterpretedMachine)
    (w : World σ) : Option (Ended σ (Halt × Context)) :=
  if m.started then iterate env m.kind limit fuel 0 m.context w
  else start env m.kind limit fuel m.code m.context w

/-- The events of the run of an interpreted machine under a limit. -/
def InterpretedMachine.runEvents (env : Env σ) (fuel : Nat) (limit : Option Nat)
    (m : InterpretedMachine) (w : World σ) : List (Event σ) :=
  if m.started then iterateEvents env m.kind limit fuel 0 m.context w
  else startEvents env m.kind limit fuel m.code m.context w

/-- A run of an interpreted machine under a limit goes along with one under a larger limit. -/
theorem InterpretedMachine.run_cuts (env : Env σ) (m : InterpretedMachine) (w : World σ) (fuel : Nat)
    (hlimit : Exceeds limit n) :
    Cuts n id (m.run env fuel (some n) w) (m.runEvents env fuel (some n) w)
      (m.run env fuel limit w) (m.runEvents env fuel limit w) := by
  unfold run runEvents
  split
  · exact iterate_cuts env m.kind hlimit fuel (Nat.zero_le n) m.context w
  · exact start_cuts env m.kind hlimit fuel m.code m.context w

/-- A run of an interpreted machine under a limit ends. -/
theorem InterpretedMachine.run_ends (env : Env σ) (m : InterpretedMachine) (w : World σ)
    (hfuel : n < fuel) : ∃ x, m.run env fuel (some n) w = some x := by
  unfold run
  split
  · exact iterate_ends env m.kind (by omega) m.context w
  · exact start_ends env m.kind hfuel m.code m.context w

/-- An interpreted machine that is resumed under a limit ends, and goes along with all larger
limits. -/
theorem InterpretedMachine.resume_compares (env : Env σ) (m : InterpretedMachine) (w : World σ)
    (hfuel : n < fuel) :
    ∃ r m' w', (Machine.withLimit (some n) (.interpreted m)).resume env fuel w = some ((r, m'), w') ∧
      ∀ limit, Exceeds limit n → Machine.Compares env fuel n limit (.interpreted m) w r m' w' := by
  by_cases hdone : m.completed = true
  · refine ⟨.error .alreadyCompleted, .interpreted { m with limit := some n }, w, ?_,
      fun limit _ => ?_⟩
    · exact congrArg (Option.map _) (if_pos hdone)
    · refine .inl ⟨rfl, congrArg (Option.map _) (if_pos hdone), ?_⟩
      exact (if_pos hdone).trans (if_pos hdone).symm
  · obtain ⟨⟨r, w'⟩, hrun⟩ := run_ends env m w hfuel
    have hresume (limit : Option Nat) {x : Ended σ (Halt × Context)}
        (h : m.run env fuel limit w = some x) :
        (Machine.withLimit limit (.interpreted m)).resume env fuel w =
          some (((settle { m with started := true } x.1).1,
            .interpreted { (settle { m with started := true } x.1).2 with limit }), x.2) := by
      have hsettle : settle { m with started := true, limit } x.1 =
          ((settle { m with started := true } x.1).1,
            { (settle { m with started := true } x.1).2 with limit }) := by
        rcases x with ⟨_ | ⟨halt, c⟩, _⟩
        · rfl
        · cases halt <;> rfl
      change Option.map _ (if m.completed = true then _ else Option.map _ (m.run env fuel limit w)) = _
      rw [if_neg hdone, h]
      simp only [Option.map_some, hsettle]
    have hevents (limit : Option Nat) : (Machine.withLimit limit (.interpreted m)).events env fuel w =
        m.runEvents env fuel limit w := if_neg hdone
    refine ⟨_, _, _, hresume (some n) hrun, fun limit hlimit => ?_⟩
    have hcuts := run_cuts env m w fuel hlimit
    rw [hrun] at hcuts
    unfold Machine.Compares
    rw [hevents, hevents]
    rcases hcuts.ended with ⟨hoff, hsame, hsameEvents⟩ | ⟨rfl, e, he, hpre⟩
    · refine .inl ⟨?_, hresume limit hsame, hsameEvents⟩
      rcases r with _ | ⟨halt, c⟩
      · exact hoff
      · cases halt <;> trivial
    · exact .inr ⟨rfl, rfl, e, he, hpre⟩

/-- A step limit only cuts runs short. A resumption under the limit `n` ends, for every machine,
host and world. Either it does the same as under any larger limit or none, with the same events (the
calls of host functions and binders are among them), the same result, machine and world; or it fails
at the limit `n`, the machine is done, and the resumption under any larger limit or none begins with
the same events and goes on in the world that is left, so that nothing has run in reaction to the
limit. -/
theorem Machine.limit_only_cuts (env : Env σ) (m : Machine) (n : Nat) (w : World σ) :
    ∃ r m' w',
      (∀ fuel, 2 * n + 1 < fuel →
        (m.withLimit (some n)).resume env fuel w = some ((r, m'), w')) ∧
      ((OffLimit r ∧ ∀ limit, Exceeds limit n → ∀ fuel, 2 * n + 1 < fuel →
          (m.withLimit limit).resume env fuel w = some ((r, m'.withLimit limit), w') ∧
          (m.withLimit limit).events env fuel w = (m.withLimit (some n)).events env fuel w) ∨
        (r = .error (.stepLimitExceeded n) ∧ m'.isCompleted = true ∧
          ∀ limit, Exceeds limit n → ∀ fuel, 2 * n + 1 < fuel → ∃ e : Event σ, e.world = w' ∧
            (m.withLimit (some n)).events env fuel w ++ [e] <+:
              (m.withLimit limit).events env fuel w)) := by
  have hcompares : ∀ fuel, 2 * n + 1 < fuel → ∃ r m' w',
      (m.withLimit (some n)).resume env fuel w = some ((r, m'), w') ∧
        ∀ limit, Exceeds limit n → m.Compares env fuel n limit w r m' w' := by
    intro fuel hfuel
    cases m with
    | compiled m => exact m.resume_compares env w hfuel
    | interpreted m => exact m.resume_compares env w (by omega)
  obtain ⟨r, m', w', hresume, -⟩ := hcompares (2 * n + 2) (by omega)
  -- the end does not depend on the fuel
  have hends (fuel : Nat) (hfuel : 2 * n + 1 < fuel) :
      (m.withLimit (some n)).resume env fuel w = some ((r, m'), w') :=
    resume_mono env hfuel hresume
  have hall (limit : Option Nat) (hlimit : Exceeds limit n) (fuel : Nat) (hfuel : 2 * n + 1 < fuel) :
      m.Compares env fuel n limit w r m' w' := by
    obtain ⟨r₁, m₁, w₁, hresume₁, h⟩ := hcompares fuel hfuel
    cases (hends fuel hfuel).symm.trans hresume₁
    exact h limit hlimit
  refine ⟨r, m', w', hends, ?_⟩
  by_cases hcut : r = .error (.stepLimitExceeded n)
  · have hnot : ¬OffLimit r := by
      rw [hcut]
      exact Bool.noConfusion
    obtain ⟨hoff, -⟩ | ⟨-, hdone, -⟩ := hall none (fun _ h => by cases h) (2 * n + 2) (by omega)
    · exact absurd hoff hnot
    · refine .inr ⟨hcut, hdone, fun limit hlimit fuel hfuel => ?_⟩
      obtain ⟨hoff, -⟩ | ⟨-, -, hgoesOn⟩ := hall limit hlimit fuel hfuel
      · exact absurd hoff hnot
      · exact hgoesOn
  · obtain ⟨hoff, -⟩ | ⟨hcut', -⟩ := hall none (fun _ h => by cases h) (2 * n + 2) (by omega)
    · refine .inl ⟨hoff, fun limit hlimit fuel hfuel => ?_⟩
      obtain ⟨-, hsame⟩ | ⟨hcut', -⟩ := hall limit hlimit fuel hfuel
      · exact hsame
      · exact absurd hcut' hcut
    · exact absurd hcut' hcut

end

end Coroutine
