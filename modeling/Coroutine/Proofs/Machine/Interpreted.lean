import Mathlib
import Coroutine.Proofs.Code.Built
import Coroutine.Proofs.Code.Rules
import Coroutine.Proofs.Interpreter.Heights
import Coroutine.Proofs.Machine.Safety

/-!
# Runs of interpreted machines

`InterpretedMachine.Visits` are the contexts that the runs of a prepared lambda go through, step by
step, over all suspensions and resumptions. The stacks of such a context are consistent: frames and
results agree in height, and an empty stack of frames leaves one result over the scopes the machine
started with. Hence no resumption breaks down.
-/

namespace Coroutine

variable {σ : Type} {l : Lambda} {resolve : Expr.Resolver} {limit : Option Nat}
  {m : InterpretedMachine} {env : Env σ}

/-! ## Prepared lambdas -/

/-- The code of a prepared lambda is sound over its parameters, no jump leaves it, and it suspends
the way its kind does. -/
theorem Lambda.prepare_sound {p : Prepared} (h : l.prepare resolve = .ok p) :
    ∃ s : Setting, p.code.Sound (fun _ => False) s ∧ p.code.Pauses p.kind ∧
      (∀ i, s.bound i → i ∈ p.params.map Var.id) ∧ s.handling = false := by
  obtain ⟨facts, hfacts, h⟩ := bind_eq_ok.1 h
  obtain ⟨code, hcode, h⟩ := bind_eq_ok.1 h
  cases h
  have hsound := Code.build_sound (l.check_fits hfacts).2 hcode
  have hobeys := Code.build_obeys (l.check_obeys hfacts) hcode
  refine ⟨_, hsound.mono fun _ hl => Bool.false_ne_true hl.1, fun id => ?_, fun _ hi => hi, rfl⟩
  have hop := hobeys.op id
  cases hid : (code.node id).op with
  | await | yieldReturn | yieldBreak =>
    rw [hid] at hop
    exact hop
  | _ => trivial

namespace InterpretedMachine

variable {p : Prepared} {ground : Chain} {c c' : Context} {w w' : World σ}

/-! ## Visited contexts -/

/-- What can happen to the context of a run and the world around it: a step, a stop that can be
resumed, and a change from outside, which may take the suspension and do anything to the world but
take scopes and closures away. -/
inductive Moves (mode : LambdaKind) (c : Context) (w : World σ) : Context → World σ → Prop
  | step {env : Env σ} {c' : Context} {w' : World σ} (henv : env.Tame)
      (h : Coroutine.step env mode c w = (.ok (.running c'), w')) : Moves mode c w c' w'
  | pause {env : Env σ} {halt : Halt} {c' : Context} {w' : World σ} (henv : env.Tame)
      (h : Coroutine.step env mode c w = (.ok (.halted halt c'), w'))
      (hpauses : halt.pauses = true) : Moves mode c w c' w'
  | change {s : Option Suspension} {w' : World σ} (hw : w.Sound → w.Keeps w') :
      Moves mode c w { c with suspension := s } w'

/-- The contexts that the runs of a prepared lambda go through, with the worlds around them. The
machine was started over the chain of scopes that is given. -/
inductive Visits (p : Prepared) (ground : Chain) : Context → World σ → Prop
  | start {limit : Option Nat} {args : List Value} {m : InterpretedMachine} {s : Option Suspension}
      {c : Context} {w w₁ w₂ w₃ : World σ} (hw : w.Sound)
      (hnew : InterpretedMachine.new p limit args w = .ok (m, w₁))
      (hground : m.context.scopes = ground) (hchange : w₁.Sound → w₁.Keeps w₂)
      (henter : enter p.kind p.code Code.root { m.context with suspension := s } w₂ = (.ok c, w₃)) :
      Visits p ground c w₃
  | move {c c' : Context} {w w' : World σ} (before : Visits p ground c w)
      (h : Moves p.kind c w c' w') : Visits p ground c' w'

/-- The terms on which a prepared lambda runs. -/
def terms (p : Prepared) (ground : Chain) : Terms := ⟨p.kind, fun _ => False, ground⟩

/-- A new machine has one scope, with its parameters. -/
theorem new_eq_ok {args : List Value} (h : InterpretedMachine.new p limit args w = .ok (m, w')) :
    ∃ sc : Scope, m = ⟨p.name, p.kind, p.code, { scopes := [w.scopes.size] }, limit, false, false⟩ ∧
      w' = (w.newScope sc).2 ∧ ∀ x ∈ p.params, sc.contains x.word = true := by
  unfold InterpretedMachine.new at h
  split at h
  · cases h
  · rename_i harity
    cases h
    refine ⟨_, rfl, rfl, fun x hx => ?_⟩
    rw [Scope.contains_ofArgs (not_not.1 harity).symm]
    exact decide_eq_true (List.mem_map_of_mem hx)

section

variable (hp : l.prepare resolve = .ok p)
include hp

/-- The root of the code can be started in a new machine. -/
theorem ready_new {args : List Value} {s : Option Suspension} {w₁ w₂ : World σ} (hw : w.Sound)
    (hnew : InterpretedMachine.new p limit args w = .ok (m, w₁))
    (hchange : w₁.Sound → w₁.Keeps w₂) :
    ∃ s', Ready (terms p m.context.scopes) w₂ { m.context with suspension := s } p.code Code.root
      s' := by
  obtain ⟨sc, rfl, rfl, hsc⟩ := new_eq_ok hnew
  obtain ⟨s', hsound, hpauses, hbound, hhandling⟩ := Lambda.prepare_sound hp
  have hk := hchange (hw.newScope sc).sound
  have hbinds : (w.newScope sc).2.Binds [w.scopes.size] s' := by
    intro i hi
    obtain ⟨x, hx, rfl⟩ := List.mem_map.1 (hbound i hi)
    refine ⟨w.scopes.size, List.mem_singleton.2 rfl, ?_⟩
    rw [World.scope_newScope, if_pos rfl]
    exact hsc x hx
  exact ⟨s', hk.sound, .empty, rfl, ⟨s', hsound⟩, hsound.root, fun _ => hpauses,
    hbinds.grows hk.grows, by simp [hhandling], .inl rfl⟩

/-- A visited context is sound and level. -/
theorem Visits.sound (h : Visits p ground c w) :
    w.Sound ∧ c.Sound (terms p ground) w ∧ c.Level := by
  induction h with
  | start hw hnew hground hchange henter =>
    subst hground
    obtain ⟨s', hready⟩ := ready_new hp hw hnew hchange
    obtain ⟨hk, hc⟩ := hready.enter
    obtain ⟨sc, rfl, -, -⟩ := new_eq_ok hnew
    have hstands := enter_above (c := { scopes := [_], suspension := _ }) .empty rfl _ _ _ henter
    rw [show (terms p _).mode = p.kind from rfl, henter] at hk hc
    exact ⟨hk.sound, hc, hstands.toLevel⟩
  | move before h ih =>
    obtain ⟨hw, hc, hlevel⟩ := ih
    cases h with
    | @step env c' w' henv h =>
      obtain ⟨hk, hc'⟩ := step_safe henv hw hc
      rw [show (terms p ground).mode = p.kind from rfl, h] at hk hc'
      exact ⟨hk.sound, hc', (step_level hlevel hc.control _ _ _ h).toLevel⟩
    | @pause env halt c' w' henv h hpauses =>
      obtain ⟨hk, hc'⟩ := step_safe henv hw hc
      rw [show (terms p ground).mode = p.kind from rfl, h] at hk hc'
      exact ⟨hk.sound, hc'.2 hpauses, (step_level hlevel hc.control _ _ _ h hpauses).toLevel⟩
    | change hchange =>
      have hk := hchange hw
      refine ⟨hk.sound, ⟨?_, hc.control⟩, ⟨hlevel.below, hlevel.above, hlevel.calm, hlevel.begun⟩⟩
      exact hc.stack.grows hk.grows

/-- A move leaves the results below the base of the top frame as they are. -/
theorem Moves.lowerResults (hc : Visits p ground c w) (h : Moves p.kind c w c' w') :
    c.lowerResults <:+ c'.results := by
  obtain ⟨-, hsound, hlevel⟩ := hc.sound hp
  cases h with
  | step henv h => exact (step_level hlevel hsound.control _ _ _ h).rest
  | pause henv h hpauses => exact (step_level hlevel hsound.control _ _ _ h hpauses).rest
  | change hchange =>
    show c.lowerResults <:+ c.results
    unfold Context.lowerResults
    split
    · exact List.nil_suffix
    · exact List.drop_suffix _ _

/-! ## Consistent stacks -/

/-- The frames, results and scopes of a context fit each other. The run was started over the chain
of scopes that is given. -/
structure Consistent (ground : Chain) (c : Context) : Prop where
  /-- Bases do not decrease towards the top frame, which comes first. -/
  bases : c.frames.Pairwise fun upper lower => lower.base ≤ upper.base
  heights : ∀ f ∈ c.frames, f.base ≤ c.results.length
  /-- A frame that takes the last result finds one above its base. -/
  takes : c.control = none → ∀ f ∈ c.frames.head?, f.phase.takes = true →
    f.base < c.results.length
  /-- A node is applied to as many values as it has children. -/
  applies : c.control = none → ∀ f ∈ c.frames.head?, ∀ next, f.phase = .operands next →
    f.children[next]? = none → (c.resultsAbove f.base).length = f.children.length
  /-- Where the frames end, there is one result, and the scopes are those from the start. -/
  ends : c.control = none → c.frames = [] → c.results.length = 1 ∧ c.scopes = ground

theorem Visits.consistent (h : Visits p ground c w) : Consistent ground c := by
  obtain ⟨-, hsound, hlevel⟩ := h.sound hp
  -- without a transfer, the top frame has the results that are due
  have hcalm (hcontrol : c.control = none) {f : Frame} (hf : f ∈ c.frames.head?) :
      c.results.length = f.base + f.phase.due := by
    obtain ⟨fs, hfs⟩ := List.head?_eq_some_iff.1 hf
    have hheight := hlevel.calm hcontrol
    rw [hfs] at hheight
    exact hheight
  refine ⟨?_, fun f hf => ?_, fun hcontrol f hf htakes => ?_, fun hcontrol f hf next hphase hnone => ?_,
    fun hcontrol hframes => ⟨?_, ?_⟩⟩
  · cases hframes : c.frames with
    | nil => exact .nil
    | cons f fs =>
      obtain ⟨hpiled, -⟩ := hlevel.below f fs hframes
      exact .cons hpiled.base_le hpiled.pairwise
  · cases hframes : c.frames with
    | nil =>
      rw [hframes] at hf
      cases hf
    | cons g fs =>
      have hg := hlevel.above g (by rw [hframes]; rfl)
      rw [hframes] at hf
      rcases List.mem_cons.1 hf with rfl | hf
      · exact hg
      · exact ((hlevel.below g fs hframes).1.base_le f hf).trans hg
  · rw [hcalm hcontrol hf]
    exact Nat.lt_add_of_pos_right (Phase.due_pos_of_takes htakes)
  · obtain ⟨fs, hfs⟩ := List.head?_eq_some_iff.1 hf
    have hle := (hlevel.below f fs hfs).2 next hphase
    have hge := List.getElem?_eq_none_iff.1 hnone
    have hheight := hcalm hcontrol hf
    rw [hphase] at hheight
    rw [Context.resultsAbove, List.length_reverse, List.length_take, hheight]
    -- all operands have been evaluated
    show min (f.base + next - f.base) (f.base + next) = f.children.length
    omega
  · have hheight := hlevel.calm hcontrol
    rw [hframes] at hheight
    exact hheight
  · have hstack := hsound.stack
    rw [hframes] at hstack
    generalize c.scopes = χ at hstack
    cases hstack
    rfl

/-! ## Resumptions -/

/-- The machines of a prepared lambda, each with the world around it: a new one in a sound world, one
after a resumption under a tame host, and one after changes from outside. -/
inductive Lives (p : Prepared) (limit : Option Nat) : InterpretedMachine → World σ → Prop
  | new {args : List Value} {w w' : World σ} {m : InterpretedMachine} (hw : w.Sound)
      (h : InterpretedMachine.new p limit args w = .ok (m, w')) : Lives p limit m w'
  | resume {env : Env σ} {fuel : Nat} {w w' : World σ} {m m' : InterpretedMachine}
      {res : Except RunError Status} (hm : Lives p limit m w) (henv : env.Tame)
      (h : m.resume env fuel w = some ((res, m'), w')) : Lives p limit m' w'
  | change {w w' : World σ} {m : InterpretedMachine} {s : Option Suspension}
      (hm : Lives p limit m w) (hw : w.Sound → w.Keeps w') :
      Lives p limit { m with context := { m.context with suspension := s } } w'

/-- A run of steps from a visited context ends in one, or for good, and does not break down. -/
theorem Visits.iterate (henv : env.Tame) {fuel steps : Nat} {r : Except RunError (Halt × Context)}
    (h : Visits p ground c w)
    (hrun : Coroutine.iterate env p.kind limit fuel steps c w = some (r, w')) :
    w'.Sound ∧ Orderly (fun (halt, c') => halt.Allowed (terms p ground) ∧
      (halt.pauses = true → Visits p ground c' w')) r := by
  induction fuel generalizing steps c w with
  | zero => cases hrun
  | succ fuel ih =>
    obtain ⟨hw, hc, -⟩ := h.sound hp
    rw [Coroutine.iterate] at hrun
    split at hrun
    · cases hrun
      exact ⟨hw, rfl⟩
    · obtain ⟨hk, hstep⟩ := step_safe henv hw hc
      rw [show (terms p ground).mode = p.kind from rfl] at hk hstep
      split at hrun
      · rename_i c₁ w₁ hm
        exact ih (.move h (.step henv hm)) hrun
      · rename_i halt c₁ w₁ hm
        rw [hm] at hk hstep
        cases hrun
        exact ⟨hk.sound, hstep.1, fun hpauses => .move h (.pause henv hm hpauses)⟩
      · rename_i e w₁ hm
        rw [hm] at hk hstep
        cases hrun
        exact ⟨hk.sound, hstep⟩

/-- Where a machine that has not completed stands: before its first step, or in a visited context. -/
inductive Stands (p : Prepared) (m : InterpretedMachine) (w : World σ) : Prop
  | fresh {limit : Option Nat} {args : List Value} {m₀ : InterpretedMachine}
      {s : Option Suspension} {w₀ w₁ : World σ} (hstarted : m.started = false) (hw : w₀.Sound)
      (hnew : InterpretedMachine.new p limit args w₀ = .ok (m₀, w₁))
      (hchange : w₁.Sound → w₁.Keeps w) (hcontext : m.context = { m₀.context with suspension := s })
  | visiting {ground : Chain} (hstarted : m.started = true) (h : Visits p ground m.context w)

/-- What holds of a machine and the world around it between resumptions. -/
structure Settled (p : Prepared) (m : InterpretedMachine) (w : World σ) : Prop where
  kind : m.kind = p.kind
  code : m.code = p.code
  sound : w.Sound
  stands : m.completed = false → Stands p m w

/-- The run of a resumption does not break down, and leaves a visited context if it can be
resumed. -/
theorem Stands.run
    (henv : env.Tame) {fuel : Nat}
    {r : Except RunError (Halt × Context)} (h : Stands p m w)
    (hrun : (if m.started then Coroutine.iterate env p.kind limit fuel 0 m.context w
      else start env p.kind limit fuel p.code m.context w) = some (r, w')) :
    w'.Sound ∧ Orderly (fun (halt, c') => (∀ label v, halt ≠ .escaped label v) ∧
      (halt.pauses = true → ∃ ground, Visits p ground c' w')) r := by
  -- from contexts that the machine visits, the run only visits more of them
  have hend {ground : Chain} {c₀ : Context} {w₀ : World σ} (hv : Visits p ground c₀ w₀)
      (hrun : Coroutine.iterate env p.kind limit fuel 0 c₀ w₀ = some (r, w')) :
      w'.Sound ∧ Orderly (fun (halt, c') => (∀ label v, halt ≠ .escaped label v) ∧
        (halt.pauses = true → ∃ ground, Visits p ground c' w')) r := by
    obtain ⟨hw, hr⟩ := hv.iterate hp henv hrun
    refine ⟨hw, ?_⟩
    cases r with
    | error e => exact hr
    | ok e =>
      obtain ⟨hallowed, hvisits⟩ := hr
      refine ⟨?_, fun hpauses => ⟨ground, hvisits hpauses⟩⟩
      rintro label v heq
      rw [heq] at hallowed
      exact hallowed
  cases h with
  -- before the first resumption, the root of the code has not been entered
  | @fresh _ _ _ s _ _ hstarted hw hnew hchange hcontext =>
    simp only [hstarted, Bool.false_eq_true, if_false, start, hcontext] at hrun
    obtain ⟨s', hready⟩ := ready_new (s := s) hp hw hnew hchange
    obtain ⟨hk, hc⟩ := hready.enter
    rw [show (terms p _).mode = p.kind from rfl] at hk hc
    split at hrun
    · rename_i c₀ w₂ henter
      exact hend (.start hw hnew rfl hchange henter) hrun
    · rename_i e w₂ henter
      rw [henter] at hk hc
      cases hrun
      exact ⟨hk.sound, hc⟩
  | visiting hstarted hvisits =>
    simp only [hstarted, if_true] at hrun
    exact hend hvisits hrun

/-- A resumption does not break down and leaves the machine settled. -/
theorem Settled.resume (henv : env.Tame) {m' : InterpretedMachine} {fuel : Nat}
    {res : Except RunError Status} (h : Settled p m w)
    (hrun : m.resume env fuel w = some ((res, m'), w')) :
    Settled p m' w' ∧ Orderly (fun _ => True) res := by
  unfold InterpretedMachine.resume at hrun
  split at hrun
  · cases hrun
    exact ⟨h, rfl⟩
  · rename_i hcompleted
    obtain ⟨⟨r, w₁⟩, hrun, heq⟩ := Option.map_eq_some_iff.1 hrun
    rw [h.kind, h.code] at hrun
    obtain ⟨hw, hr⟩ := (h.stands (Bool.eq_false_iff.2 hcompleted)).run hp henv hrun
    match r, hr with
    | .error e, he =>
      cases heq
      exact ⟨⟨h.kind, h.code, hw, nofun⟩, he⟩
    | .ok (.suspended, c₁), hc =>
      cases heq
      refine ⟨⟨h.kind, h.code, hw, fun _ => ?_⟩, trivial⟩
      obtain ⟨ground, hvisits⟩ := hc.2 rfl
      exact .visiting rfl hvisits
    | .ok (.yielded, c₁), hc =>
      cases heq
      refine ⟨⟨h.kind, h.code, hw, fun _ => ?_⟩, trivial⟩
      obtain ⟨ground, hvisits⟩ := hc.2 rfl
      exact .visiting rfl hvisits
    | .ok (.finished v, c₁), hc =>
      cases heq
      exact ⟨⟨h.kind, h.code, hw, nofun⟩, trivial⟩
    -- jumps do not leave the code of a lambda
    | .ok (.escaped label v, c₁), hc => exact absurd rfl (hc.1 label v)

theorem Lives.settled (h : Lives p limit m w) : Settled p m w := by
  induction h with
  | @new args w w' m hw hnew =>
    obtain ⟨sc, hm, rfl, -⟩ := new_eq_ok hnew
    have hk := hw.newScope sc
    refine ⟨by rw [hm], by rw [hm], hk.sound, fun _ => ?_⟩
    exact .fresh (s := none) (by rw [hm]) hw hnew (fun h => .refl h) (by rw [hm])
  | resume hm henv hrun ih => exact (ih.resume hp henv hrun).1
  | @change w w' m s hm hchange ih =>
    have hk := hchange ih.sound
    refine ⟨ih.kind, ih.code, hk.sound, fun hopen => ?_⟩
    cases ih.stands hopen with
    | fresh hstarted hw hnew hbefore hcontext =>
      refine .fresh (s := s) hstarted hw hnew (fun h => (hbefore h).trans hk) ?_
      simp only [hcontext]
    | visiting hstarted hvisits => exact .visiting hstarted (.move hvisits (.change fun _ => hk))

end

/-- Whatever the arguments, a tame host and the world from outside do, the stacks of an interpreted
machine fit each other in every context its runs go through, no move touches a result below the base
of the top frame, and no resumption fails on the machine's own bookkeeping. -/
theorem stacks_consistent {l : Lambda} {resolve : Expr.Resolver} {p : Prepared}
    (hp : l.prepare resolve = .ok p) :
    (∀ (ground : Chain) (c : Context) (w : World σ), Visits p ground c w →
      Consistent ground c ∧
        ∀ c' w', Moves p.kind c w c' w' → c.lowerResults <:+ c'.results) ∧
    ∀ (limit : Option Nat) (m : InterpretedMachine) (w : World σ), Lives p limit m w →
      ∀ (env : Env σ), env.Tame → ∀ fuel e m' w',
        m.resume env fuel w = some ((.error e, m'), w') →
          (∀ why, e ≠ .invalidTransition why) ∧ (∀ name, e ≠ .unboundVariable name) ∧
            (∀ why, e ≠ .cannotSuspend why) ∧ ∀ why, e ≠ .build why := by
  refine ⟨fun ground c w hv => ⟨hv.consistent hp, fun c' w' hmove => hmove.lowerResults hp hv⟩, ?_⟩
  intro limit m w hm env henv fuel e m' w' hrun
  have he : e.isBreakdown = false := ((hm.settled hp).resume hp henv hrun).2
  refine ⟨?_, ?_, ?_, ?_⟩
  all_goals
    rintro x rfl
    cases he

/-- A machine that waits inside two protected bodies has three frames, which fit the other stacks.
When the task fails, the machine ends with what the task threw. -/
theorem guardedWait_stacks_consistent : ∃ p m w m₁ w₁ ground e m₂ w₂,
    Lambda.guardedWait.prepare .tasks = .ok p ∧
    InterpretedMachine.new p none [.task 0] World.pending = .ok (m, w) ∧
    m.resume .bare 64 w = some ((.ok .suspended, m₁), w₁) ∧
    m₁.context.frames.length = 3 ∧ Consistent ground m₁.context ∧
    m₁.resume .bare 64 w₁.failing = some ((.error e, m₂), w₂) ∧
    (∀ why, e ≠ .invalidTransition why) ∧ (∀ name, e ≠ .unboundVariable name) ∧
      (∀ why, e ≠ .cannotSuspend why) ∧ ∀ why, e ≠ .build why := by
  have hrun : ((Lambda.guardedWait.prepare .tasks).toOption.bind fun p =>
      (InterpretedMachine.new p none [.task 0] World.pending).toOption.bind fun (m, w) =>
        (m.resume Env.bare 64 w).bind fun ((r, m₁), w₁) =>
          (m₁.resume Env.bare 64 w₁.failing).map fun ((r₁, _), _) =>
            (r.toOption, m₁.started, m₁.completed, m₁.context.frames.length, r₁.toOption)) =
      some (some .suspended, true, false, 3, none) := by
    cbv
  obtain ⟨p, hp, hrun⟩ := bind_toOption_eq_some hrun
  obtain ⟨⟨m, w⟩, hnew, hrun⟩ := bind_toOption_eq_some hrun
  obtain ⟨⟨⟨r, m₁⟩, w₁⟩, hfirst, hrun⟩ := Option.bind_eq_some_iff.1 hrun
  obtain ⟨⟨⟨r₁, m₂⟩, w₂⟩, hsecond, heq⟩ := Option.map_eq_some_iff.1 hrun
  simp only [Prod.mk.injEq] at heq
  obtain ⟨hr, hstarted, hcompleted, hframes, hr₁⟩ := heq
  obtain rfl := eq_ok_of_toOption hr
  obtain ⟨e, rfl⟩ := eq_error_of_toOption hr₁
  have hlives : Lives p none m₁ w₁ := .resume (.new (.of_empty rfl) hnew) Env.bare_tame hfirst
  obtain ⟨hcontexts, hresumes⟩ := @stacks_consistent Unit _ _ _ hp
  cases (hlives.settled hp).stands hcompleted with
  | fresh hfresh =>
    rw [hstarted] at hfresh
    cases hfresh
  | @visiting ground _ hvisits =>
    refine ⟨p, m, w, m₁, w₁, ground, e, m₂, w₂, hp, hnew, hfirst, hframes,
      (hcontexts ground _ _ hvisits).1, hsecond, ?_⟩
    refine hresumes none m₁ w₁.failing ?_ .bare Env.bare_tame 64 e m₂ w₂ hsecond
    exact .change (s := m₁.context.suspension) hlives fun hw => hw.keeps rfl fun _ _ hi => hi

end InterpretedMachine

end Coroutine
