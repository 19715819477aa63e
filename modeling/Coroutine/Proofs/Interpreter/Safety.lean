import Mathlib
import Coroutine.Proofs.Host.Safe

/-!
# Sound code runs safely

One step of the interpreter keeps its context sound and does not break down: `step_safe`, with one
lemma for every way in which a frame goes on. A run stops where code of its kind may suspend, and
its context is then sound as well: `iterate_safe`. Hence a run of sound code that does not suspend
ends with a value, with an exception, or with a jump to a label it may escape to: `evaluate_safe`.
-/

namespace Coroutine

variable {σ : Type} {T : Terms} {w : World σ} {t : Transfer} {w' : World σ} {vars : List Var}
  {slot : Nat} {p : Phase}

/-! ## Contexts -/

/-- The frames are sound, and the transfer in flight arrives. -/
structure Context.Sound (T : Terms) (w : World σ) (c : Context) : Prop where
  stack : Stack T w c.frames c.scopes
  control : ∀ t ∈ c.control, t.Arrives T.escapes c.frames

/-- Whether a run may stop that way: with a value, with a jump to an allowed label, or where lambdas
of its kind suspend. -/
def Halt.Allowed (T : Terms) : Halt → Prop
  | .finished _ => True
  | .escaped label _ => T.escapes label
  | .suspended => T.mode = .async
  | .yielded => T.mode = .generator

/-- Whether a run that stopped that way can be resumed. -/
def Halt.pauses : Halt → Bool
  | .suspended | .yielded => true
  | .finished _ | .escaped .. => false

/-- A step leads to a sound context, or to an end; a context that can be resumed is sound. -/
def Progress.Sound (T : Terms) : Progress → World σ → Prop
  | .running c, w => c.Sound T w
  | .halted h c, w => h.Allowed T ∧ (h.pauses = true → c.Sound T w)

/-- The phase of the top frame says nothing about the chain. -/
@[simp] theorem Context.scopes_setPhase (c : Context) (p : Phase) :
    (c.setPhase p).scopes = c.scopes := by
  unfold setPhase
  split <;> rfl

/-- The phase of the top frame says nothing about a pending transfer. -/
@[simp] theorem Context.control_setPhase (c : Context) (p : Phase) :
    (c.setPhase p).control = c.control := by
  unfold setPhase
  split <;> rfl

/-- Only the top frame changes its phase. -/
theorem Context.frames_setPhase {c : Context} {f : Frame} {fs : List Frame}
    (h : c.frames = f :: fs) (p : Phase) : (c.setPhase p).frames = { f with phase := p } :: fs := by
  simp [setPhase, h]

/-- A frame goes, and the chain is again the one it saved or the one below its scopes. -/
theorem Context.popFrame_eq {c : Context} {f : Frame} {fs : List Frame} (h : c.frames = f :: fs) :
    c.popFrame.frames = fs ∧ c.popFrame.scopes = f.saved.getD (c.scopes.truncate f.depth) ∧
      c.popFrame.control = c.control := by
  simp [popFrame, h]

/-- A context without a transfer in flight. -/
theorem Context.Sound.calm {c : Context} (hstack : Stack T w c.frames c.scopes)
    (hcontrol : c.control = none) : c.Sound T w :=
  ⟨hstack, by simp [hcontrol]⟩

/-- A transfer that will arrive is sound on any sound stack. -/
theorem Context.Sound.transfer {c : Context} (hstack : Stack T w c.frames c.scopes)
    (ht : t.Arrives T.escapes c.frames) : (c.transfer t).Sound T w := by
  refine ⟨hstack, fun t' ht' => ?_⟩
  cases ht'
  exact ht

/-! ## Starting a node -/

/-- A node can be started in a context. -/
structure Ready (T : Terms) (w : World σ) (c : Context) (code : Code) (id : Nat)
    (s : Setting) : Prop where
  world : w.Sound
  stack : Stack T w c.frames c.scopes
  control : c.control = none
  whole : ∃ t, code.Sound T.escapes t
  suited : code.Suited id s
  waits : s.waits = true → code.Pauses T.mode
  binds : w.Binds c.scopes s
  handled : s.handling = true → Handled c.frames code id
  hangs : id = Code.root ∨ ∃ g ∈ c.frames.head?, code = g.code ∧ code.Under id g.node ∧
    g.phase ≠ .inClosure

namespace Ready

variable {c : Context} {code : Code} {id : Nat} {s : Setting} (h : Ready T w c code id s)
include h

/-- The frame of a compound node. -/
theorem frame {op : Op} {χ : Chain} (hk : w.Keeps w')
    (runs : Frame.Runs T w' c.frames
      ⟨code, id, op.firstPhase, c.results.length, c.scopes.length, none⟩ s c.scopes χ) :
    Context.Sound T w' { c with
      scopes := χ
      frames := ⟨code, id, op.firstPhase, c.results.length, c.scopes.length, none⟩ :: c.frames } :=
  .calm (.push (h.stack.grows hk.grows)
    ⟨h.whole, h.suited, h.binds.grows hk.grows, rfl, h.waits, h.handled, h.hangs⟩ runs) h.control

/-- A block starts with a scope of its own, if it declares variables. -/
theorem enter_block (hop : (code.node id).op = .block vars) :
    (enter T.mode code id c).Safe w fun c' w' => c'.Sound T w' ∧ c'.control = none ∧
      ∃ f, c'.frames = f :: c.frames ∧ f.code = code ∧ f.node = id := by
  simp only [enter, hop]
  split
  · rename_i hvars
    have hbinds : w.Binds c.scopes (s.declaring vars) := by
      rw [List.isEmpty_iff.1 hvars]
      exact fun i hi => h.binds i (hi.resolve_left (by simp))
    refine .pure h.world ⟨?_, h.control, _, rfl, rfl, rfl⟩
    exact h.frame (.refl h.world) (.block rfl hop (.inl rfl) (.inl ⟨hvars, rfl⟩) hbinds)
  · rename_i hvars
    refine .act (h.world.newScope _) fun hk => .pure hk.sound ⟨?_, h.control, _, rfl, rfl, rfl⟩
    refine h.frame hk (.block rfl hop (.inl rfl) (.inr ⟨Bool.eq_false_iff.2 hvars, _, rfl⟩)
      (h.binds.declaring fun x hx => ?_))
    rw [Scope.contains_ofVars]
    exact decide_eq_true (List.mem_map_of_mem hx)

/-- Starting a node that is suited to the context. -/
theorem enter :
    (Coroutine.enter T.mode code id c).Safe w fun c' w' => c'.Sound T w' := by
  have hsuits := h.suited.suits
  -- the frame of a node whose children are all operands
  have happlied {op : Op} (hop : (code.node id).op = op) (hphase : op.firstPhase = .operands 0)
      (happ : op.isApplied = true) :
      Frame.Runs T w c.frames
        ⟨code, id, op.firstPhase, c.results.length, c.scopes.length, none⟩ s c.scopes c.scopes :=
    .operands rfl (by rw [Frame.op, hop, happ]) hphase
  cases hop : (code.node id).op with
  | constant v =>
    simp only [Coroutine.enter, hop]
    exact .pure h.world (.calm h.stack h.control)
  | var x =>
    rw [hop] at hsuits
    obtain ⟨v, hv⟩ := Option.isSome_iff_exists.1 (World.isSome_lookup h.binds hsuits)
    simp only [Coroutine.enter, hop]
    refine .look h.world ?_
    rw [hv]
    exact .pure h.world (.calm h.stack h.control)
  | lambda t =>
    simp only [Coroutine.enter, hop]
    exact .act (h.world.newClosure (h.suited.body hop) h.binds) fun hk =>
      .pure hk.sound (.calm (h.stack.grows hk.grows) h.control)
  | rethrow =>
    rw [hop] at hsuits
    -- a rethrow suits its setting inside a handler only
    obtain ⟨F, below, handler, e, hby⟩ := h.handled hsuits
    simp only [Coroutine.enter, hop, hby.active]
    exact .pure h.world (.transfer h.stack trivial)
  | yieldBreak =>
    rw [hop] at hsuits
    have hmode : T.mode = .generator := by
      have hpauses := h.waits hsuits id
      rwa [hop] at hpauses
    simp only [Coroutine.enter, hop, hmode, if_true]
    exact .pure h.world (.transfer h.stack trivial)
  | await binder configure =>
    simp only [Coroutine.enter, hop]
    exact .pure h.world (h.frame (.refl h.world) (.await rfl hop (.inl rfl)))
  | yieldReturn =>
    simp only [Coroutine.enter, hop]
    exact .pure h.world (h.frame (.refl h.world) (.yield rfl hop (.inl rfl)))
  | block vars => exact (h.enter_block hop).mono fun _ _ hc => hc.1
  | binary b =>
    simp only [Coroutine.enter, hop]
    refine .pure h.world (h.frame (.refl h.world) ?_)
    by_cases hb : b.shortCircuits = true
    · exact .shortCircuit rfl hop (.inl (by simp [Op.firstPhase, hb]))
    · exact happlied hop (by simp [Op.firstPhase, hb]) rfl
  | condition hasElse =>
    simp only [Coroutine.enter, hop]
    exact .pure h.world (h.frame (.refl h.world) (.condition rfl hop (.inl rfl)))
  | switch cases fallback =>
    simp only [Coroutine.enter, hop]
    exact .pure h.world (h.frame (.refl h.world) (.switch rfl hop (.inl rfl)))
  | loop =>
    simp only [Coroutine.enter, hop]
    exact .pure h.world (h.frame (.refl h.world) (.loop rfl hop (.inl rfl)))
  | tryCatch handlers cleanup =>
    simp only [Coroutine.enter, hop]
    exact .pure h.world (h.frame (.refl h.world) (.guarded rfl hop (.inl rfl)))
  | assign | unary | call | invoke | goto | label | throw =>
    simp only [Coroutine.enter, hop]
    exact .pure h.world (h.frame (.refl h.world) (happlied hop rfl rfl))

end Ready

/-! ## The top frame -/

/-- A child that is listed can be entered. -/
theorem child_eq_ok {f : Frame} {child : Nat} (h : f.children[slot]? = some child) :
    f.code.child f.node slot = .ok child := by
  have h : (f.code.node f.node).children[slot]? = some child := h
  simp only [Code.child, h]

/-- The child in a slot is started if there is one that can be. -/
theorem enterChild_safe {c : Context} {f : Frame} {s : Setting} (hslot : slot < f.children.length)
    (hready : ∀ child, f.children[slot]? = some child → Ready T w c f.code child s) :
    (enterChild T.mode f slot c).Safe w fun c' w' => c'.Sound T w' := by
  have hchild := List.getElem?_eq_getElem hslot
  exact .ofBuild (child_eq_ok hchild) (hready _ hchild).enter

/-- A context without a transfer in flight, with its top frame. -/
structure Top (T : Terms) (w : World σ) (c : Context) (f : Frame) (fs : List Frame)
    (s : Setting) (χ : Chain) : Prop where
  world : w.Sound
  frames : c.frames = f :: fs
  control : c.control = none
  below : Stack T w fs χ
  sound : f.Sound T w fs s χ

/-- A frame that fits its node goes on. -/
theorem stepFrame_eq {env : Env σ} {mode : LambdaKind} {f : Frame} {c : Context}
    (h : f.isMatched = true) : stepFrame env mode f c = advance env mode f c := if_pos h

/-- A frame that runs is in a phase of its node. -/
theorem Frame.Runs.isMatched {T : Terms} {w : World σ} {f : Frame} {fs : List Frame} {s : Setting}
    {χ χ' : Chain} (h : f.Runs T w fs s χ χ') : f.isMatched = true := by
  cases h with
  | operands _ _ phase | closure _ _ phase => rw [Frame.isMatched, phase]
  | block _ _ phase | loop _ _ phase => rcases phase with phase | phase <;> rw [Frame.isMatched, phase]
  | shortCircuit _ _ phase | condition _ _ phase | yield _ _ phase =>
    rcases phase with phase | phase | phase <;> rw [Frame.isMatched, phase]
  | handler _ op phase | cleanup _ op phase => simp only [Frame.isMatched, phase, op]
  | guarded _ op phase => rcases phase with phase | phase <;> simp only [Frame.isMatched, phase, op]
  | await _ op phase =>
    rcases phase with phase | phase | ⟨_, phase⟩ <;> simp only [Frame.isMatched, phase, op]
  | switch _ op phase =>
    rcases phase with phase | ⟨_, _, phase⟩ | ⟨_, _, -, phase⟩ | phase <;>
      simp only [Frame.isMatched, phase, op]

/-- After a protected body or a handler, the cleanup runs if one is pending. -/
theorem advance_guarded {env : Env σ} {mode : LambdaKind} {f : Frame} {c : Context}
    (hphase : f.phase.isGuarded = true) :
    advance env mode f c =
      match f.pendingCleanup? with
      | some slot => .running <$> startCleanup mode f slot (.value c.result) c.pop
      | none => pure (.running (c.pop.complete c.result)) := by
  cases hp : f.phase with
  | inBody | inHandler => cases hc : f.pendingCleanup? <;> simp only [advance, hp, hc]
  | _ =>
    rw [hp] at hphase
    cases hphase

namespace Top

variable {c : Context} {f : Frame} {fs : List Frame} {s s' : Setting} {χ : Chain}
  (h : Top T w c f fs s χ)
include h

/-- A world that grows keeps the top frame. -/
theorem grows (hk : w.Keeps w') : Top T w' c f fs s χ :=
  ⟨hk.sound, h.frames, h.control, h.below.grows hk.grows, h.sound.grows hk.grows⟩

/-- Taking a result keeps the top frame. -/
theorem pop : Top T w c.pop f fs s χ :=
  ⟨h.world, h.frames, h.control, h.below, h.sound⟩

/-- The top frame and those below make up a sound stack. -/
theorem stack (runs : f.Runs T w fs s χ c.scopes) : Stack T w c.frames c.scopes := by
  rw [h.frames]
  exact .push h.below h.sound runs

/-- A frame that is done leaves its value to the frame below. -/
theorem complete (runs : f.Runs T w fs s χ c.scopes) (v : Value) : (c.complete v).Sound T w := by
  obtain ⟨hframes, hscopes, hcontrol⟩ := Context.popFrame_eq h.frames
  refine .calm ?_ (hcontrol.trans h.control)
  change Stack T w c.popFrame.frames c.popFrame.scopes
  rw [hframes, hscopes, runs.pop h.sound.depth]
  exact h.below

/-- A transfer goes on below the top frame. -/
theorem leave (runs : f.Runs T w fs s χ c.scopes) (ht : t.Arrives T.escapes fs) :
    (c.popFrame.transfer t).Sound T w := by
  obtain ⟨hframes, hscopes, -⟩ := Context.popFrame_eq h.frames
  refine .transfer ?_ (hframes ▸ ht)
  rw [hframes, hscopes, runs.pop h.sound.depth]
  exact h.below

/-- Finishing the top frame with an outcome. -/
theorem finish (runs : f.Runs T w fs s χ c.scopes) (r : Outcome) : (c.finish r).Sound T w := by
  cases r with
  | ok v => exact h.complete runs v
  | error e => exact .transfer (h.stack runs) trivial

/-- The top frame goes on to another phase. -/
theorem setPhase (runs : Frame.Runs T w fs { f with phase := p } s χ c.scopes) :
    (c.setPhase p).Sound T w := by
  refine .calm ?_ ((c.control_setPhase p).trans h.control)
  rw [Context.frames_setPhase h.frames, c.scopes_setPhase]
  exact .push h.below (h.sound.setPhase p) runs

/-- The child in a slot can be started once the top frame is in its next phase. -/
theorem ready {child : Nat} (runs : Frame.Runs T w fs { f with phase := p } s χ c.scopes)
    (hp : p ≠ .inClosure) (hchild : f.children[slot]? = some child)
    (hgives : f.op.Gives s slot s') (hwaits : s'.waits = s.waits) (hbinds : w.Binds c.scopes s')
    (hhandled : s'.handling = true → Handled ({ f with phase := p } :: fs) f.code child) :
    Ready T w (c.setPhase p) f.code child s' := by
  have hframes := Context.frames_setPhase h.frames p
  obtain ⟨t, ht⟩ := h.sound.code
  refine ⟨h.world, ?_, (c.control_setPhase p).trans h.control, ⟨t, ht⟩,
    h.sound.suited.child hchild hgives, fun hs => h.sound.waits (hwaits ▸ hs), ?_, ?_, ?_⟩
  · rw [hframes, c.scopes_setPhase]
    exact .push h.below (h.sound.setPhase p) runs
  · rw [c.scopes_setPhase]
    exact hbinds
  · rw [hframes]
    exact hhandled
  · right
    rw [hframes]
    exact ⟨_, rfl, rfl, ht.parent hchild, hp⟩

/-- A handler around the top frame is around a child that is no handler itself. -/
theorem handled_child {child : Nat} (hp : p.exception? = none) (hpasses : f.op.Passes slot)
    (hchild : f.children[slot]? = some child) (hs : s.handling = true) :
    Handled ({ f with phase := p } :: fs) f.code child := by
  obtain ⟨F, below, handler, e, hby⟩ := h.sound.handled hs
  exact ⟨F, below, handler, e, .inside (g := { f with phase := p }) hby hp hpasses hchild⟩

/-- A child with the same setting and chain as its parent. -/
theorem ready_same {child : Nat} (runs : Frame.Runs T w fs { f with phase := p } s χ c.scopes)
    (hscopes : c.scopes = χ) (hp : p.isPlain = true) (hpasses : f.op.Passes slot)
    (hchild : f.children[slot]? = some child) (hgives : f.op.Gives s slot s) :
    Ready T w (c.setPhase p) f.code child s := by
  obtain ⟨hexception, hcall⟩ := Phase.plain_of_isPlain hp
  refine h.ready runs hcall hchild hgives rfl ?_ (h.handled_child hexception hpasses hchild)
  rw [hscopes]
  exact h.sound.binds

/-- A child is entered from a frame that is in its next phase. -/
theorem enterChild (runs : Frame.Runs T w fs { f with phase := p } s χ c.scopes)
    (hscopes : c.scopes = χ) (hp : p.isPlain = true) (hpasses : f.op.Passes slot)
    (hslot : slot < f.children.length) (hgives : f.op.Gives s slot s) :
    (Coroutine.enterChild T.mode f slot (c.setPhase p)).Safe w fun c' w' => c'.Sound T w' := by
  exact enterChild_safe hslot fun child hchild =>
    h.ready_same runs hscopes hp hpasses hchild hgives

/-! ### Applying a node -/

/-- A closure's body starts in the scopes it captured and one for its parameters. -/
theorem invoke (hop : f.op = .invoke) (hscopes : c.scopes = χ) (runs : f.Runs T w fs s χ c.scopes)
    (args : List Value) : (Coroutine.invoke T.mode c args).Safe w fun c' w' => c'.Sound T w' := by
  unfold Coroutine.invoke
  split
  · rename_i ref args
    refine .look h.world ?_
    obtain ⟨s', hcode, hbinds⟩ := h.world.closure_sound ref.id
    generalize w.closure ref.id = cl at hcode hbinds ⊢
    obtain ⟨template, captured⟩ := cl
    simp only
    split
    · exact .throw h.world rfl
    · rename_i hlength
      refine .act (h.world.newScope _) fun hk => ?_
      -- the parameters are bound by the new scope, and all else where the closure was made
      have hbinds' : (w.newScope (.ofArgs template.params args)).2.Binds _
          (s'.entering template.params) := hbinds.declaring fun x hx => by
        rw [Scope.contains_ofArgs (not_ne_iff.1 hlength)]
        exact decide_eq_true (List.mem_map_of_mem hx)
      have h := h.grows hk
      have hsound : Frame.Sound T _ fs { f with phase := .inClosure, saved := some c.scopes } s χ :=
        ⟨h.sound.code, h.sound.suited, h.sound.binds, h.sound.depth, h.sound.waits,
          h.sound.handled, h.sound.hangs⟩
      have hready : Ready T _
          { c with
            scopes := w.scopes.size :: captured
            frames := { f with phase := .inClosure, saved := some c.scopes } :: fs }
          template.code Code.root (s'.entering template.params) :=
        ⟨h.world, .push h.below hsound (.closure (hscopes ▸ rfl) hop rfl), h.control,
          ⟨_, hcode.mono fun _ hl => hl.elim⟩, hcode.root, nofun, hbinds', nofun, .inl rfl⟩
      rw [h.frames]
      exact hready.enter
  · exact .act (h.world.raise _) fun hk =>
      .pure hk.sound (.transfer ((h.stack runs).grows hk.grows) trivial)

/-- Applying a node to the values of its children. -/
theorem apply {env : Env σ} (henv : env.Tame) {next : Nat} (hsaved : f.saved = none)
    (happlied : f.op.isApplied = true) (hscopes : c.scopes = χ)
    (hphase : f.phase = .operands next) (args : List Value) :
    (Coroutine.apply env T.mode f args c).Safe w fun c' w' => c'.Sound T w' := by
  have runs : f.Runs T w fs s χ c.scopes := hscopes ▸ .operands hsaved happlied hphase
  -- a fault is thrown into a stack that is still sound
  have hattempt {e : Effect σ Value} (he : e.Keeps) :
      ((do return c.finish (← Run.attempt e)) : Run σ Context).Safe w
        fun c' w' => c'.Sound T w' :=
    .attempt he h.world fun r w' hk =>
      .pure hk.sound ((h.grows hk).finish (runs.grows hk.grows) r)
  cases hop : f.op with
  | assign x =>
    have hbound : s.bound x.id := by
      have hsuits := h.sound.suited.suits
      rw [show (f.code.node f.node).op = .assign x from hop] at hsuits
      exact hsuits
    simp only [Coroutine.apply, hop]
    refine .act (h.world.assign _ _ _) fun hk => ?_
    rw [World.assign_fst (hscopes ▸ h.sound.binds) hbound]
    exact .pure hk.sound ((h.grows hk).complete (runs.grows hk.grows) _)
  | binary b =>
    simp only [Coroutine.apply, hop]
    exact hattempt (Effect.Opaque.ofFault _).keeps
  | unary b =>
    simp only [Coroutine.apply, hop]
    exact hattempt (Effect.Opaque.ofFault _).keeps
  | call name =>
    simp only [Coroutine.apply, hop]
    exact hattempt (henv.call name args)
  | throw =>
    simp only [Coroutine.apply, hop]
    exact .act (h.world.asException _) fun hk =>
      .pure hk.sound (.transfer ((h.stack runs).grows hk.grows) trivial)
  | goto label hasValue r =>
    simp only [Coroutine.apply, hop]
    -- the route was found when the code was built
    obtain ⟨t, ht⟩ := h.sound.code
    refine .pure h.world (.transfer (h.stack runs) ?_)
    have hstack := h.stack runs
    rw [h.frames] at hstack ⊢
    exact hstack.delivers (by rw [hphase]; nofun) (ht.routes hop)
  | label l =>
    simp only [Coroutine.apply, hop]
    exact .pure h.world (h.complete runs _)
  | invoke =>
    simp only [Coroutine.apply, hop]
    exact h.invoke hop hscopes runs args
  | constant | var | lambda | block | condition | switch | loop | tryCatch | rethrow | await
  | yieldReturn | yieldBreak =>
    rw [hop] at happlied
    cases happlied

/-! ### Cleanups and handlers -/

section

variable (runs : f.Runs T w fs s χ c.scopes)
include runs

/-- Dropping what the children left brings back the chain of the frame. -/
theorem reset (hsaved : f.saved = none) :
    Top T w (c.reset f) f fs s χ ∧ (c.reset f).scopes = χ := by
  refine ⟨⟨h.world, h.frames, h.control, h.below, h.sound⟩, ?_⟩
  have hpop := runs.pop h.sound.depth
  rw [hsaved, Option.getD_none] at hpop
  exact hpop

/-- The cleanup of a try runs before what is deferred goes on. -/
theorem startCleanup {handlers : List HandlerSlots} (hop : f.op = .tryCatch handlers (some slot))
    (hsaved : f.saved = none) {deferred : Completion} (hdeferred : deferred.Arrives T.escapes fs) :
    (Coroutine.startCleanup T.mode f slot deferred c).Safe w fun c' w' => c'.Sound T w' := by
  obtain ⟨h, hscopes⟩ := h.reset runs hsaved
  have hsuits := h.sound.suited.suits
  rw [show (f.code.node f.node).op = _ from hop] at hsuits
  refine h.enterChild (hscopes ▸ .cleanup hsaved hop rfl hdeferred) hscopes rfl ?_ ?_ ?_
  · rw [hop]
    exact .inr rfl
  · exact hsuits.2.2 slot rfl
  · rw [hop]
    exact .inl ⟨rfl, .inr rfl⟩

/-- A handler runs in a scope with the exception, if it names it. -/
theorem startHandler {handlers : List HandlerSlots} {cleanup : Option Nat}
    {handler : HandlerSlots} {e : Exception} (hop : f.op = .tryCatch handlers cleanup)
    (hfind : handlers.find? (·.filter.accepts e.toFault) = some handler) (hsaved : f.saved = none) :
    (Coroutine.startHandler T.mode f handler e c).Safe w fun c' w' => c'.Sound T w' := by
  have hmem := List.mem_of_find?_eq_some hfind
  obtain ⟨h, hscopes⟩ := h.reset runs hsaved
  have hsuits := h.sound.suited.suits
  rw [show (f.code.node f.node).op = _ from hop] at hsuits
  have hslot : handler.body < f.children.length := hsuits.2.1 handler hmem
  have hgives : f.op.Gives s handler.body (s.catching handler.var) := by
    rw [hop]
    exact .inr ⟨handler, hmem, rfl, rfl⟩
  have hhandled (child : Nat) (hchild : f.children[handler.body]? = some child) :
      Handled ({ f with phase := .inHandler e } :: fs) f.code child :=
    ⟨_, fs, handler, e, .here (F := { f with phase := .inHandler e }) hop hfind rfl hchild⟩
  have hruns (w' : World σ) (ext : Chain) :
      Frame.Runs T w' fs { f with phase := .inHandler e } s χ (ext ++ χ) :=
    .handler (f := { f with phase := .inHandler e }) hsaved hop rfl ext
  unfold Coroutine.startHandler
  cases hvar : handler.var with
  | none =>
    rw [hvar] at hgives
    refine enterChild_safe (s := s.catching none) hslot fun child hchild => ?_
    refine h.ready ?_ nofun hchild hgives rfl ?_ fun _ => hhandled child hchild
    · rw [hscopes]
      exact hruns w []
    · rw [hscopes]
      exact fun i hi => h.sound.binds i (hi.resolve_left (by simp))
  | some x =>
    rw [hvar] at hgives
    refine .act (h.world.newScope _) fun hk => ?_
    have hbinds : (w.newScope (Scope.declare {} x.word (.exception e))).2.Binds _
        (s.catching (some x)) := h.sound.binds.declaring fun y hy => by
      rw [Scope.contains_declare, List.mem_singleton.1 hy, decide_eq_true rfl]
      rfl
    refine enterChild_safe (s := s.catching (some x)) hslot fun child hchild => ?_
    have h := h.grows hk
    -- the new scope lies on top of the chain of the frame
    have htop : Top T _ { c.reset f with scopes := w.scopes.size :: (c.reset f).scopes } f fs s χ :=
      ⟨h.world, h.frames, h.control, h.below, h.sound⟩
    have hready := htop.ready (p := .inHandler e) ?_ nofun hchild hgives rfl
      (by rw [hscopes]; exact hbinds) fun _ => hhandled child hchild
    · simpa [Context.setPhase, h.frames, World.newScope] using hready
    · rw [hscopes]
      exact hruns _ [w.scopes.size]

/-- A transfer passes the top frame. -/
theorem leave_safe (ht : t.Arrives T.escapes fs) :
    (Coroutine.leave T.mode f t c).Safe w fun c' w' => c'.Sound T w' := by
  unfold Coroutine.leave
  split
  · rename_i slot hslot
    obtain ⟨handlers, hop, hphase⟩ := Frame.eq_of_pendingCleanup? hslot
    exact h.startCleanup runs hop (runs.saved_of_isGuarded hphase) ht
  · exact .pure h.world (h.leave runs ht)

/-! ### Jumps -/

/-- A jump arrives at a loop: it ends, or starts its body again. -/
theorem land_loop (hop : f.op = .loop) (j : Jump) (path : List Nat) {kind : RouteKind}
    (hkind : kind = .toBreak ∨ kind = .toContinue) :
    (land T.mode f j path kind c).Safe w fun c' w' => c'.Sound T w' := by
  obtain ⟨hsaved, hscopes, hphase⟩ := runs.loop_phase hop
  obtain ⟨hreset, hchain⟩ := h.reset runs hsaved
  have hcontinue : ((c.reset f).setPhase .iteration).Sound T w :=
    hreset.setPhase (hchain ▸ .loop hsaved hop (.inl rfl))
  rcases hphase with hphase | hphase <;> rcases hkind with rfl | rfl
  · simp only [land, hphase]
    exact .pure h.world (h.complete runs _)
  · simp only [land, hphase]
    exact .pure h.world hcontinue
  · simp only [land, hphase]
    exact .pure h.world (h.complete runs _)
  · simp only [land, hphase]
    exact .pure h.world hcontinue

/-- A jump arrives at a block: it goes on after the label, or down into the next block. -/
theorem land_block (hop : f.op = .block vars) {j : Jump} (hj : f.code = j.code)
    {path : List Nat} {target : Nat} (hleads : f.code.Leads f.node path target)
    (htarget : (f.code.node target).op = .label j.label) :
    (land T.mode f j path .toLabel c).Safe w fun c' w' => c'.Sound T w' := by
  obtain ⟨hsaved, hbinds, hscope, i, hphase⟩ := runs.block_phase hop
  -- the chain above the block is as long as the jump cuts it
  have htruncate : c.scopes.truncate (f.depth + if (!vars.isEmpty) = true then 1 else 0)
      = c.scopes := by
    rw [h.sound.depth]
    rcases hscope with ⟨hv, hχ⟩ | ⟨hv, t, hχ⟩
    · simp [hv, hχ, Chain.truncate_self]
    · simp [hv, hχ, Chain.truncate]
  have htop : Top T w { c with results := truncateResults c.results f.base } f fs s χ :=
    ⟨h.world, h.frames, h.control, h.below, h.sound⟩
  have hruns (p : Phase) (k : Nat) (hp : p = .statement k (!vars.isEmpty) ∨
      p = .statementDone k (!vars.isEmpty)) :
      Frame.Runs T w fs { f with phase := p } s χ c.scopes :=
    .block hsaved hop hp hscope hbinds
  cases hleads with
  | last hblock hchild =>
    rename_i slot
    have hgoal : (if slot + 1 < f.children.length then
          pure (({ c with results := truncateResults c.results f.base } : Context).setPhase
            (.statement (slot + 1) (!vars.isEmpty)))
        else pure (({ c with results := truncateResults c.results f.base } : Context).complete
          j.value) : Run σ Context).Safe w fun c' w' => c'.Sound T w' := by
      split
      · exact .pure h.world (htop.setPhase (hruns _ _ (.inl rfl)))
      · exact .pure h.world (htop.complete runs _)
    rcases hphase with hphase | hphase <;> simpa only [land, hphase, htruncate] using hgoal
  | down hblock hchild hrest =>
    rename_i b slot rest
    obtain ⟨first, rest, rfl⟩ : ∃ first rest', rest = first :: rest' := by
      cases hrest <;> exact ⟨_, _, rfl⟩
    have hready : Ready T w
        (({ c with results := truncateResults c.results f.base } : Context).setPhase
          (.statementDone slot (!vars.isEmpty))) f.code b (s.declaring vars) :=
      htop.ready (hruns _ slot (.inr rfl)) (by simp) hchild (by rw [hop]; rfl) rfl hbinds
        (htop.handled_child rfl (hop ▸ trivial) hchild)
    obtain ⟨bvars, hb⟩ := hrest.block
    have hgoal : (do
        let child ← Run.ofBuild (f.code.child f.node slot)
        let c ← Coroutine.enter T.mode f.code child
          (({ c with results := truncateResults c.results f.base } : Context).setPhase
            (.statementDone slot (!vars.isEmpty)))
        return c.transfer (.jump { j with route := .within child (first :: rest) .toLabel })
          : Run σ Context).Safe w fun c' w' => c'.Sound T w' := by
      refine .ofBuild (child_eq_ok hchild) ((hready.enter_block hb).bind fun c' w' hk hc' => ?_)
      refine .pure hk.sound ?_
      obtain ⟨hsound, -, g, hframes, hcode, hnode⟩ := hc'
      refine .transfer hsound.stack ?_
      rw [hframes]
      exact ⟨hcode.trans hj, .inl ⟨hnode, target, hcode ▸ hnode ▸ hrest, hcode ▸ htarget⟩⟩
    rcases hphase with hphase | hphase <;> simpa only [land, hphase, htruncate] using hgoal

/-- A jump lands in the frame that takes it. -/
theorem land_safe {j : Jump} (hj : f.code = j.code) {path : List Nat} {kind : RouteKind}
    (htakes : f.Takes j.label path kind) :
    (land T.mode f j path kind c).Safe w fun c' w' => c'.Sound T w' := by
  match kind, htakes with
  | .toBreak, hop => exact h.land_loop runs hop j path (.inl rfl)
  | .toContinue, hop => exact h.land_loop runs hop j path (.inr rfl)
  | .toLabel, ⟨target, hleads, htarget⟩ =>
    obtain ⟨vars, hop⟩ := hleads.block
    exact h.land_block runs hop hj hleads htarget

/-- The top frame takes a transfer, or lets it pass. -/
theorem unwind (ht : t.Arrives T.escapes (f :: fs)) :
    (Coroutine.unwind T.mode t c).Safe w (Progress.Sound T) := by
  simp only [Coroutine.unwind, h.frames]
  match t, ht with
  | .jump ⟨code, label, .escape, v⟩, ht => exact .map (h.leave_safe runs ht)
  | .jump ⟨_, label, .within a path kind, v⟩, ⟨rfl, .inl ⟨ha, htakes⟩⟩ =>
    simp only [ha, Code.same_self, and_self, if_true]
    exact .map (h.land_safe runs rfl htakes)
  | .jump ⟨code, label, .within a path kind, v⟩, ⟨_, .inr ⟨ha, _, hbelow⟩⟩ =>
    simp only [Ne.symm ha, false_and, if_false]
    exact .map (h.leave_safe runs hbelow)
  | .throw e, _ =>
    dsimp only
    cases hhandler : f.handlerFor? e with
    | none => exact .map (h.leave_safe runs (t := .throw e) trivial)
    | some handler =>
      unfold Frame.handlerFor? at hhandler
      split at hhandler
      · rename_i handlers cleanup hop hphase
        have hsaved := runs.saved_of_isGuarded (by rw [hphase]; rfl)
        exact .map (h.startHandler runs hop hhandler hsaved)
      · cases hhandler
  | .exit v, _ => exact .map (h.leave_safe runs (t := .exit v) trivial)

end

/-! ### Phases -/

/-- The operation of a frame suits its setting. -/
theorem suits {op : Op} (hop : f.op = op) : op.Suits s f.children.length := by
  have hsuits := h.sound.suited.suits
  rw [show (f.code.node f.node).op = op from hop] at hsuits
  exact hsuits

section

variable {env : Env σ}

/-- A block runs its statements in turn, in a scope of its own if it has variables. -/
theorem step_block {i : Nat} (hsaved : f.saved = none) (hop : f.op = .block vars)
    (hphase : f.phase = .statement i (!vars.isEmpty) ∨ f.phase = .statementDone i (!vars.isEmpty))
    (hscope : (vars.isEmpty = true ∧ c.scopes = χ) ∨
      (vars.isEmpty = false ∧ ∃ t, c.scopes = t :: χ))
    (hbinds : w.Binds c.scopes (s.declaring vars)) :
    (advance env T.mode f c).Safe w (Progress.Sound T) := by
  have runs : f.Runs T w fs s χ c.scopes := .block hsaved hop hphase hscope hbinds
  have hgives (slot : Nat) : f.op.Gives s slot (s.declaring vars) := hop ▸ rfl
  have hruns (p : Phase) (k : Nat) (hp : p = .statement k (!vars.isEmpty) ∨
      p = .statementDone k (!vars.isEmpty)) :
      Frame.Runs T w fs { f with phase := p } s χ c.scopes :=
    .block hsaved hop hp hscope hbinds
  rcases hphase with hphase | hphase
  · simp only [advance, hphase]
    split
    · exact .pure h.world (h.complete runs _)
    · rename_i child hchild
      exact .map (h.ready (hruns _ i (.inr rfl)) nofun hchild (hgives i) rfl hbinds
        (h.handled_child rfl (hop ▸ trivial) hchild)).enter
  · simp only [advance, hphase]
    split
    · exact .pure h.world (h.pop.setPhase (hruns _ _ (.inl rfl)))
    · exact .pure h.world (h.pop.complete runs _)

/-- The protected body or a handler has ended: the cleanup runs, or the try is done. -/
theorem step_guarded (runs : f.Runs T w fs s χ c.scopes) (hphase : f.phase.isGuarded = true) :
    (advance env T.mode f c).Safe w (Progress.Sound T) := by
  rw [advance_guarded hphase]
  split
  · rename_i slot hslot
    obtain ⟨handlers, hop, -⟩ := Frame.eq_of_pendingCleanup? hslot
    exact .map (h.pop.startCleanup runs hop (runs.saved_of_isGuarded hphase) trivial)
  · exact .pure h.world (h.pop.complete runs _)

section

variable (hscopes : c.scopes = χ) (hsaved : f.saved = none)
include hscopes hsaved

/-- Operands are evaluated in turn, and then the node is applied. -/
theorem step_operands (henv : env.Tame) {next : Nat} (happlied : f.op.isApplied = true)
    (hphase : f.phase = .operands next) : (advance env T.mode f c).Safe w (Progress.Sound T) := by
  have hgives (slot : Nat) : f.op.Gives s slot s := by
    cases hop : f.op <;> rw [hop] at happlied <;> first | rfl | cases happlied
  have hpasses : f.op.Passes next := by
    cases hop : f.op <;> rw [hop] at happlied <;> trivial
  simp only [advance, hphase]
  split
  · rename_i child hchild
    exact .map (h.ready_same (hscopes ▸ .operands hsaved happlied rfl) hscopes rfl hpasses hchild
      (hgives next)).enter
  · have htop : Top T w { c with results := truncateResults c.results f.base } f fs s χ :=
      ⟨h.world, h.frames, h.control, h.below, h.sound⟩
    exact .map (htop.apply henv hsaved happlied hscopes hphase _)

/-- The right operand is skipped or evaluated. -/
theorem step_shortCircuit {b : BinaryOp} (hop : f.op = .binary b)
    (hphase : f.phase = .left ∨ f.phase = .leftDone ∨ f.phase = .rightDone) :
    (advance env T.mode f c).Safe w (Progress.Sound T) := by
  have hwidth : f.children.length = 2 := h.suits hop
  have hgives (slot : Nat) : f.op.Gives s slot s := hop ▸ rfl
  have runs : f.Runs T w fs s χ c.scopes := hscopes ▸ .shortCircuit hsaved hop hphase
  rcases hphase with hphase | hphase | hphase
  · simp only [advance, hphase]
    exact .map (h.enterChild (hscopes ▸ .shortCircuit hsaved hop (.inr (.inl rfl))) hscopes rfl
      (hop ▸ trivial) (by omega) (hgives 0))
  · simp only [advance, hphase]
    refine .ite (fun _ => .pure h.world (h.pop.complete runs _)) fun _ => .map ?_
    exact h.pop.enterChild (hscopes ▸ .shortCircuit hsaved hop (.inr (.inr rfl))) hscopes rfl
      (hop ▸ trivial) (by omega) (hgives 1)
  · simp only [advance, hphase]
    exact .pure h.world (h.pop.complete runs _)

/-- One of the branches is evaluated. -/
theorem step_condition {hasElse : Bool} (hop : f.op = .condition hasElse)
    (hphase : f.phase = .test ∨ f.phase = .testDone ∨ f.phase = .branchDone) :
    (advance env T.mode f c).Safe w (Progress.Sound T) := by
  have hwidth : f.children.length = if hasElse then 3 else 2 := h.suits hop
  have hgives (slot : Nat) : f.op.Gives s slot s := hop ▸ rfl
  have runs : f.Runs T w fs s χ c.scopes := hscopes ▸ .condition hsaved hop hphase
  have hbranch : Frame.Runs T w fs { f with phase := .branchDone } s χ c.scopes :=
    hscopes ▸ .condition hsaved hop (.inr (.inr rfl))
  rcases hphase with hphase | hphase | hphase
  · simp only [advance, hphase]
    refine .map (h.enterChild (hscopes ▸ .condition hsaved hop (.inr (.inl rfl))) hscopes rfl
      (hop ▸ trivial) ?_ (hgives 0))
    split at hwidth <;> omega
  · simp only [advance, hphase, hop]
    split
    · refine .map (h.pop.enterChild hbranch hscopes rfl (hop ▸ trivial) ?_ (hgives 1))
      split at hwidth <;> omega
    · split
      · rename_i helse
        rw [if_pos helse] at hwidth
        exact .map (h.pop.enterChild hbranch hscopes rfl (hop ▸ trivial) (by omega) (hgives 2))
      · exact .pure h.world (h.pop.complete runs _)
  · simp only [advance, hphase]
    exact .pure h.world (h.pop.complete runs _)

/-- Candidates are tried in turn; then an arm is evaluated. -/
theorem step_switch {cases : List CaseSlots} {fallback : Option Nat}
    (hop : f.op = .switch cases fallback)
    (hphase : f.phase = .subject ∨ (∃ i j, f.phase = .candidate i j) ∨
      (∃ i j, i < cases.length ∧ f.phase = .candidateDone i j) ∨ f.phase = .armDone) :
    (advance env T.mode f c).Safe w (Progress.Sound T) := by
  obtain ⟨hpos, hcases, hfallback⟩ := h.suits hop
  have hgives (slot : Nat) : f.op.Gives s slot s := hop ▸ rfl
  have runs : f.Runs T w fs s χ c.scopes := hscopes ▸ .switch hsaved hop hphase
  have hcandidate (i j : Nat) :
      Frame.Runs T w fs { f with phase := .candidate i j } s χ c.scopes :=
    hscopes ▸ .switch hsaved hop (.inr (.inl ⟨i, j, rfl⟩))
  have harm : Frame.Runs T w fs { f with phase := .armDone } s χ c.scopes :=
    hscopes ▸ .switch hsaved hop (.inr (.inr (.inr rfl)))
  -- each phase leads to another phase of the same switch
  rcases hphase with hphase | ⟨i, j, hphase⟩ | ⟨i, j, hi, hphase⟩ | hphase
  · simp only [advance, hphase]
    exact .map (h.enterChild (hcandidate 0 0) hscopes rfl (hop ▸ trivial) hpos (hgives 0))
  · simp only [advance, hphase, hop, switchStep]
    refine .map ?_
    split
    · split
      · rename_i slot
        exact h.enterChild harm hscopes rfl (hop ▸ trivial) (hfallback slot rfl) (hgives slot)
      · exact .pure h.world (h.complete runs _)
    · rename_i arm hcase
      split
      · exact .pure h.world (h.setPhase (hcandidate (i + 1) 0))
      · rename_i slot htest
        have hlt := (List.getElem?_eq_some_iff.1 hcase).1
        have hslot := (hcases arm (List.mem_of_getElem? hcase)).1 slot (List.mem_of_getElem? htest)
        have hdone : Frame.Runs T w fs { f with phase := .candidateDone i j } s χ c.scopes :=
          hscopes ▸ .switch hsaved hop (.inr (.inr (.inl ⟨i, j, hlt, rfl⟩)))
        exact h.enterChild hdone hscopes rfl (hop ▸ trivial) hslot (hgives slot)
  · simp only [advance, hphase, hop]
    split
    · rw [List.getElem?_eq_getElem hi]
      exact .map (h.pop.enterChild harm hscopes rfl (hop ▸ trivial)
        (hcases _ (List.getElem_mem hi)).2 (hgives _))
    · exact .pure h.world (h.pop.setPhase (hcandidate i (j + 1)))
  · simp only [advance, hphase]
    exact .pure h.world (h.pop.complete runs _)

/-- An iteration follows the other. -/
theorem step_loop (hop : f.op = .loop) (hphase : f.phase = .iteration ∨ f.phase = .iterationDone) :
    (advance env T.mode f c).Safe w (Progress.Sound T) := by
  rcases hphase with hphase | hphase
  · simp only [advance, hphase]
    exact .map (h.enterChild (hscopes ▸ .loop hsaved hop (.inr rfl)) hscopes rfl (hop ▸ trivial)
      (h.suits hop) (hop ▸ rfl))
  · simp only [advance, hphase]
    exact .pure h.world (h.pop.setPhase (hscopes ▸ .loop hsaved hop (.inl rfl)))

/-- The awaitable is evaluated and asked whether it has completed; if not, the run suspends. -/
theorem step_await (henv : env.Tame) {binder : Binder} {configure : Bool}
    (hop : f.op = .await binder configure)
    (hphase : f.phase = .awaitable ∨ f.phase = .awaitableDone ∨ ∃ v, f.phase = .awaiting v) :
    (advance env T.mode f c).Safe w (Progress.Sound T) := by
  obtain ⟨hpos, hwaits⟩ := h.suits hop
  -- the node waits, so this is a run of the kind that may
  have hmode : T.mode = .async := by
    have hpauses := h.sound.waits hwaits f.node
    rwa [show (f.code.node f.node).op = _ from hop] at hpauses
  have hruns (w' : World σ) (p : Phase)
      (hp : p = .awaitable ∨ p = .awaitableDone ∨ ∃ v, p = .awaiting v) :
      Frame.Runs T w' fs { f with phase := p } s χ c.scopes :=
    hscopes ▸ .await hsaved hop hp
  rcases hphase with hphase | hphase | ⟨v, hphase⟩
  · simp only [advance, hphase]
    exact .map (h.enterChild (hruns w _ (.inr (.inl rfl))) hscopes rfl (hop ▸ trivial) hpos
      (hop ▸ rfl))
  · have hstack {w' : World σ} (hk : w.Keeps w') : Stack T w' c.pop.frames c.pop.scopes :=
      (h.grows hk).stack (hscopes ▸ .await hsaved hop (.inr (.inl hphase)))
    simp only [advance, hphase, hop, awaitStep]
    refine .attempt ((henv.protocol binder).getAwaiter _ configure) h.world fun r w₁ hk₁ => ?_
    split
    · exact .pure hk₁.sound (.transfer (hstack hk₁) trivial)
    · rename_i awaiter
      refine .attempt ((henv.protocol binder).isCompleted awaiter) hk₁.sound fun r w₂ hk₂ => ?_
      have hk₂ := hk₁.trans hk₂
      split
      · exact .pure hk₂.sound (.transfer (hstack hk₂) trivial)
      · refine .attempt ((henv.protocol binder).getResult awaiter) hk₂.sound fun r w₃ hk₃ => ?_
        refine .pure hk₃.sound ?_
        exact ((h.grows (hk₂.trans hk₃)).pop).finish
          (hscopes ▸ .await hsaved hop (.inr (.inl hphase))) r
      · simp only [hmode, ne_eq, not_true, if_false]
        refine .pure hk₂.sound ⟨hmode, fun _ => ?_⟩
        have hsound := ((h.grows hk₂).pop).setPhase (hruns w₂ _ (.inr (.inr ⟨awaiter, rfl⟩)))
        exact ⟨hsound.stack, hsound.control⟩
  · simp only [advance, hphase, hop]
    refine .attempt ((henv.protocol binder).getResult v) h.world fun r w' hk => ?_
    refine .pure hk.sound ?_
    exact (h.grows hk).finish (hscopes ▸ .await hsaved hop (.inr (.inr ⟨v, hphase⟩))) r

/-- A generator evaluates the value it yields, stops with it, and goes on. -/
theorem step_yield (hop : f.op = .yieldReturn)
    (hphase : f.phase = .yielding ∨ f.phase = .yieldDone ∨ f.phase = .yielded) :
    (advance env T.mode f c).Safe w (Progress.Sound T) := by
  obtain ⟨hpos, hwaits⟩ := h.suits hop
  have hmode : T.mode = .generator := by
    have hpauses := h.sound.waits hwaits f.node
    rwa [show (f.code.node f.node).op = _ from hop] at hpauses
  have hruns (p : Phase) (hp : p = .yielding ∨ p = .yieldDone ∨ p = .yielded) :
      Frame.Runs T w fs { f with phase := p } s χ c.scopes :=
    hscopes ▸ .yield hsaved hop hp
  have runs : f.Runs T w fs s χ c.scopes := hscopes ▸ .yield hsaved hop hphase
  rcases hphase with hphase | hphase | hphase
  · simp only [advance, hphase]
    exact .map (h.enterChild (hruns _ (.inr (.inl rfl))) hscopes rfl (hop ▸ trivial) hpos
      (hop ▸ rfl))
  · simp only [advance, hphase, hmode, if_true]
    refine .pure h.world ⟨hmode, fun _ => ?_⟩
    have hsound := h.pop.setPhase (hruns _ (.inr (.inr rfl)))
    exact ⟨hsound.stack, hsound.control⟩
  · simp only [advance, hphase]
    exact .pure h.world (h.complete runs _)

end

/-- One phase of a sound frame. The phase is one of its node. -/
theorem step (henv : env.Tame) (runs : f.Runs T w fs s χ c.scopes) :
    (stepFrame env T.mode f c).Safe w (Progress.Sound T) := by
  rw [stepFrame_eq runs.isMatched]
  generalize hχ : c.scopes = χ' at runs
  cases runs with
  | operands saved op phase => exact h.step_operands hχ saved henv op phase
  | shortCircuit saved op phase => exact h.step_shortCircuit hχ saved op phase
  | block saved op phase scope binds =>
    exact h.step_block saved op phase (hχ ▸ scope) (hχ ▸ binds)
  | condition saved op phase => exact h.step_condition hχ saved op phase
  | switch saved op phase => exact h.step_switch hχ saved op phase
  | loop saved op phase => exact h.step_loop hχ saved op phase
  | guarded saved op phase =>
    rcases phase with phase | phase
    · simp only [advance, phase]
      exact .map (h.enterChild (hχ ▸ .guarded saved op (.inr rfl)) hχ rfl (op ▸ .inl rfl)
        (h.suits op).1 (op ▸ .inl ⟨rfl, .inl rfl⟩))
    · exact h.step_guarded (hχ ▸ .guarded saved op (.inr phase)) (by rw [phase]; rfl)
  | handler saved op phase ext =>
    exact h.step_guarded (hχ ▸ .handler saved op phase ext) (by rw [phase]; rfl)
  | cleanup saved op phase arrives =>
    have runs : f.Runs T w fs s χ c.scopes := hχ ▸ .cleanup saved op phase arrives
    simp only [advance, phase]
    rename_i deferred
    refine .pure h.world ?_
    cases deferred with
    | value v => exact h.pop.complete runs v
    | abrupt t => exact h.pop.leave runs arrives
  | await saved op phase => exact h.step_await hχ saved henv op phase
  | yield saved op phase => exact h.step_yield hχ saved op phase
  | closure saved op phase =>
    simp only [advance, phase]
    exact .pure h.world (h.pop.complete (.closure saved op phase) _)

end

end Top

/-! ## Runs -/

section

variable {env : Env σ}

/-- One step of a sound context. -/
theorem step_safe (henv : env.Tame) {c : Context} (hw : w.Sound) (h : c.Sound T w) :
    (step env T.mode c).Safe w (Progress.Sound T) := by
  obtain ⟨hstack, hcontrol⟩ := h
  obtain hnil | ⟨f, fs, hframes⟩ : c.frames = [] ∨ ∃ f fs, c.frames = f :: fs := by
    cases c.frames <;> simp
  · cases ht : c.control with
    | none =>
      simp only [step, ht, hnil]
      exact .pure hw ⟨trivial, nofun⟩
    | some t =>
      have ht' := hcontrol t ht
      rw [hnil] at ht'
      simp only [step, ht, unwind, hnil]
      match t, ht' with
      | .jump ⟨_, label, .escape, v⟩, hl => exact .pure hw ⟨hl, nofun⟩
      | .throw e, _ => exact .throw hw rfl
      | .exit v, _ => exact .pure hw ⟨trivial, nofun⟩
  · rw [hframes] at hstack
    cases hstack with
    | push below sound runs =>
      cases ht : c.control with
      | none =>
        have htop : Top T w c f fs _ _ := ⟨hw, hframes, ht, below, sound⟩
        simp only [step, ht, hframes]
        exact htop.step henv runs
      | some t =>
        have htop : Top T w { c with control := none } f fs _ _ :=
          ⟨hw, hframes, rfl, below, sound⟩
        have ht' := hcontrol t ht
        rw [hframes] at ht'
        simp only [step, ht]
        exact htop.unwind runs ht'

/-- A run of steps from a sound context ends without a breakdown, and where it may. -/
theorem iterate_safe (henv : env.Tame) {limit : Option Nat} {fuel steps : Nat} {c : Context}
    {r : Except RunError (Halt × Context)} (hw : w.Sound) (h : c.Sound T w)
    (hrun : iterate env T.mode limit fuel steps c w = some (r, w')) :
    w.Keeps w' ∧
      Orderly (fun (h, c') => h.Allowed T ∧ (h.pauses = true → c'.Sound T w')) r := by
  induction fuel generalizing steps c w with
  | zero => cases hrun
  | succ fuel ih =>
    rw [iterate] at hrun
    split at hrun
    · cases hrun
      exact ⟨.refl hw, rfl⟩
    · have hsafe : (step env T.mode c).Safe w (Progress.Sound T) := step_safe henv hw h
      obtain ⟨hk, hstep⟩ := hsafe
      split at hrun
      · rename_i c₁ w₁ hm
        rw [hm] at hk hstep
        obtain ⟨hk', hr⟩ := ih hk.sound hstep hrun
        exact ⟨hk.trans hk', hr⟩
      · rename_i halt c₁ w₁ hm
        rw [hm] at hk hstep
        cases hrun
        exact ⟨hk, hstep⟩
      · rename_i e w₁ hm
        rw [hm] at hk hstep
        cases hrun
        exact ⟨hk, hstep⟩

/-- An evaluation that gives a value or jumps to an allowed label. -/
def Evaluation.Allowed (escapes : Nat → Prop) : Evaluation → Prop
  | .value _ => True
  | .escape label _ => escapes label

/-- Sound code that does not suspend is ready to run as a plain function. -/
theorem Ready.root {code : Code} {escapes : Nat → Prop} {χ : Chain} {s : Setting} (hw : w.Sound)
    (hcode : code.Sound escapes s) (hwaits : s.waits = false) (hhandling : s.handling = false)
    (hbinds : w.Binds χ s) : Ready ⟨.sync, escapes, χ⟩ w { scopes := χ } code Code.root s :=
  ⟨hw, .empty, rfl, ⟨s, hcode⟩, hcode.root, by simp [hwaits], hbinds, by simp [hhandling], .inl rfl⟩

/-- Evaluating sound code over a chain that has its variables: it gives a value, throws, or jumps to
a label that it may escape to, whatever the host does. -/
theorem evaluate_safe (henv : env.Tame) {limit : Option Nat} {fuel : Nat} {code : Code}
    {escapes : Nat → Prop} {χ : Chain} {s : Setting} {r : Except RunError Evaluation}
    (hw : w.Sound) (hcode : code.Sound escapes s) (hwaits : s.waits = false)
    (hhandling : s.handling = false) (hbinds : w.Binds χ s)
    (h : evaluate env limit fuel code χ w = some (r, w')) :
    w.Keeps w' ∧ Orderly (Evaluation.Allowed escapes) r := by
  let T : Terms := ⟨.sync, escapes, χ⟩
  have hsafe : (enter .sync code Code.root { scopes := χ }).Safe w
      fun c' w' => c'.Sound T w' := (Ready.root hw hcode hwaits hhandling hbinds).enter
  obtain ⟨hk, hc⟩ := hsafe
  rw [evaluate, Option.map_eq_some_iff] at h
  obtain ⟨⟨r₁, w₁⟩, hstart, hr⟩ := h
  rw [start] at hstart
  split at hstart
  · rename_i c₀ w₀ hm
    rw [hm] at hk hc
    obtain ⟨hk', hhalt⟩ := iterate_safe (T := T) henv hk.sound hc hstart
    have hk := hk.trans hk'
    cases r₁ with
    | error e =>
      cases hr
      exact ⟨hk, hhalt⟩
    | ok p =>
      obtain ⟨halt, c'⟩ := p
      cases halt with
      | finished v =>
        cases hr
        exact ⟨hk, trivial⟩
      | escaped label v =>
        cases hr
        exact ⟨hk, hhalt.1⟩
      -- plain code does not wait
      | suspended => cases hhalt.1
      | yielded => cases hhalt.1
  · rename_i e w₀ hm
    rw [hm] at hk hc
    cases hstart
    cases hr
    exact ⟨hk, hc⟩

end

end Coroutine
