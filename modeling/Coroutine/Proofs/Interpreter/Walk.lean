import Mathlib
import Coroutine.Proofs.Interpreter.Concerns

/-!
# Every part of a step

`Concern.Logic` lists what parts of runs are made of, as rules of a judgement: the monad, the actions
on variables, scopes and closures, and the calls of the host. For every such judgement `step` goes from
contexts that keep to the concern to contexts that keep to it (`Logic.step`).

The judgement is one of runs in all modes at once. So it may also compare a run with the one in
another mode.
-/

namespace Coroutine

variable {σ : Type}

/-- Whether a run failed at a step limit. -/
def RunError.isLimit : RunError → Bool
  | .stepLimitExceeded _ => true
  | _ => false

/-- A judgement of parts of runs, with a rule for each thing that they are made of. -/
structure Concern.Logic (K : Concern) (env : Env σ) where
  /-- In each mode, a part of a run that begins in a world where a proposition holds leads to a
  result with a property. -/
  Runs : {α : Type} → Prop → (LambdaKind → Run σ α) → World σ → (α → World σ → Prop) → Prop
  /-- The worlds in which the host may be called. -/
  ready : World σ → Prop := fun _ => True
  /-- What the host may do. -/
  Host : {α : Type} → Effect σ α → Prop
  ret : ∀ {α pre w P} {a : α}, (pre → P a w) → Runs pre (fun _ => pure a) w P
  fail : ∀ {α pre w P} {e : RunError}, e.isLimit = false →
    Runs (α := α) pre (fun _ => throw e) w P
  bind : ∀ {α β pre w} {P : α → World σ → Prop} {Q : β → World σ → Prop}
    {m : LambdaKind → Run σ α} {f : LambdaKind → α → Run σ β}, Runs pre m w P →
    (∀ a w', Runs (pre ∧ P a w') (fun mode => f mode a) w' Q) →
    Runs pre (fun mode => m mode >>= f mode) w Q
  /-- A part that needs a mode other than the plain one. -/
  suspend : ∀ {α pre w P} {a : α} {kind : LambdaKind} {why}, kind ≠ .sync → (pre → P a w) →
    Runs pre (fun mode => if mode = kind then pure a else throw (.cannotSuspend why)) w P
  lookup : ∀ {β pre w} {Q : β → World σ → Prop} {χ : Chain} {x : Var} {f : Value → Run σ β},
    (pre → K.chain χ) → (∀ v w', Runs pre (fun _ => f v) w' Q) →
    Runs pre (fun _ => do
      match ← Run.look fun w => w.lookup χ x.word with
      | some v => f v
      | none => throw (.unboundVariable x.name)) w Q
  assign : ∀ {β pre w} {Q : β → World σ → Prop} {χ : Chain} {e : Code} {id : Nat} {x : Var}
    {a : Value} {m : Run σ β}, (e.node id).op = .assign x → (pre → K.code e χ) →
    (pre → K.chain χ) → (∀ w', Runs pre (fun _ => m) w' Q) →
    Runs pre (fun _ => do
      if ← Run.act fun w => w.assign χ x.word a then m else throw (.unboundVariable x.name)) w Q
  newScope : ∀ {pre w} (s : Scope),
    Runs pre (fun _ => Run.act fun w => w.newScope s) w fun k _ => K.fresh k
  newClosure : ∀ {pre w} {t : Template} {χ : Chain}, (pre → K.code t.code χ) → (pre → K.chain χ) →
    Runs pre (fun _ => Run.act fun w => w.newClosure t χ) w fun _ _ => True
  closure : ∀ {pre w} (f : ClosureRef),
    Runs pre (fun _ => Run.look fun w => w.closure f.id) w fun cl _ =>
      K.code cl.template.code cl.captured ∧ K.chain cl.captured
  raise : ∀ {pre w} (f : Fault), Runs pre (fun _ => Run.act fun w => w.raise f) w fun _ _ => True
  asException : ∀ {pre w} (v : Value),
    Runs pre (fun _ => Run.act fun w => w.asException v) w fun _ _ => True
  attempt : ∀ {α pre w} {e : Effect σ α}, Host e → (pre → ready w) →
    Runs pre (fun _ => Run.attempt e) w fun _ w' => ready w'
  ofFault : ∀ r : Except Fault Value, Host (Effect.ofFault r)
  call : ∀ name args, Host (env.functions.call name args)
  getAwaiter : ∀ b v configure, Host ((env.protocol b).getAwaiter v configure)
  isCompleted : ∀ b v, Host ((env.protocol b).isCompleted v)
  getResult : ∀ b v, Host ((env.protocol b).getResult v)

namespace Concern.Logic

variable {K : Concern} {env : Env σ} (L : K.Logic env) {α β : Type} {pre : Prop} {w : World σ}
  {c : Context} {f : Frame}

/-! ## Derived rules -/

/-- What is done to the result keeps to the rules. -/
theorem map {m : LambdaKind → Run σ α} {f : α → β} {Q : β → World σ → Prop}
    (h : L.Runs pre m w fun a w' => Q (f a) w') : L.Runs pre (fun mode => f <$> m mode) w Q := by
  simp only [map_eq_pure_bind]
  exact L.bind h fun a w' => L.ret fun hpre => hpre.2

/-- Both branches keep to the rules. -/
theorem ite {m m' : LambdaKind → Run σ α} {p : Prop} [Decidable p] {P : α → World σ → Prop}
    (h : L.Runs pre m w P) (h' : L.Runs pre m' w P) :
    L.Runs pre (fun mode => if p then m mode else m' mode) w P := by
  split
  · exact h
  · exact h'

/-- What has been built, or failed to be. -/
theorem ofBuild {r : Except BuildError α} : L.Runs pre (fun _ => Run.ofBuild r) w fun _ _ => True := by
  cases r with
  | ok a => exact L.ret fun _ => trivial
  | error e => exact L.fail rfl

/-! ## Nodes -/

variable (hc : pre → c.Keeps K)
include hc

/-- Starting a node. -/
theorem enter {code : Code} (hcode : pre → K.code code c.scopes) (id : Nat) :
    L.Runs pre (fun mode => enter mode code id c) w fun c' _ => c'.Keeps K := by
  cases hop : (code.node id).op with
  | constant v =>
    simp only [Coroutine.enter, hop]
    exact L.ret fun hpre => (hc hpre).push v
  | var x =>
    simp only [Coroutine.enter, hop]
    exact L.lookup (fun hpre => (hc hpre).scopes) fun v w' => L.ret fun hpre => (hc hpre).push v
  | lambda t =>
    simp only [Coroutine.enter, hop]
    exact L.bind (L.newClosure (fun hpre => K.code_body (hcode hpre) hop)
      fun hpre => (hc hpre).scopes) fun r w' => L.ret fun h => (hc h.1).push _
  | rethrow =>
    cases hactive : c.activeException? with
    | some e =>
      simp only [Coroutine.enter, hop, hactive]
      exact L.ret fun hpre => (hc hpre).transfer _
    | none =>
      simp only [Coroutine.enter, hop, hactive]
      exact L.fail rfl
  | yieldBreak =>
    simp only [Coroutine.enter, hop]
    exact L.suspend (by simp) fun hpre => (hc hpre).transfer _
  | block vars =>
    simp only [Coroutine.enter, hop]
    refine L.ite (L.ret fun hpre => (hc hpre).frame (hcode hpre) ..) ?_
    refine L.bind (L.newScope _) fun k w' => L.ret fun h => ?_
    exact ((hc h.1).declare h.2).frame (K.code_cons h.2 (hcode h.1)) ..
  | _ =>
    simp only [Coroutine.enter, hop]
    exact L.ret fun hpre => (hc hpre).frame (hcode hpre) ..

/-- The child in a slot starts. -/
theorem enterChild (hcode : pre → K.code f.code c.scopes) (slot : Nat) :
    L.Runs pre (fun mode => enterChild mode f slot c) w fun c' _ => c'.Keeps K :=
  L.bind L.ofBuild fun child _ => L.enter (fun h => hc h.1) (fun h => hcode h.1) child

/-- A child starts once the top frame is in its next phase. -/
theorem start (hf : c.Heads f) (p : Phase) (slot : Nat) :
    L.Runs pre (fun mode => Coroutine.enterChild mode f slot (c.setPhase p)) w
      fun c' _ => c'.Keeps K := by
  refine L.enterChild (fun hpre => (hc hpre).setPhase hf p) (fun hpre => ?_) slot
  rw [c.scopes_setPhase]
  exact (hc hpre).code hf

/-- Calling a closure: it runs over the scopes it captured and a new one. -/
theorem invoke (hf : c.Heads f) (args : List Value) :
    L.Runs pre (fun mode => invoke mode c args) w fun c' _ => c'.Keeps K := by
  have hfault (f : Fault) : L.Runs pre (fun _ => do
      let e ← Run.act fun w => w.raise f
      return c.transfer (.throw e)) w fun c' _ => c'.Keeps K :=
    L.bind (L.raise f) fun e w' => L.ret fun h => (hc h.1).transfer _
  match args with
  | .closure ref :: args =>
    refine L.bind (L.closure ref) ?_
    rintro ⟨template, captured⟩ w₁
    refine L.ite (L.fail rfl) ?_
    refine L.bind (L.newScope _) fun s w₂ => L.enter ?_ ?_ _
    · rintro ⟨⟨hpre, -, hcaptured⟩, hs⟩
      exact (hc hpre).call hf (K.chain_cons hs hcaptured)
    · rintro ⟨⟨-, hcode, -⟩, hs⟩
      exact K.code_cons hs hcode
  | [] => exact hfault _
  | .unit :: _ | .bool _ :: _ | .int _ :: _ | .float _ :: _ | .str _ :: _ | .exception _ :: _
  | .task _ :: _ => exact hfault _

/-- Applying a node to the values of its children. -/
theorem apply (hready : pre → L.ready w) (hf : c.Heads f) (args : List Value) :
    L.Runs pre (fun mode => apply env mode f args c) w fun c' _ => c'.Keeps K := by
  have hattempt {e : Effect σ Value} (he : L.Host e) :
      L.Runs pre (fun _ => do return c.finish (← Run.attempt e)) w fun c' _ => c'.Keeps K :=
    L.bind (L.attempt he hready) fun r _ => L.ret fun h => (hc h.1).finish r
  cases hop : f.op with
  | assign x =>
    simp only [Coroutine.apply, hop]
    have hassigned : (f.code.node f.node).op = .assign x := hop
    exact L.assign hassigned (fun hpre => (hc hpre).code hf) (fun hpre => (hc hpre).scopes)
      fun w' => L.ret fun hpre => (hc hpre).complete _
  | binary b =>
    simp only [Coroutine.apply, hop]
    exact hattempt (L.ofFault _)
  | unary b =>
    simp only [Coroutine.apply, hop]
    exact hattempt (L.ofFault _)
  | call name =>
    simp only [Coroutine.apply, hop]
    exact hattempt (L.call name args)
  | throw =>
    simp only [Coroutine.apply, hop]
    exact L.bind (L.asException _) fun e w' => L.ret fun h => (hc h.1).transfer _
  | goto label hasValue r =>
    simp only [Coroutine.apply, hop]
    exact L.ret fun hpre => (hc hpre).transfer _
  | label l =>
    simp only [Coroutine.apply, hop]
    exact L.ret fun hpre => (hc hpre).complete _
  | invoke =>
    simp only [Coroutine.apply, hop]
    exact L.invoke hc hf args
  | _ =>
    simp only [Coroutine.apply, hop]
    exact L.fail rfl

/-! ## Abrupt completions -/

/-- A cleanup starts at the base of its frame. -/
theorem startCleanup (hf : c.Heads f) (slot : Nat) (deferred : Completion) :
    L.Runs pre (fun mode => startCleanup mode f slot deferred c) w fun c' _ => c'.Keeps K :=
  L.start (c := c.reset f) (fun hpre => (hc hpre).reset f) hf _ slot

/-- A handler starts at the base of its frame, in a scope of its own if it has a variable. -/
theorem startHandler (hf : c.Heads f) (handler : HandlerSlots) (e : Exception) :
    L.Runs pre (fun mode => startHandler mode f handler e c) w fun c' _ => c'.Keeps K := by
  have hphase (hpre : pre) : ((c.reset f).setPhase (.inHandler e)).Keeps K :=
    ((hc hpre).reset f).setPhase (f := f) hf _
  have hcode (hpre : pre) : K.code f.code ((c.reset f).setPhase (.inHandler e)).scopes := by
    rw [Context.scopes_setPhase]
    exact K.code_truncate _ ((hc hpre).code hf)
  cases hx : handler.var with
  | none =>
    simp only [Coroutine.startHandler, hx]
    exact L.enterChild hphase hcode handler.body
  | some x =>
    simp only [Coroutine.startHandler, hx]
    exact L.bind (L.newScope _) fun k w' => L.enterChild (fun h => (hphase h.1).declare h.2)
      (fun h => K.code_cons h.2 (hcode h.1)) handler.body

/-- A transfer passes a frame. -/
theorem leave {fs : List Frame} (hframes : c.frames = f :: fs) (t : Transfer) :
    L.Runs pre (fun mode => leave mode f t c) w fun c' _ => c'.Keeps K := by
  cases hslot : f.pendingCleanup? with
  | some slot =>
    simp only [Coroutine.leave, hslot]
    obtain ⟨-, -, hguarded⟩ := Frame.eq_of_pendingCleanup? hslot
    refine L.startCleanup hc ⟨fun hphase => ?_, fs, hframes⟩ slot _
    rw [hphase] at hguarded
    cases hguarded
  | none =>
    simp only [Coroutine.leave, hslot]
    exact L.ret fun hpre => (hc hpre).popFrame.transfer t

/-- A jump has arrived. -/
theorem land (hf : c.Heads f) (j : Jump) (path : List Nat) (kind : RouteKind) :
    L.Runs pre (fun mode => land mode f j path kind c) w fun c' _ => c'.Keeps K := by
  have hbreak : L.Runs pre (fun _ => pure (c.complete j.value)) w fun c' _ => c'.Keeps K :=
    L.ret fun hpre => (hc hpre).complete _
  have hcontinue : L.Runs pre (fun _ => pure ((c.reset f).setPhase .iteration)) w
      fun c' _ => c'.Keeps K := L.ret fun hpre => ((hc hpre).reset f).setPhase (f := f) hf _
  cases hphase : f.phase with
  | iteration | iterationDone =>
    cases kind with
    | toBreak =>
      simp only [Coroutine.land, hphase]
      exact hbreak
    | toContinue =>
      simp only [Coroutine.land, hphase]
      exact hcontinue
    | toLabel =>
      simp only [Coroutine.land, hphase]
      exact L.fail rfl
  | statement index hasScope | statementDone index hasScope =>
    have hcut (hpre : pre) := (hc hpre).truncate f.base (f.depth + if hasScope then 1 else 0)
    cases kind with
    | toBreak | toContinue =>
      simp only [Coroutine.land, hphase]
      exact L.fail rfl
    | toLabel =>
      simp only [Coroutine.land, hphase]
      -- the label is in this block, or below the statement in the first slot of the path
      rcases path with _ | ⟨slot, _ | ⟨first, rest⟩⟩
      · exact L.fail rfl
      · exact L.ite (L.ret fun hpre => (hcut hpre).setPhase (f := f) hf _)
          (L.ret fun hpre => (hcut hpre).complete _)
      · refine L.bind L.ofBuild fun child w₁ => L.bind (L.enter
          (fun h => (hcut h.1).setPhase (f := f) hf _) (fun h => ?_) child)
          fun c' w₂ => L.ret fun h => h.2.transfer _
        rw [Context.scopes_setPhase]
        exact (hcut h.1).code hf
  | _ =>
    simp only [Coroutine.land, hphase]
    exact L.fail rfl

/-- A transfer meets the top frame. -/
theorem unwind (t : Transfer) :
    L.Runs pre (fun mode => unwind mode t c) w fun p _ => p.Keeps K := by
  cases hframes : c.frames with
  | nil =>
    simp only [Coroutine.unwind, hframes]
    rcases t with ⟨code, label, _ | _, v⟩ | e | v
    · exact L.fail rfl
    · exact L.ret fun hpre => hc hpre
    · exact L.fail rfl
    · exact L.ret fun hpre => hc hpre
  | cons f fs =>
    have hleave : L.Runs pre (fun mode => Progress.running <$> Coroutine.leave mode f t c) w
        fun p _ => p.Keeps K := L.map (L.leave hc hframes t)
    simp only [Coroutine.unwind, hframes]
    rcases t with ⟨code, label, ⟨ancestor, path, kind⟩ | _, v⟩ | e | v
    · refine L.ite ?_ hleave
      by_cases hphase : f.phase = .inClosure
      · simp only [Coroutine.land, hphase]
        exact L.map (L.fail rfl)
      · exact L.map (L.land hc ⟨hphase, fs, hframes⟩ _ path kind)
    · exact hleave
    · cases hhandler : f.handlerFor? e with
      | none =>
        simp only [hhandler]
        exact hleave
      | some handler =>
        simp only [hhandler]
        refine L.map (L.startHandler hc ⟨fun hphase => ?_, fs, hframes⟩ handler e)
        -- only the body of a guarded node has handlers
        unfold Frame.handlerFor? at hhandler
        rw [hphase] at hhandler
        split at hhandler
        · rename_i heq
          cases heq
        · cases hhandler
    · exact hleave

/-! ## Frames -/

/-- An await calls the host up to three times. -/
theorem awaitStep (hready : pre → L.ready w) (hf : c.Heads f) (binder : Binder) (configure : Bool)
    (v : Value) :
    L.Runs pre (fun mode => awaitStep env mode binder configure v c) w fun p _ => p.Keeps K := by
  refine L.bind (L.attempt (L.getAwaiter binder v configure) hready) fun r w₁ => ?_
  cases r with
  | error e => exact L.ret fun h => (hc h.1).transfer _
  | ok awaiter =>
    refine L.bind (L.attempt (L.isCompleted binder awaiter) fun h => h.2) fun r w₂ => ?_
    match r with
    | .error e => exact L.ret fun h => (hc h.1.1).transfer _
    | .ok true =>
      exact L.bind (L.attempt (L.getResult binder awaiter) fun h => h.2) fun r w₃ =>
        L.ret fun h => (hc h.1.1.1).finish r
    | .ok false =>
      simp only [ne_eq, ite_not]
      refine L.suspend nofun fun h => ?_
      have hc' := (hc h.1.1).setPhase hf (.awaiting awaiter)
      exact ⟨hc'.scopes, hc'.frames⟩

/-- A switch tries its next candidate. -/
theorem switchStep (hf : c.Heads f) (cases : List CaseSlots) (fallback : Option Nat) (i j : Nat) :
    L.Runs pre (fun mode => switchStep mode f cases fallback i j c) w fun c' _ => c'.Keeps K := by
  cases hcase : cases[i]? with
  | none =>
    cases fallback with
    | some slot =>
      simp only [Coroutine.switchStep, hcase]
      exact L.start hc hf _ slot
    | none =>
      simp only [Coroutine.switchStep, hcase]
      exact L.ret fun hpre => (hc hpre).complete _
  | some arm =>
    cases htest : arm.tests[j]? with
    | none =>
      simp only [Coroutine.switchStep, hcase, htest]
      exact L.ret fun hpre => (hc hpre).setPhase hf _
    | some slot =>
      simp only [Coroutine.switchStep, hcase, htest]
      exact L.start hc hf _ slot

/-- One phase of the top frame. -/
theorem advance (hready : pre → L.ready w) {fs : List Frame} (hframes : c.frames = f :: fs) :
    L.Runs pre (fun mode => advance env mode f c) w fun p _ => p.Keeps K := by
  have hpop (hpre : pre) : c.pop.Keeps K := (hc hpre).pop
  have hdone {v : Value} :
      L.Runs pre (fun _ => pure (.running (c.pop.complete v))) w fun p _ => Progress.Keeps K p :=
    L.ret fun hpre => (hpop hpre).complete v
  by_cases hclosure : f.phase = .inClosure
  · simp only [Coroutine.advance, hclosure]
    exact hdone
  have hf : c.Heads f := ⟨hclosure, fs, hframes⟩
  have hturn {p : Phase} :
      L.Runs pre (fun _ => pure (.running (c.pop.setPhase p))) w fun p _ => Progress.Keeps K p :=
    L.ret fun hpre => (hpop hpre).setPhase (f := f) hf p
  have hnext {p : Phase} (slot : Nat) : L.Runs pre
      (fun mode => Progress.running <$> Coroutine.enterChild mode f slot (c.pop.setPhase p)) w
        fun p _ => p.Keeps K := L.map (L.start hpop hf p slot)
  have hchild {p : Phase} (child : Nat) : L.Runs pre
      (fun mode => Progress.running <$> Coroutine.enter mode f.code child (c.setPhase p)) w
        fun p _ => p.Keeps K := by
    refine L.map (L.enter (fun hpre => (hc hpre).setPhase hf p) (fun hpre => ?_) child)
    rw [c.scopes_setPhase]
    exact (hc hpre).code hf
  cases hphase : f.phase with
  | operands next =>
    cases hchildren : f.children[next]? with
    | some child =>
      simp only [Coroutine.advance, hphase, hchildren]
      exact hchild child
    | none =>
      simp only [Coroutine.advance, hphase, hchildren]
      exact L.map (L.apply (c := { c with results := truncateResults c.results f.base })
        (fun hpre => ⟨(hc hpre).scopes, (hc hpre).frames⟩) hready hf _)
  | left | test | subject | iteration | guarded | awaitable | yielding =>
    simp only [Coroutine.advance, hphase]
    exact L.map (L.start hc hf _ _)
  | rightDone | branchDone | armDone | inClosure =>
    simp only [Coroutine.advance, hphase]
    exact hdone
  | leftDone =>
    simp only [Coroutine.advance, hphase]
    exact L.ite hdone (hnext _)
  | statement index hasScope =>
    cases hchildren : f.children[index]? with
    | none =>
      simp only [Coroutine.advance, hphase, hchildren]
      exact L.ret fun hpre => (hc hpre).complete _
    | some child =>
      simp only [Coroutine.advance, hphase, hchildren]
      exact hchild child
  | statementDone index hasScope =>
    simp only [Coroutine.advance, hphase]
    exact L.ite hturn hdone
  | testDone =>
    simp only [Coroutine.advance, hphase]
    exact L.ite (hnext _) (L.ite (hnext _) hdone)
  | candidate i j =>
    cases hop : f.op with
    | switch cases fallback =>
      simp only [Coroutine.advance, hphase, hop]
      exact L.map (L.switchStep hc hf cases fallback i j)
    | _ =>
      simp only [Coroutine.advance, hphase, hop]
      exact L.fail rfl
  | candidateDone i j =>
    cases hop : f.op with
    | switch cases fallback =>
      simp only [Coroutine.advance, hphase, hop]
      refine L.ite ?_ hturn
      cases cases[i]? with
      | some arm => exact hnext _
      | none => exact L.fail rfl
    | _ =>
      simp only [Coroutine.advance, hphase, hop]
      exact L.fail rfl
  | iterationDone =>
    simp only [Coroutine.advance, hphase]
    exact hturn
  | inBody | inHandler =>
    cases hslot : f.pendingCleanup? with
    | some slot =>
      simp only [Coroutine.advance, hphase, hslot]
      exact L.map (L.startCleanup hpop hf slot _)
    | none =>
      simp only [Coroutine.advance, hphase, hslot]
      exact hdone
  | inCleanup deferred =>
    simp only [Coroutine.advance, hphase]
    refine L.ret fun hpre => ?_
    cases deferred with
    | value v => exact (hpop hpre).complete v
    | abrupt t => exact (hpop hpre).popFrame.transfer t
  | awaitableDone =>
    cases hop : f.op with
    | await binder configure =>
      simp only [Coroutine.advance, hphase, hop]
      exact L.awaitStep (f := f) hpop hready hf _ _ _
    | _ =>
      simp only [Coroutine.advance, hphase, hop]
      exact L.fail rfl
  | awaiting awaiter =>
    cases hop : f.op with
    | await binder configure =>
      simp only [Coroutine.advance, hphase, hop]
      exact L.bind (L.attempt (L.getResult binder awaiter) hready) fun r w' =>
        L.ret fun h => (hc h.1).finish r
    | _ =>
      simp only [Coroutine.advance, hphase, hop]
      exact L.fail rfl
  | yieldDone =>
    simp only [Coroutine.advance, hphase]
    refine L.suspend (by simp) fun hpre => ?_
    have hc' := (hpop hpre).setPhase (f := f) hf .yielded
    exact ⟨hc'.scopes, hc'.frames⟩
  | yielded =>
    simp only [Coroutine.advance, hphase]
    exact L.ret fun hpre => (hc hpre).complete _

/-- One step goes from contexts that keep to the concern to such contexts. -/
theorem step (hready : pre → L.ready w) :
    L.Runs pre (fun mode => step env mode c) w fun p _ => p.Keeps K := by
  cases hcontrol : c.control with
  | some t =>
    simp only [Coroutine.step, hcontrol]
    exact L.unwind (c := { c with control := none })
      (fun hpre => ⟨(hc hpre).scopes, (hc hpre).frames⟩) t
  | none =>
    cases hframes : c.frames with
    | nil =>
      simp only [Coroutine.step, hcontrol, hframes]
      exact L.ret fun hpre => (hc hpre).pop
    | cons f fs =>
      simp only [Coroutine.step, hcontrol, hframes]
      exact L.ite (L.advance hc hready hframes) (L.fail rfl)

end Concern.Logic

end Coroutine
