import Mathlib
import Coroutine.Proofs.Interpreter.Safety

/-!
# The heights of the stacks

The phase of a frame fixes how many results belong to it. While a child of the frame runs, the frame
keeps `Phase.kept` of them for itself; when it goes on, it finds `Phase.due` of them above its base,
the one of the child included. `Piled` puts this together for frames one upon the other, and
`Context.Level` for a context: without a transfer in flight the height of the results is exactly
what the top frame expects.

Steps keep contexts level: `step_level`. A step never reaches below the top frame. It turns this frame
to another phase, takes it off, or pushes a frame upon it (`Turned`).
-/

namespace Coroutine

variable {σ α β : Type} {R : β → Prop} {env : Env σ}

/-! ## Results of parts of a run -/

namespace Run

/-- All that a part of a run can lead to has a property. -/
def Gives (m : Run σ α) (P : α → Prop) : Prop := ∀ w a w', m w = (.ok a, w') → P a

namespace Gives

variable {m : Run σ α} {P Q : α → Prop}

/-- A value gives itself. -/
theorem pure {a : α} (h : P a) : Gives (Pure.pure a : Run σ α) P := by
  intro w b w' hb
  cases hb
  exact h

/-- An error gives nothing. -/
theorem throw {e : RunError} : Gives (throw e : Run σ α) P := by
  intro w b w' hb
  cases hb

/-- What is given may be described in a weaker way. -/
theorem mono (h : Gives m P) (hPQ : ∀ a, P a → Q a) : Gives m Q :=
  fun w a w' ha => hPQ a (h w a w' ha)

/-- What is given by one part after the other. -/
theorem bind {f : α → Run σ β} (h : Gives m P) (hf : ∀ a, P a → Gives (f a) R) :
    Gives (m >>= f) R := by
  intro w b w' hb
  rw [exceptState_bind] at hb
  split at hb
  · rename_i a w₁ ha
    exact hf a (h w a w₁ ha) w₁ b w' hb
  · cases hb

/-- Nothing needs to be known of the first part. -/
theorem after {f : α → Run σ β} (hf : ∀ a, Gives (f a) R) : Gives (m >>= f) R :=
  bind (P := fun _ => True) (fun _ _ _ _ => trivial) fun a _ => hf a

/-- What is given is changed on the way. -/
theorem map {f : α → β} (h : Gives m fun a => R (f a)) : Gives (f <$> m) R := by
  rw [map_eq_pure_bind]
  exact h.bind fun a ha => .pure ha

/-- Both branches give the same. -/
theorem ite {p : Prop} [Decidable p] {m' : Run σ α} (h : Gives m P) (h' : Gives m' P) :
    Gives (if p then m else m') P := by
  split
  · exact h
  · exact h'

/-- What has been built is given, if it has been. -/
theorem ofBuild (r : Except BuildError α) : Gives (Run.ofBuild r : Run σ α) fun a => r = .ok a := by
  cases r with
  | ok a => exact .pure rfl
  | error e => exact .throw

end Gives

end Run

/-! ## Heights -/

namespace Phase

/-- The number of results that a frame keeps for itself while a child runs. -/
def kept : Phase → Nat
  | .operands next => next - 1
  | .candidateDone .. | .armDone => 1
  | _ => 0

/-- The number of results above the base of a frame that goes on. -/
def due : Phase → Nat
  | .operands next => next
  | .left | .statement .. | .test | .subject | .iteration | .guarded | .awaitable | .awaiting _
  | .yielding | .yielded => 0
  | .leftDone | .rightDone | .statementDone .. | .testDone | .branchDone | .candidate ..
  | .iterationDone | .inBody | .inHandler _ | .inCleanup _ | .awaitableDone | .yieldDone
  | .inClosure => 1
  | .candidateDone .. | .armDone => 2

/-- Whether a frame that goes on takes the last result. -/
def takes : Phase → Bool
  | .leftDone | .rightDone | .statementDone .. | .testDone | .branchDone | .candidateDone ..
  | .armDone | .iterationDone | .inBody | .inHandler _ | .inCleanup _ | .awaitableDone
  | .yieldDone | .inClosure => true
  | _ => false

/-- A result that is taken is there. -/
theorem due_pos_of_takes {p : Phase} (h : p.takes = true) : 0 < p.due := by
  cases p <;> first | exact Nat.succ_pos _ | cases h

end Phase

/-- No value is due in the first phase. -/
theorem Op.due_firstPhase (op : Op) : op.firstPhase.due = 0 := by
  cases op with
  | binary b => cases hb : b.shortCircuits <;> simp [Op.firstPhase, hb, Phase.due]
  | _ => rfl

/-- The operands that a frame has started are children of its node. -/
def Frame.InRange (f : Frame) : Prop := ∀ next, f.phase = .operands next → next ≤ f.children.length

/-- Only operands are counted. -/
theorem Frame.InRange.of_ne {f : Frame} (h : ∀ next, f.phase ≠ .operands next) : f.InRange :=
  fun next hnext => absurd hnext (h next)

/-- Frames one upon the other, each with a child that is running. The results of the topmost child
start at the height. -/
inductive Piled : List Frame → Nat → Prop
  | empty : Piled [] 0
  | push {f : Frame} {fs : List Frame} (below : Piled fs f.base)
      (waits : f.phase.due = f.phase.kept + 1) (range : f.InRange) :
      Piled (f :: fs) (f.base + f.phase.kept)

/-- No frame begins above the results that lie on the stack. -/
theorem Piled.base_le {fs : List Frame} {n : Nat} (h : Piled fs n) : ∀ f ∈ fs, f.base ≤ n := by
  induction h with
  | empty => simp
  | push below waits range ih =>
    intro g hg
    rcases List.mem_cons.1 hg with rfl | hg
    · exact Nat.le_add_right _ _
    · exact (ih g hg).trans (Nat.le_add_right _ _)

/-- Bases do not decrease towards the top. -/
theorem Piled.pairwise {fs : List Frame} {n : Nat} (h : Piled fs n) :
    fs.Pairwise fun f g => g.base ≤ f.base := by
  induction h with
  | empty => exact .nil
  | push below waits range ih => exact .cons below.base_le ih

/-- What the results of a context have to do with its frames. -/
structure Context.Level (c : Context) : Prop where
  below : ∀ f fs, c.frames = f :: fs → Piled fs f.base ∧ f.InRange
  above : ∀ f ∈ c.frames.head?, f.base ≤ c.results.length
  /-- Without a transfer in flight the top frame finds what it expects. -/
  calm : c.control = none →
    c.results.length = match c.frames with | [] => 1 | f :: _ => f.base + f.phase.due
  /-- With one, a try has at least started its body. -/
  begun : c.control ≠ none → ∀ f ∈ c.frames.head?, f.phase ≠ .guarded

/-! ### What a step does to the stack of frames -/

/-- A frame some time later. A call also saves the chain to go back to. -/
def Frame.Later (f f' : Frame) : Prop :=
  ∃ phase saved, f' = { f with phase, saved } ∧ (saved = f.saved ∨ f.op = .invoke)

/-- A frame is the same in a later phase. -/
theorem Frame.Later.phase (f : Frame) (p : Phase) : f.Later { f with phase := p } :=
  ⟨p, f.saved, rfl, .inl rfl⟩

/-- The top frame goes, or turns to another phase. In this, a frame may be pushed upon it, in the
first phase of its node. -/
inductive Turned : List Frame → List Frame → Prop
  | gone {f : Frame} {fs : List Frame} : Turned (f :: fs) fs
  | stays {f f' : Frame} {fs : List Frame} (h : f.Later f') : Turned (f :: fs) (f' :: fs)
  | under {f f' g : Frame} {fs : List Frame} (h : f.Later f') (hg : g.phase = g.op.firstPhase) :
      Turned (f :: fs) (g :: f' :: fs)

/-- Another phase is all that can become of the top frame if the height of the stack stays. -/
theorem Turned.later {f f' : Frame} {fs fs' : List Frame} (h : Turned (f :: fs) (f' :: fs'))
    (hlength : fs'.length = fs.length) : f.Later f' ∧ fs' = fs := by
  cases h with
  | gone => exact absurd hlength (by simp)
  | stays hlater => exact ⟨hlater, rfl⟩
  | under => exact absurd hlength (by simp)

/-- A level context with some frames and results, and at most one frame above them. -/
structure Context.Above (fs : List Frame) (rs : List Value) (c : Context) : Prop
    extends c.Level where
  pushed : c.frames = fs ∨ ∃ g : Frame, g.phase = g.op.firstPhase ∧ c.frames = g :: fs
  rest : rs <:+ c.results

/-- A level context in which the top one of some frames has been turned, above some results. -/
structure Context.Stands (fs : List Frame) (rs : List Value) (c : Context) : Prop
    extends c.Level where
  turned : Turned fs c.frames
  rest : rs <:+ c.results

/-- Frames that stand below are frames of the context. -/
theorem Context.Above.bottom {fs : List Frame} {rs : List Value} {c : Context} (h : c.Above fs rs) :
    fs <:+ c.frames := by
  rcases h.pushed with heq | ⟨g, -, heq⟩
  · rw [heq]
  · rw [heq]
    exact List.suffix_cons g fs

/-- The frame on top of which a node starts has been turned. -/
theorem Context.Above.stands {f f' : Frame} {fs : List Frame} {rs qs : List Value} {c : Context}
    (h : c.Above (f' :: fs) qs) (hf : f.Later f') (hrs : rs <:+ qs) : c.Stands (f :: fs) rs := by
  refine ⟨h.toLevel, ?_, hrs.trans h.rest⟩
  rcases h.pushed with heq | ⟨g, hg, heq⟩
  · rw [heq]
    exact .stays hf
  · rw [heq]
    exact .under hf hg

/-- All frames but the top one are frames of the context. -/
theorem Context.Stands.bottom {fs : List Frame} {rs : List Value} {c : Context}
    (h : c.Stands fs rs) : fs.tail <:+ c.frames := by
  have hturned := h.turned
  generalize c.frames = frames at hturned
  cases hturned with
  | gone => exact List.suffix_refl _
  | stays => exact List.suffix_cons _ _
  | under => exact (List.suffix_cons _ _).trans (List.suffix_cons _ _)

/-- Cutting back drops exactly the results on top. -/
theorem truncateResults_append (own rest : List Value) :
    truncateResults (own ++ rest) rest.length = rest := by
  rw [truncateResults, List.length_append, Nat.add_sub_cancel, List.drop_left]

namespace Context

variable {c : Context}

/-- The phase of a frame says nothing about the results. -/
@[simp] theorem results_setPhase (c : Context) (p : Phase) : (c.setPhase p).results = c.results := by
  unfold setPhase
  split <;> rfl

/-- What is asked of a context with a frame on top. -/
theorem Level.of_top {f : Frame} {fs : List Frame} (hframes : c.frames = f :: fs)
    (hbelow : Piled fs f.base) (hrange : f.InRange) (habove : f.base ≤ c.results.length)
    (hcalm : c.control = none → c.results.length = f.base + f.phase.due)
    (hbegun : c.control ≠ none → f.phase ≠ .guarded) : c.Level := by
  have hhead {g : Frame} (hg : g ∈ c.frames.head?) : f = g := by
    rw [hframes] at hg
    exact Option.some.inj hg
  refine ⟨fun g gs hg => ?_, fun g hg => hhead hg ▸ habove, ?_, fun hne g hg => hhead hg ▸ hbegun hne⟩
  · cases hframes.symm.trans hg
    exact ⟨hbelow, hrange⟩
  · rw [hframes]
    exact hcalm

/-- The frames below get a value. -/
theorem Level.push (h : Piled c.frames c.results.length) (hc : c.control = none) (v : Value) :
    (c.push v).Level := by
  have hlength : (c.push v).results.length = c.results.length + 1 := List.length_cons
  cases hframes : c.frames with
  | nil =>
    refine ⟨by simp [Context.push, hframes], by simp [Context.push, hframes], fun _ => ?_,
      fun hne => absurd hc hne⟩
    rw [hframes] at h
    generalize c.results.length = n at h hlength
    cases h
    rw [show (c.push v).frames = [] from hframes]
    exact hlength
  | cons f fs =>
    rw [hframes] at h
    generalize c.results.length = n at h hlength
    cases h with
    | push below waits range =>
      exact .of_top (c := c.push v) hframes below range (by omega) (fun _ => by omega) (absurd hc)

/-- The frames below get a transfer. -/
theorem Level.transfer (h : Piled c.frames c.results.length) (t : Transfer) :
    (c.transfer t).Level := by
  cases hframes : c.frames with
  | nil =>
    have hnil : (c.transfer t).frames = [] := hframes
    exact ⟨by simp [hnil], by simp [hnil], nofun, by simp [hnil]⟩
  | cons f fs =>
    rw [hframes] at h
    generalize hn : c.results.length = n at h
    cases h with
    | push below waits range =>
      refine .of_top (c := c.transfer t) hframes below range ?_ nofun fun _ hp => ?_
      · exact (Nat.le_add_right _ _).trans_eq hn.symm
      · rw [hp] at waits
        cases waits

/-- A new frame on top. -/
theorem Level.frame (h : Piled c.frames c.results.length) (hc : c.control = none) (code : Code)
    (id : Nat) (op : Op) (scopes : Chain) :
    Level { c with
      scopes
      frames := ⟨code, id, op.firstPhase, c.results.length, c.scopes.length, none⟩ :: c.frames } := by
  have hdue := op.due_firstPhase
  refine .of_top rfl h (fun next hnext => ?_) le_rfl (fun _ => ?_) (absurd hc)
  · rw [show op.firstPhase = .operands next from hnext] at hdue
    rw [show next = 0 from hdue]
    exact Nat.zero_le _
  · show _ = c.results.length + op.firstPhase.due
    rw [hdue]
    rfl

end Context

/-! ## Starting a node -/

section

variable {mode : LambdaKind}

/-- Starting a node above frames that wait for it. -/
theorem enter_above {code : Code} {id : Nat} {c : Context} (h : Piled c.frames c.results.length)
    (hc : c.control = none) :
    (enter mode code id c : Run σ Context).Gives (Context.Above c.frames c.results) := by
  -- a node gives its value at once, transfers control, or gets a frame
  have hpush (v : Value) : (c.push v).Above c.frames c.results :=
    ⟨.push h hc v, .inl rfl, List.suffix_cons _ _⟩
  have htransfer (t : Transfer) : (c.transfer t).Above c.frames c.results :=
    ⟨.transfer h t, .inl rfl, List.suffix_refl _⟩
  have hframe {op : Op} (hop : (code.node id).op = op) (scopes : Chain) :
      Context.Above c.frames c.results
        { c with
          scopes
          frames := ⟨code, id, op.firstPhase, c.results.length, c.scopes.length, none⟩ ::
            c.frames } :=
    ⟨.frame h hc code id op scopes, .inr ⟨_, congrArg Op.firstPhase hop.symm, rfl⟩,
      List.suffix_refl _⟩
  cases hop : (code.node id).op with
  | constant v =>
    simp only [enter, hop]
    exact .pure (hpush v)
  | var x =>
    simp only [enter, hop]
    refine .after fun r => ?_
    split
    · exact .pure (hpush _)
    · exact .throw
  | lambda t =>
    simp only [enter, hop]
    exact .after fun r => .pure (hpush _)
  | rethrow =>
    simp only [enter, hop]
    split
    · exact .pure (htransfer _)
    · exact .throw
  | yieldBreak =>
    simp only [enter, hop]
    exact .ite (.pure (htransfer _)) .throw
  | block vars =>
    simp only [enter, hop]
    exact .ite (.pure (hframe hop _))
      (.after fun s => .pure (hframe hop _))
  | _ =>
    simp only [enter, hop]
    exact .pure (hframe hop _)

/-- A block does not start as a try does. -/
theorem enter_block_above {code : Code} {id : Nat} {c : Context}
    (h : Piled c.frames c.results.length) (hc : c.control = none)
    (hop : (code.node id).op.isBlock = true) :
    (enter mode code id c : Run σ Context).Gives fun c' =>
      c'.Above c.frames c.results ∧ ∀ f ∈ c'.frames.head?, f.phase ≠ .guarded := by
  refine fun w c' w' hc' => ⟨enter_above h hc w c' w' hc', ?_⟩
  revert hc'
  cases hblock : (code.node id).op with
  | block vars =>
    suffices hhead : (enter mode code id c : Run σ Context).Gives fun c' =>
        ∀ f ∈ c'.frames.head?, f.phase ≠ .guarded from hhead w c' w'
    simp only [enter, hblock]
    split
    · exact .pure (by simp [Op.firstPhase])
    · exact .after fun s => .pure (by simp [Op.firstPhase])
  | _ =>
    rw [hblock] at hop
    cases hop

/-- A transfer starts at the top frame. -/
theorem Context.Level.raise {c : Context} (h : c.Level)
    (hbegun : ∀ f ∈ c.frames.head?, f.phase ≠ .guarded) (t : Transfer) : (c.transfer t).Level :=
  ⟨h.below, h.above, nofun, fun _ => hbegun⟩

/-- The child in a slot is the one that the frame lists. -/
theorem getElem?_of_child {f : Frame} {slot child : Nat} (h : f.code.child f.node slot = .ok child) :
    f.children[slot]? = some child := by
  unfold Code.child at h
  split at h
  · rename_i hchild
    cases h
    exact hchild
  · cases h

end

/-! ## The top frame -/

/-- A context without a transfer in flight: its top frame, the results below the frame's base, and
the number of results that are the frame's own. -/
structure Topped (c : Context) (f : Frame) (fs : List Frame) (rs : List Value) (n : Nat) :
    Prop where
  frames : c.frames = f :: fs
  control : c.control = none
  below : Piled fs f.base
  range : f.InRange
  base : rs.length = f.base
  results : ∃ own, own.length = n ∧ c.results = own ++ rs

/-- A step leads to a level context. -/
def Progress.Stands (fs : List Frame) (rs : List Value) : Progress → Prop
  | .running c => c.Stands fs rs
  | .halted h c => h.pauses = true → c.Stands fs rs

namespace Topped

variable {c : Context} {f : Frame} {fs : List Frame} {rs : List Value} {n : Nat}
  {mode : LambdaKind}

/-- The last result is taken. -/
theorem pop (h : Topped c f fs rs (n + 1)) : Topped c.pop f fs rs n := by
  obtain ⟨own, hown, hresults⟩ := h.results
  obtain ⟨v, own, rfl⟩ := List.exists_cons_of_length_eq_add_one hown
  refine ⟨h.frames, h.control, h.below, h.range, h.base, own, Nat.succ.inj hown, ?_⟩
  rw [Context.pop, hresults, List.cons_append, List.tail_cons]

section

variable (h : Topped c f fs rs n)
include h

/-- The results are those below the frame and its own. -/
theorem height : c.results.length = f.base + n := by
  obtain ⟨own, hown, hresults⟩ := h.results
  rw [hresults, List.length_append, hown, h.base, Nat.add_comm]

/-- Cutting back to the frame's base drops its own results. -/
theorem truncateResults : Coroutine.truncateResults c.results f.base = rs := by
  obtain ⟨own, -, hresults⟩ := h.results
  rw [hresults, ← h.base, truncateResults_append]

/-- Dropping all results of the frame. -/
theorem truncate (scopes : Chain) :
    Topped { c with results := Coroutine.truncateResults c.results f.base, scopes } f fs rs 0 :=
  ⟨h.frames, h.control, h.below, h.range, h.base, [], rfl, h.truncateResults⟩

/-- What is left when the frame goes. -/
theorem popFrame :
    c.popFrame.frames = fs ∧ c.popFrame.control = none ∧ c.popFrame.results = rs := by
  have hresults : c.popFrame.results = Coroutine.truncateResults c.results f.base := by
    simp [Context.popFrame, h.frames]
  obtain ⟨hframes, -, hcontrol⟩ := Context.popFrame_eq h.frames
  exact ⟨hframes, hcontrol.trans h.control, hresults.trans h.truncateResults⟩

/-- The frame is done. -/
theorem complete (v : Value) : (c.complete v).Stands (f :: fs) rs := by
  obtain ⟨hframes, hcontrol, hresults⟩ := h.popFrame
  refine ⟨.push ?_ hcontrol v, ?_, ?_⟩
  · rw [hframes, hresults, h.base]
    exact h.below
  · rw [Context.complete, show (c.popFrame.push v).frames = c.popFrame.frames from rfl, hframes]
    exact .gone
  · rw [Context.complete, Context.push, hresults]
    exact List.suffix_cons _ _

/-- A transfer passes the frame. -/
theorem pass (t : Transfer) : (c.popFrame.transfer t).Stands (f :: fs) rs := by
  obtain ⟨hframes, hcontrol, hresults⟩ := h.popFrame
  refine ⟨.transfer ?_ t, ?_, ?_⟩
  · rw [hframes, hresults, h.base]
    exact h.below
  · rw [show (c.popFrame.transfer t).frames = c.popFrame.frames from rfl, hframes]
    exact .gone
  · rw [show (c.popFrame.transfer t).results = c.popFrame.results from rfl, hresults]

/-- The results below the frame are still there. -/
theorem suffix : rs <:+ c.results := by
  obtain ⟨own, -, hresults⟩ := h.results
  rw [hresults]
  exact List.suffix_append own rs

/-- A transfer starts at the frame. -/
theorem raise (hphase : f.phase ≠ .guarded) (t : Transfer) :
    (c.transfer t).Stands (f :: fs) rs := by
  refine ⟨.of_top h.frames h.below h.range ?_ nofun fun _ => hphase, ?_, h.suffix⟩
  · rw [show (c.transfer t).results = c.results from rfl, h.height]
    exact Nat.le_add_right _ _
  · rw [show (c.transfer t).frames = f :: fs from h.frames]
    exact .stays (.phase f f.phase)

/-- A frame is done, or throws. -/
theorem finish (hphase : f.phase ≠ .guarded) (r : Outcome) : (c.finish r).Stands (f :: fs) rs := by
  cases r with
  | ok v => exact h.complete v
  | error e => exact h.raise hphase _

/-- The frame goes on to another phase. -/
theorem setPhase {p : Phase} (hn : n = p.due) (hp : ∀ next, p ≠ .operands next) :
    (c.setPhase p).Stands (f :: fs) rs := by
  have hframes := Context.frames_setPhase h.frames p
  have hheight : (c.setPhase p).results.length = f.base + p.due := by
    rw [Context.results_setPhase, h.height, hn]
  refine ⟨.of_top hframes h.below (.of_ne hp) ?_ (fun _ => hheight) fun hne => ?_, ?_, ?_⟩
  · rw [hheight]
    exact Nat.le_add_right _ _
  · exact absurd ((c.control_setPhase p).trans h.control) hne
  · rw [hframes]
    exact .stays (.phase f p)
  · rw [Context.results_setPhase]
    exact h.suffix

/-- In its next phase the frame waits for a child. -/
theorem waits {p : Phase} (hn : n = p.kept) (hp : p.due = p.kept + 1)
    (hrange : Frame.InRange { f with phase := p }) :
    Piled (c.setPhase p).frames (c.setPhase p).results.length := by
  rw [Context.frames_setPhase h.frames p, Context.results_setPhase, h.height, hn]
  exact .push (f := { f with phase := p }) h.below hp hrange

/-- The frame starts a child, and waits for it in its next phase. -/
theorem enter_over {p : Phase} (hn : n = p.kept) (hp : p.due = p.kept + 1)
    (hrange : Frame.InRange { f with phase := p }) (id : Nat) :
    (Coroutine.enter mode f.code id (c.setPhase p) : Run σ Context).Gives
      (Context.Above ({ f with phase := p } :: fs) c.results) := by
  have habove : (Coroutine.enter mode f.code id (c.setPhase p) : Run σ Context).Gives _ :=
    enter_above (h.waits hn hp hrange) ((c.control_setPhase p).trans h.control)
  rwa [Context.frames_setPhase h.frames p, Context.results_setPhase] at habove

/-- A child gets a frame above the one that waits for it. -/
theorem enterChild_over {p : Phase} (hn : n = p.kept) (hp : p.due = p.kept + 1)
    (hnext : ∀ next, p ≠ .operands next) (slot : Nat) :
    (Coroutine.enterChild mode f slot (c.setPhase p) : Run σ Context).Gives
      (Context.Above ({ f with phase := p } :: fs) c.results) :=
  (Run.Gives.ofBuild _).bind fun child _ => h.enter_over hn hp (.of_ne hnext) child

/-- A child starts: one result more is due than has been kept. -/
theorem enter {p : Phase} (hn : n = p.kept) (hp : p.due = p.kept + 1)
    (hrange : Frame.InRange { f with phase := p }) (id : Nat) :
    (Coroutine.enter mode f.code id (c.setPhase p) : Run σ Context).Gives
      (Context.Stands (f :: fs) rs) :=
  (h.enter_over hn hp hrange id).mono fun _ hc => hc.stands (.phase f p) h.suffix

/-- The child in a slot starts: one result more is due than has been kept. -/
theorem enterChild {p : Phase} (hn : n = p.kept) (hp : p.due = p.kept + 1)
    (hnext : ∀ next, p ≠ .operands next) (slot : Nat) :
    (Coroutine.enterChild mode f slot (c.setPhase p) : Run σ Context).Gives
      (Context.Stands (f :: fs) rs) :=
  (h.enterChild_over hn hp hnext slot).mono fun _ hc => hc.stands (.phase f p) h.suffix

/-- The cleanup runs above the frame. -/
theorem startCleanup_over (slot : Nat) (deferred : Completion) :
    (Coroutine.startCleanup mode f slot deferred c : Run σ Context).Gives
      (Context.Above ({ f with phase := .inCleanup deferred } :: fs) rs) := by
  have htop : Topped (c.reset f) f fs rs 0 := h.truncate (c.scopes.truncate f.depth)
  rw [← show (c.reset f).results = rs from h.truncateResults]
  exact htop.enterChild_over (p := .inCleanup deferred) rfl rfl nofun slot

/-- The handler runs above the frame. -/
theorem startHandler_over (handler : HandlerSlots) (e : Exception) :
    (Coroutine.startHandler mode f handler e c : Run σ Context).Gives
      (Context.Above ({ f with phase := .inHandler e } :: fs) rs) := by
  have htop : Topped (c.reset f) f fs rs 0 := h.truncate (c.scopes.truncate f.depth)
  have hresults : (c.reset f).results = rs := h.truncateResults
  unfold Coroutine.startHandler
  split
  · rw [← hresults]
    exact htop.enterChild_over (p := .inHandler e) rfl rfl nofun handler.body
  · refine .after fun s => ?_
    refine (Run.Gives.ofBuild _).bind fun child _ => ?_
    have hpiled := htop.waits (p := .inHandler e) rfl rfl (.of_ne nofun)
    have habove : (Coroutine.enter mode f.code child { (c.reset f).setPhase (.inHandler e) with
        scopes := s :: ((c.reset f).setPhase (.inHandler e)).scopes } : Run σ Context).Gives _ :=
      enter_above hpiled ((Context.control_setPhase _ _).trans htop.control)
    dsimp only at habove
    rwa [Context.frames_setPhase htop.frames, Context.results_setPhase, hresults] at habove ⊢

/-- The cleanup of a guarded node starts at its base. -/
theorem startCleanup (slot : Nat) (deferred : Completion) :
    (Coroutine.startCleanup mode f slot deferred c : Run σ Context).Gives
      (Context.Stands (f :: fs) rs) :=
  (h.startCleanup_over slot deferred).mono fun _ hc => hc.stands (.phase f _) (List.suffix_refl _)

/-- A handler starts at the base of its node. -/
theorem startHandler (handler : HandlerSlots) (e : Exception) :
    (Coroutine.startHandler mode f handler e c : Run σ Context).Gives
      (Context.Stands (f :: fs) rs) :=
  (h.startHandler_over handler e).mono fun _ hc => hc.stands (.phase f _) (List.suffix_refl _)

/-- A transfer passes a frame, or starts its cleanup. -/
theorem leave (t : Transfer) :
    (Coroutine.leave mode f t c : Run σ Context).Gives (Context.Stands (f :: fs) rs) := by
  unfold Coroutine.leave
  split
  · exact h.startCleanup _ _
  · exact .pure (h.pass t)

end

/-! ### Applying a node -/

/-- A closure is called: its value will be the frame's result. -/
theorem invoke (h : Topped c f fs rs 0) (hphase : f.phase ≠ .guarded) (hop : f.op = .invoke)
    (args : List Value) :
    (Coroutine.invoke mode c args : Run σ Context).Gives (Context.Stands (f :: fs) rs) := by
  unfold Coroutine.invoke
  split
  · refine .after fun cl => ?_
    simp only
    split
    · exact .throw
    · refine .after fun s => ?_
      rw [h.frames]
      -- the frame keeps nothing while the closure runs
      have hpiled : Piled ({ f with phase := .inClosure, saved := some c.scopes } :: fs)
          c.results.length := by
        rw [h.height]
        exact .push (f := { f with phase := .inClosure, saved := some c.scopes }) h.below rfl
          (.of_ne nofun)
      exact (enter_above (c := { c with
        scopes := s :: cl.captured
        frames := { f with phase := .inClosure, saved := some c.scopes } :: fs })
        hpiled h.control).mono fun c' hc' =>
          hc'.stands ⟨.inClosure, some c.scopes, rfl, .inr hop⟩ h.suffix
  · exact .after fun e =>
      .pure (h.raise hphase _)

/-- A node is applied to all its operands, which are taken off the stack. -/
theorem apply (h : Topped c f fs rs 0) {next : Nat} (hphase : f.phase = .operands next)
    (args : List Value) :
    (Coroutine.apply env mode f args c).Gives (Context.Stands (f :: fs) rs) := by
  have hne : f.phase ≠ .guarded := by
    rw [hphase]
    nofun
  have hattempt (e : Effect σ Value) :
      ((do return c.finish (← Run.attempt e)) : Run σ Context).Gives (Context.Stands (f :: fs) rs) :=
    .after fun r => .pure (h.finish hne r)
  cases hop : f.op with
  | assign x =>
    simp only [Coroutine.apply, hop]
    refine .after fun r => ?_
    split
    · exact .pure (h.complete _)
    · exact .throw
  | binary b =>
    simp only [Coroutine.apply, hop]
    exact hattempt _
  | unary b =>
    simp only [Coroutine.apply, hop]
    exact hattempt _
  | call name =>
    simp only [Coroutine.apply, hop]
    exact hattempt _
  | throw =>
    simp only [Coroutine.apply, hop]
    exact .after fun e => .pure (h.raise hne _)
  | goto label hasValue r =>
    simp only [Coroutine.apply, hop]
    exact .pure (h.raise hne _)
  | label l =>
    simp only [Coroutine.apply, hop]
    exact .pure (h.complete _)
  | invoke =>
    simp only [Coroutine.apply, hop]
    exact h.invoke hne hop args
  | constant | var | lambda | block | condition | switch | loop | tryCatch | rethrow | await
  | yieldReturn | yieldBreak =>
    simp only [Coroutine.apply, hop]
    exact .throw

/-! ### Jumps -/

/-- A jump goes on after its label. -/
theorem goOn (h : Topped c f fs rs 0) (slot : Nat) (hasScope : Bool) (v : Value) :
    (if slot + 1 < f.children.length then pure (c.setPhase (.statement (slot + 1) hasScope))
      else pure (c.complete v) : Run σ Context).Gives (Context.Stands (f :: fs) rs) := by
  split
  · exact .pure (h.setPhase rfl nofun)
  · exact .pure (h.complete v)

/-- A jump goes down into the next block on its way. -/
theorem descend (h : Topped c f fs rs 0) {slot : Nat} (hasScope : Bool)
    (hblock : ∀ child, f.children[slot]? = some child → (f.code.node child).op.isBlock = true)
    (t : Nat → Transfer) :
    (do
      let child ← Run.ofBuild (f.code.child f.node slot)
      let c ← Coroutine.enter mode f.code child (c.setPhase (.statementDone slot hasScope))
      return c.transfer (t child) : Run σ Context).Gives (Context.Stands (f :: fs) rs) := by
  refine (Run.Gives.ofBuild _).bind fun child hchild => ?_
  have hop := hblock child (getElem?_of_child hchild)
  have hpiled := h.waits (p := .statementDone slot hasScope) rfl rfl (.of_ne nofun)
  have habove : (Coroutine.enter mode f.code child (c.setPhase (.statementDone slot hasScope)) :
      Run σ Context).Gives _ := enter_block_above hpiled ((c.control_setPhase _).trans h.control) hop
  rw [Context.frames_setPhase h.frames, Context.results_setPhase] at habove
  refine habove.bind ?_
  rintro c' ⟨hc', hbegun⟩
  have hstands := hc'.stands (.phase f _) h.suffix
  exact .pure ⟨hc'.toLevel.raise hbegun _, hstands.turned, hstands.rest⟩

/-- A jump goes on in a block, towards its label. -/
theorem land (h : Topped c f fs rs n) (j : Jump) {path : List Nat} {kind : RouteKind}
    {label : Nat} (htakes : f.Takes label path kind) :
    (Coroutine.land mode f j path kind c : Run σ Context).Gives (Context.Stands (f :: fs) rs) := by
  have hblock {slot next : Nat} {rest : List Nat} (hkind : kind = .toLabel)
      (hpath : path = slot :: next :: rest) (child : Nat)
      (hchild : f.children[slot]? = some child) : (f.code.node child).op.isBlock = true := by
    subst hkind hpath
    obtain ⟨target, hleads, -⟩ := htakes
    cases hleads with
    | down hb hc hrest =>
      obtain rfl : child = _ := Option.some.inj (hchild.symm.trans hc)
      cases hrest <;> assumption
  simp only [Coroutine.land]
  split
  · exact .pure (h.complete _)
  · exact .pure (h.complete _)
  · exact .pure ((h.truncate _).setPhase rfl (by simp))
  · exact .pure ((h.truncate _).setPhase rfl (by simp))
  · split
    · exact (h.truncate _).goOn _ _ _
    · exact (h.truncate _).descend _ (hblock rfl rfl) _
  · split
    · exact (h.truncate _).goOn _ _ _
    · exact (h.truncate _).descend _ (hblock rfl rfl) _
  · exact .throw
  · exact .throw
  · exact .throw

/-- The top frame takes a transfer, or lets it pass. -/
theorem unwind (h : Topped c f fs rs n) {escapes : Nat → Prop} {t : Transfer}
    (ht : t.Arrives escapes (f :: fs)) :
    (Coroutine.unwind mode t c : Run σ Progress).Gives (Progress.Stands (f :: fs) rs) := by
  simp only [Coroutine.unwind, h.frames]
  rcases t with ⟨code, label, ⟨a, path, kind⟩ | _, v⟩ | e | v
  · obtain ⟨hcode, ⟨ha, htakes⟩ | ⟨ha, -⟩⟩ := ht
    · simp only [← hcode, ha, Code.same_self, and_self, if_true]
      exact .map (h.land _ htakes)
    · simp only [Ne.symm ha, false_and, if_false]
      exact .map (h.leave _)
  · exact .map (h.leave _)
  · dsimp only
    split
    · exact .map (h.startHandler _ e)
    · exact .map (h.leave _)
  · exact .map (h.leave _)

/-! ### Phases -/

/-- An await ends, or waits without a result. -/
theorem awaitStep (h : Topped c f fs rs 0) (hphase : f.phase ≠ .guarded) (binder : Binder)
    (configure : Bool) (v : Value) :
    (Coroutine.awaitStep env mode binder configure v c).Gives (Progress.Stands (f :: fs) rs) := by
  unfold Coroutine.awaitStep
  refine .after fun r => ?_
  split
  · exact .pure (h.raise hphase _)
  · rename_i awaiter
    refine .after fun r => ?_
    split
    · exact .pure (h.raise hphase _)
    · exact .after fun r =>
        .pure (h.finish hphase r)
    · split
      · exact .bind (P := fun _ => False) .throw fun _ hf => hf.elim
      · refine .pure fun _ => ?_
        have hstands := h.setPhase (p := .awaiting awaiter) rfl nofun
        exact ⟨⟨hstands.below, hstands.above, hstands.calm, hstands.begun⟩, hstands.turned,
          hstands.rest⟩

/-- A switch tries its next candidate, above the value it compares with. -/
theorem switchStep (h : Topped c f fs rs 1) (cases : List CaseSlots) (fallback : Option Nat)
    (i j : Nat) :
    (Coroutine.switchStep mode f cases fallback i j c : Run σ Context).Gives
      (Context.Stands (f :: fs) rs) := by
  unfold Coroutine.switchStep
  split
  · split
    · exact h.enterChild (p := .armDone) rfl rfl nofun _
    · exact .pure (h.complete _)
  · split
    · exact .pure (h.setPhase rfl nofun)
    · exact h.enterChild (p := .candidateDone i j) rfl rfl nofun _

/-- The top frame goes on by one phase. -/
theorem advance {p : Phase} (hphase : f.phase = p) (h : Topped c f fs rs p.due) :
    (Coroutine.advance env mode f c).Gives (Progress.Stands (f :: fs) rs) := by
  -- above the base of the frame lie exactly the results that its phase says are due
  cases p with
  | operands next =>
    simp only [Coroutine.advance, hphase]
    split
    · rename_i child hchild
      have hlt : next < f.children.length := (List.getElem?_eq_some_iff.1 hchild).1
      refine .map (h.enter rfl rfl ?_ child)
      intro k hk
      cases hk
      exact hlt
    · exact .map ((h.truncate c.scopes).apply hphase _)
  | left | test | subject | iteration | guarded | awaitable | yielding =>
    simp only [Coroutine.advance, hphase]
    exact .map (h.enterChild rfl rfl (by simp) 0)
  | rightDone | branchDone | armDone | inClosure =>
    simp only [Coroutine.advance, hphase]
    exact .pure (h.pop.complete _)
  | leftDone =>
    simp only [Coroutine.advance, hphase]
    exact .ite (.pure (h.pop.complete _))
      (.map (h.pop.enterChild (p := .rightDone) rfl rfl (by simp) 1))
  | statement index hasScope =>
    simp only [Coroutine.advance, hphase]
    split
    · exact .pure (h.complete _)
    · exact .map (h.enter (p := .statementDone index hasScope) rfl rfl (.of_ne (by simp)) _)
  | statementDone index hasScope =>
    simp only [Coroutine.advance, hphase]
    split
    · exact .pure (h.pop.setPhase rfl (by simp))
    · exact .pure (h.pop.complete _)
  | testDone =>
    simp only [Coroutine.advance, hphase]
    exact .ite (.map (h.pop.enterChild (p := .branchDone) rfl rfl (by simp) 1))
      (.ite (.map (h.pop.enterChild (p := .branchDone) rfl rfl (by simp) 2))
        (.pure (h.pop.complete _)))
  | candidate i j =>
    simp only [Coroutine.advance, hphase]
    split
    · exact .map (h.switchStep _ _ i j)
    · exact .throw
  | candidateDone i j =>
    simp only [Coroutine.advance, hphase]
    split
    · split
      · split
        · exact .map (h.pop.enterChild (p := .armDone) rfl rfl (by simp) _)
        · exact .throw
      · exact .pure (h.pop.setPhase rfl (by simp))
    · exact .throw
  | iterationDone =>
    simp only [Coroutine.advance, hphase]
    exact .pure (h.pop.setPhase rfl (by simp))
  | inBody | inHandler e =>
    simp only [Coroutine.advance, hphase]
    split
    · exact .map (h.pop.startCleanup _ _)
    · exact .pure (h.pop.complete _)
  | inCleanup deferred =>
    simp only [Coroutine.advance, hphase]
    cases deferred with
    | value v => exact .pure (h.pop.complete v)
    | abrupt t => exact .pure (h.pop.pass t)
  | awaitableDone =>
    have hne : f.phase ≠ .guarded := by simp [hphase]
    simp only [Coroutine.advance, hphase]
    split
    · exact h.pop.awaitStep hne _ _ _
    · exact .throw
  | awaiting awaiter =>
    have hne : f.phase ≠ .guarded := by simp [hphase]
    simp only [Coroutine.advance, hphase]
    split
    · exact .after fun r =>
        .pure (h.finish hne r)
    · exact .throw
  | yieldDone =>
    simp only [Coroutine.advance, hphase]
    split
    · refine .pure fun _ => ?_
      have hstands := h.pop.setPhase (p := .yielded) rfl (by simp)
      exact ⟨⟨hstands.below, hstands.above, hstands.calm, hstands.begun⟩, hstands.turned,
          hstands.rest⟩
    · exact .throw
  | yielded =>
    simp only [Coroutine.advance, hphase]
    exact .pure (h.complete _)

end Topped

/-! ## Steps -/

/-- The results below the base of the top frame. -/
def Context.lowerResults (c : Context) : List Value :=
  match c.frames with
  | [] => []
  | f :: _ => truncateResults c.results f.base

/-- The top frame of a level context, once the transfer in flight is put aside. -/
theorem Context.Level.topped {c : Context} (h : c.Level) {f : Frame} {fs : List Frame}
    (hframes : c.frames = f :: fs) :
    Topped { c with control := none } f fs c.lowerResults (c.results.length - f.base) := by
  obtain ⟨hbelow, hrange⟩ := h.below f fs hframes
  have hbase := h.above f (by rw [hframes]; rfl)
  have hlower : c.lowerResults = c.results.drop (c.results.length - f.base) := by
    rw [Context.lowerResults, hframes]
    rfl
  refine ⟨hframes, rfl, hbelow, hrange, ?_, c.results.take (c.results.length - f.base), ?_, ?_⟩
  · rw [hlower, List.length_drop]
    omega
  · exact List.length_take_of_le (Nat.sub_le _ _)
  · rw [hlower, List.take_append_drop]

/-- Without a transfer in flight the frame has the results that its phase says. -/
theorem Context.Level.topped_calm {c : Context} (h : c.Level) (hcontrol : c.control = none)
    {f : Frame} {fs : List Frame} (hframes : c.frames = f :: fs) :
    Topped c f fs c.lowerResults f.phase.due := by
  have htop := h.topped hframes
  have hheight := h.calm hcontrol
  rw [hframes] at hheight
  rw [show ({ c with control := none } : Context) = c by rw [← hcontrol], hheight,
    Nat.add_sub_cancel_left] at htop
  exact htop

/-- A step from a level context leads to a level context. It turns the top frame, and leaves the
results below its base as they are. -/
theorem step_level {mode : LambdaKind} {c : Context} {escapes : Nat → Prop} (h : c.Level)
    (harrives : ∀ t ∈ c.control, t.Arrives escapes c.frames) :
    (step env mode c).Gives (Progress.Stands c.frames c.lowerResults) := by
  obtain hnil | ⟨f, fs, hframes⟩ : c.frames = [] ∨ ∃ f fs, c.frames = f :: fs := by
    cases c.frames <;> simp
  · cases ht : c.control with
    | none =>
      simp only [step, ht, hnil]
      exact .pure (by simp [Progress.Stands, Halt.pauses])
    | some t =>
      simp only [step, ht, unwind, hnil]
      split
      · exact .pure (by simp [Progress.Stands, Halt.pauses])
      · exact .throw
      · exact .throw
      · exact .pure (by simp [Progress.Stands, Halt.pauses])
  · rw [hframes]
    cases ht : c.control with
    | none =>
      simp only [step, ht, hframes]
      unfold stepFrame
      split
      · exact (h.topped_calm ht hframes).advance rfl
      · exact .throw
    | some t =>
      simp only [step, ht]
      exact (h.topped hframes).unwind (hframes ▸ harrives t ht)

end Coroutine
