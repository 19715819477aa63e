import Mathlib
import Coroutine.Proofs.Ensures
import Coroutine.Proofs.Interpreter.Safety

/-!
# What steps keep

Several properties of runs ask something of an interpreter before every step: of the chains of scopes
that it uses, and of the code that runs over a chain. A `Concern` is such a demand. A frame saves the
chain it runs in when it calls a closure, so along the stack every frame has its own chain:
`Context.Keeps` is the demand on a whole context. It outlasts all that steps do to contexts.
-/

namespace Coroutine

/-! ## Demands -/

/-- What is asked of an interpreter between steps. -/
structure Concern where
  /-- Holds of the chains in use. -/
  chain : Chain → Prop := fun _ => True
  /-- Holds of code and the chain that it runs over. -/
  code : Code → Chain → Prop := fun _ _ => True
  /-- Holds of a scope that has just been made. -/
  fresh : Nat → Prop := fun _ => True
  /-- Whether only frames that have called a closure may have saved a chain. -/
  strict : Prop := False
  chain_truncate : ∀ {χ} depth, chain χ → chain (χ.truncate depth) := by intros; trivial
  chain_cons : ∀ {χ k}, fresh k → chain χ → chain (k :: χ) := by intros; trivial
  code_truncate : ∀ {e χ} depth, code e χ → code e (χ.truncate depth) := by intros; trivial
  code_cons : ∀ {e χ k}, fresh k → code e χ → code e (k :: χ) := by intros; trivial
  code_body : ∀ {e : Code} {χ id t}, code e χ → (e.node id).op = .lambda t → code t.code χ := by
    intros; trivial
  /-- Where chains may be saved at any time, it does not matter over which one code runs. -/
  code_any : ¬strict → ∀ {e χ χ'}, code e χ → code e χ' := by intros; trivial

/-! ## Frames -/

/-- What is asked of a frame and the chain in which it runs. -/
structure Frame.Keeps (K : Concern) (χ : Chain) (f : Frame) : Prop where
  code : K.code f.code χ
  saved : ∀ ξ, f.saved = some ξ → K.chain ξ
  calls : K.strict → f.saved.isSome = true → f.phase = .inClosure

/-- What is asked of the frames above a chain. -/
def Frame.AllKeep (K : Concern) : List Frame → Chain → Prop
  | [], _ => True
  | f :: fs, χ => f.Keeps K (f.saved.getD χ) ∧ Frame.AllKeep K fs (f.saved.getD χ)

namespace Frame.AllKeep

variable {K : Concern} {χ χ' : Chain} {f : Frame} {fs : List Frame}

/-- Only the frames down to the first saved chain run in the chain of the context. -/
theorem mono (hχ : ∀ e, K.code e χ → K.code e χ') :
    ∀ {fs : List Frame}, Frame.AllKeep K fs χ → Frame.AllKeep K fs χ'
  | [], _ => trivial
  | f :: fs, ⟨hf, hfs⟩ => by
    rw [Frame.AllKeep]
    cases hsaved : f.saved with
    | none =>
      rw [hsaved] at hf hfs
      exact ⟨⟨hχ _ hf.code, hf.saved, hf.calls⟩, hfs.mono hχ⟩
    | some ξ =>
      rw [hsaved] at hf hfs
      exact ⟨hf, hfs⟩

/-- A frame that has not called a closure runs in the chain of the context. -/
theorem top (h : Frame.AllKeep K (f :: fs) χ) (hphase : f.phase ≠ .inClosure) :
    f.Keeps K χ ∧ Frame.AllKeep K fs χ := by
  obtain ⟨hf, hfs⟩ := h
  cases hsaved : f.saved with
  | none =>
    rw [hsaved] at hf hfs
    exact ⟨hf, hfs⟩
  | some ξ =>
    have hloose : ¬K.strict := fun hK => hphase (hf.calls hK (by rw [hsaved]; rfl))
    exact ⟨⟨K.code_any hloose hf.code, hf.saved, hf.calls⟩, hfs.mono fun _ => K.code_any hloose⟩

end Frame.AllKeep

/-! ## Contexts -/

/-- What is asked of a context. -/
structure Context.Keeps (K : Concern) (c : Context) : Prop where
  scopes : K.chain c.scopes
  frames : Frame.AllKeep K c.frames c.scopes

/-- The top frame is not in the body of a closure. -/
def Context.Heads (c : Context) (f : Frame) : Prop :=
  f.phase ≠ .inClosure ∧ ∃ fs, c.frames = f :: fs

namespace Context.Keeps

variable {K : Concern} {c : Context} {f : Frame}

/-- A context without frames keeps to what its chain keeps to. -/
theorem initial {χ : Chain} (h : K.chain χ) : Keeps K { scopes := χ } := ⟨h, trivial⟩

variable (h : c.Keeps K)
include h

theorem push (v : Value) : (c.push v).Keeps K := ⟨h.scopes, h.frames⟩

theorem pop : c.pop.Keeps K := ⟨h.scopes, h.frames⟩

/-- Results and chain are cut back. -/
theorem truncate (height depth : Nat) : Keeps K { c with
    results := truncateResults c.results height, scopes := c.scopes.truncate depth } :=
  ⟨K.chain_truncate depth h.scopes, h.frames.mono fun _ => K.code_truncate depth⟩

/-- The chain is cut back to the base of a frame. -/
theorem reset (f : Frame) : (c.reset f).Keeps K := h.truncate f.base f.depth

/-- The code of the top frame and the chain. -/
theorem code (hf : c.Heads f) : K.code f.code c.scopes := by
  obtain ⟨hphase, fs, hframes⟩ := hf
  have hall := h.frames
  rw [hframes] at hall
  exact (hall.top hphase).1.code

/-- The top frame may go on to another phase. -/
theorem setPhase (hf : c.Heads f) (p : Phase) : (c.setPhase p).Keeps K := by
  obtain ⟨hphase, fs, hframes⟩ := hf
  have hall := h.frames
  rw [hframes] at hall
  simp only [Context.setPhase, hframes]
  refine ⟨h.scopes, ⟨hall.1.code, hall.1.saved, fun hK hsome => ?_⟩, hall.2⟩
  exact absurd (hall.1.calls hK hsome) hphase

/-- The chain is again the one that the frame saved, or the one before its scopes. -/
theorem popFrame : c.popFrame.Keeps K := by
  unfold Context.popFrame
  split
  · exact h
  · rename_i f fs hframes
    have hall := h.frames
    rw [hframes] at hall
    obtain ⟨hf, hfs⟩ := hall
    refine ⟨?_, ?_⟩
    · cases hχ : f.saved with
      | none => exact (h.truncate f.base f.depth).scopes
      | some χ => exact hf.saved χ hχ
    · refine hfs.mono fun e he => ?_
      cases hχ : f.saved with
      | none =>
        rw [hχ] at he
        exact K.code_truncate f.depth he
      | some χ =>
        rw [hχ] at he
        exact he

/-- The top frame is done. -/
theorem complete (v : Value) : (c.complete v).Keeps K := h.popFrame.push v

theorem transfer (t : Transfer) : (c.transfer t).Keeps K := ⟨h.scopes, h.frames⟩

/-- The top frame is done, or throws. -/
theorem finish (r : Outcome) : (c.finish r).Keeps K := by
  cases r with
  | ok v => exact h.complete v
  | error e => exact h.transfer _

/-- A new scope is put on top of the chain. -/
theorem declare {k : Nat} (hk : K.fresh k) : Keeps K { c with scopes := k :: c.scopes } :=
  ⟨K.chain_cons hk h.scopes, h.frames.mono fun _ => K.code_cons hk⟩

/-- A compound node gets a frame of its own. -/
theorem frame {code : Code} (hcode : K.code code c.scopes) (id : Nat) (phase : Phase)
    (base depth : Nat) :
    Keeps K { c with frames := ⟨code, id, phase, base, depth, none⟩ :: c.frames } :=
  ⟨h.scopes, ⟨hcode, nofun, nofun⟩, h.frames⟩

/-- The top frame saves the chain, and the chain of a closure takes its place. -/
theorem call (hf : c.Heads f) {χ : Chain} (hχ : K.chain χ) : Keeps K
    { c with
      scopes := χ
      frames := match c.frames with
        | [] => []
        | f :: fs => { f with phase := .inClosure, saved := some c.scopes } :: fs } := by
  obtain ⟨hphase, fs, hframes⟩ := hf
  have hall := h.frames
  rw [hframes] at hall ⊢
  obtain ⟨hf, hfs⟩ := hall.top hphase
  refine ⟨hχ, ⟨hf.code, fun ξ hξ => ?_, fun _ _ => rfl⟩, hfs⟩
  cases hξ
  exact h.scopes

end Context.Keeps

/-- What is asked of what a step leads to. -/
def Progress.Keeps (K : Concern) : Progress → Prop
  | .running c | .halted _ c => c.Keeps K

end Coroutine
