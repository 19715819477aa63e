import Mathlib

/-!
# What a computation ensures

Checking, lowering and assembly are computations with a state that may fail. `Ensures m s Q` says
that `m`, started in the state `s`, gives a result and a state with `Q` if it succeeds. The rules
follow the way such computations are put together.
-/

namespace Coroutine

variable {σ ε α β : Type}

/-- A computation in two parts succeeds if both do. -/
theorem bind_eq_ok {x : Except ε α} {f : α → Except ε β} {b : β} :
    (x >>= f) = .ok b ↔ ∃ a, x = .ok a ∧ f a = .ok b := by
  cases x <;> simp [Bind.bind, Except.bind]

/-- A value that is there was no error. -/
theorem eq_ok_of_toOption {x : Except ε α} {a : α} (h : x.toOption = some a) : x = .ok a := by
  cases x with
  | error e => cases h
  | ok b =>
    cases h
    rfl

/-- A value that came of another one. -/
theorem bind_toOption_eq_some {x : Except ε α} {f : α → Option β} {b : β}
    (h : x.toOption.bind f = some b) : ∃ a, x = .ok a ∧ f a = some b := by
  obtain ⟨a, ha, hb⟩ := Option.bind_eq_some_iff.1 h
  exact ⟨a, eq_ok_of_toOption ha, hb⟩

/-- A value that is not there was an error. -/
theorem eq_error_of_toOption {x : Except ε α} (h : x.toOption = none) : ∃ e, x = .error e := by
  cases x with
  | error e => exact ⟨e, rfl⟩
  | ok a => cases h

/-- If a computation succeeds from a state, its result and the state it leaves have a property. -/
def Ensures (m : StateT σ (Except ε) α) (s : σ) (Q : α → σ → Prop) : Prop :=
  ∀ a s', m s = .ok (a, s') → Q a s'

namespace Ensures

variable {m : StateT σ (Except ε) α} {s : σ} {Q R : α → σ → Prop}

/-- What is ensured may be weakened. -/
theorem mono (h : Ensures m s Q) (hQR : ∀ a s', Q a s' → R a s') : Ensures m s R :=
  fun a s' hm => hQR a s' (h a s' hm)

/-- A value is the result, and nothing has changed. -/
theorem pure {a : α} (h : Q a s) : Ensures (pure a : StateT σ (Except ε) α) s Q := by
  intro b s' hm
  cases hm
  exact h

/-- A computation that fails ensures anything. -/
theorem throw {e : ε} : Ensures (throw e : StateT σ (Except ε) α) s Q := by
  intro a s' hm
  cases hm

/-- What the second part ensures from wherever the first one leads. -/
theorem bind {f : α → StateT σ (Except ε) β} {R : β → σ → Prop}
    (h : Ensures m s fun a s' => Ensures (f a) s' R) : Ensures (m >>= f) s R := by
  intro b s' hm
  cases hs : m s with
  | error e => simp [Bind.bind, StateT.bind, Except.bind, hs] at hm
  | ok r =>
    refine h r.1 r.2 hs b s' ?_
    simpa [Bind.bind, StateT.bind, Except.bind, hs] using hm

/-- The state is looked at. -/
theorem get {R : σ → σ → Prop} (h : R s s) :
    Ensures (MonadState.get : StateT σ (Except ε) σ) s R := by
  intro a s' hm
  cases hm
  exact h

/-- The state is changed. -/
theorem modify {f : σ → σ} {R : PUnit → σ → Prop} (h : R ⟨⟩ (f s)) :
    Ensures (modify f : StateT σ (Except ε) PUnit) s R := by
  intro a s' hm
  cases hm
  exact h

/-- A computation without state inside one with a state. -/
theorem lift {r : Except ε α} (h : ∀ a, r = .ok a → Q a s) :
    Ensures (MonadLift.monadLift r : StateT σ (Except ε) α) s Q := by
  intro a s' hm
  cases hr : r with
  | error e => rw [hr] at hm; cases hm
  | ok b =>
    rw [hr] at hm
    cases hm
    exact h a hr

end Ensures

end Coroutine
