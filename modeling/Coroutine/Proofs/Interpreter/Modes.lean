import Mathlib
import Coroutine.Proofs.Interpreter.Walk

/-!
# Code that does not suspend runs alike in all modes

The kind of the lambda that code runs as only matters where it suspends: a run as a plain function
breaks down there, and does the same as any other run until then (`Run.Covered`). Sound code never
breaks down, so without suspend points it runs alike in all modes: `start_mode`.
-/

namespace Coroutine

variable {σ α : Type}

/-- A part of a run does in a mode what it does in the plain one, unless it cannot suspend there. -/
def Run.Covered (m : LambdaKind → Run σ α) (w : World σ) : Prop :=
  ∀ mode, m mode w = m .sync w ∨ ∃ why, (m .sync w).1 = .error (.cannotSuspend why)

/-- What does not break down does the same in all modes. -/
theorem Run.Covered.eq_of_safe {m : LambdaKind → Run σ α} {w : World σ} {P : α → World σ → Prop}
    (h : Run.Covered m w) (hsafe : (m .sync).Safe w P) (mode : LambdaKind) :
    m mode w = m .sync w := by
  rcases h mode with heq | ⟨why, hwhy⟩
  · exact heq
  · have hr := hsafe.2
    rw [hwhy] at hr
    cases hr

/-- All parts of steps do the same in all modes, unless they cannot suspend. -/
def Env.covered (env : Env σ) : Concern.Logic {} env where
  Runs _ m w _ := Run.Covered m w
  Host _ := True
  ret _ _ := .inl rfl
  fail _ _ := .inl rfl
  bind {α β pre w P Q m f} h hf mode := by
    dsimp only
    rw [exceptState_bind, exceptState_bind]
    rcases h mode with heq | ⟨why, hwhy⟩
    · rw [heq]
      rcases m .sync w with ⟨_ | a, w'⟩
      · exact .inl rfl
      · exact hf a w' mode
    · rcases hm : m .sync w with ⟨r, w'⟩
      rw [hm] at hwhy
      obtain rfl : r = .error (.cannotSuspend why) := hwhy
      exact .inr ⟨why, rfl⟩
  suspend {α pre w P a kind why} hkind _ _ := by
    dsimp only
    rw [if_neg hkind.symm]
    exact .inr ⟨why, rfl⟩
  lookup _ _ _ := .inl rfl
  assign _ _ _ _ _ := .inl rfl
  newScope _ _ := .inl rfl
  newClosure _ _ _ := .inl rfl
  closure _ _ := .inl rfl
  raise _ _ := .inl rfl
  asException _ _ := .inl rfl
  attempt _ _ _ := .inl rfl
  ofFault _ := trivial
  call _ _ := trivial
  getAwaiter _ _ _ := trivial
  isCompleted _ _ := trivial
  getResult _ _ := trivial

/-! ## Runs -/

section

variable {env : Env σ} {w : World σ} {escapes : Nat → Prop} {χ : Chain} {c : Context}
  {limit : Option Nat} {code : Code} {s : Setting}

theorem iterate_mode (henv : env.Tame) (mode : LambdaKind) (fuel steps : Nat) (hw : w.Sound)
    (h : c.Sound ⟨.sync, escapes, χ⟩ w) :
    iterate env mode limit fuel steps c w = iterate env .sync limit fuel steps c w := by
  induction fuel generalizing steps c w with
  | zero => rfl
  | succ fuel ih =>
    have hsafe : (step env .sync c).Safe w (Progress.Sound ⟨.sync, escapes, χ⟩) :=
      step_safe (T := ⟨.sync, escapes, χ⟩) henv hw h
    have hstep : Run.Covered (fun mode => step env mode c) w :=
      env.covered.step (fun h : False => h.elim) False.elim
    rw [iterate, iterate, show step env mode c w = _ from hstep.eq_of_safe hsafe mode]
    obtain ⟨hk, hstep⟩ := hsafe
    split
    · rfl
    · rcases hm : step env .sync c w with ⟨r, w₁⟩
      rw [hm] at hk hstep
      cases r with
      | error e => rfl
      | ok progress =>
        cases progress with
        | halted halt c₁ => rfl
        | running c₁ => exact ih (steps + 1) hk.sound hstep

/-- Sound code that does not suspend runs as a lambda of any kind as it does as a plain function. -/
theorem start_mode (henv : env.Tame) (mode : LambdaKind) (fuel : Nat) (hw : w.Sound)
    (hcode : code.Sound escapes s) (hwaits : s.waits = false) (hhandling : s.handling = false)
    (hbinds : w.Binds χ s) : start env mode limit fuel code { scopes := χ } w =
      start env .sync limit fuel code { scopes := χ } w := by
  have hsafe : (enter .sync code Code.root { scopes := χ }).Safe w
      fun c' w' => c'.Sound ⟨.sync, escapes, χ⟩ w' :=
    (Ready.root hw hcode hwaits hhandling hbinds).enter
  have henter : Run.Covered (fun mode => enter mode code Code.root { scopes := χ }) w :=
    env.covered.enter (fun h : False => h.elim) False.elim Code.root
  rw [start, start, show enter mode code Code.root _ w = _ from henter.eq_of_safe hsafe mode]
  obtain ⟨hk, hc⟩ := hsafe
  rcases hm : enter .sync code Code.root { scopes := χ } w with ⟨_ | c₁, w₁⟩
  · rfl
  · rw [hm] at hk hc
    exact iterate_mode henv mode fuel 0 hk.sound hc

end

end Coroutine
