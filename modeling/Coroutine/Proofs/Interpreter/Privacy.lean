import Mathlib
import Coroutine.Proofs.Code.Rules
import Coroutine.Proofs.Interpreter.Walk

/-!
# Variables that are set apart

A `Reserve` is a scope with some variables that programs do not assign. The code that runs over a
chain with this scope keeps to that (`Reserve.concern`), and so does the code of closures that captured
the scope (`World.Minds`). All parts of a step leave the variables as they are (`Reserve.sparing`), and
so does a whole evaluation: `evaluate_spares`.
-/

namespace Coroutine

variable {σ α β : Type} {χ : Chain}

/-- Variables of one scope that are set apart, by their words. -/
structure Reserve where
  scope : Nat
  held : Nat → Prop

/-- What code has to keep to that sees the scope. -/
def Reserve.rules (v : Reserve) : Rules := ⟨fun i => ¬v.held (word i), True, True⟩

/-! ## Worlds -/

namespace World

variable {v : Reserve} {w w' w'' : World σ}

/-- The scope is there, and closures that see it keep to the rules. -/
structure Minds (v : Reserve) (w : World σ) : Prop where
  lt : v.scope < w.scopes.size
  closures : ∀ k, v.scope ∈ (w.closure k).captured → (w.closure k).template.code.Obeys v.rules

/-- What is set apart keeps its values. -/
structure Spares (v : Reserve) (w w' : World σ) : Prop where
  minds : w'.Minds v
  kept : ∀ i, v.held i → (w'.scope v.scope).get? i = (w.scope v.scope).get? i

/-- What is spared twice is spared. -/
theorem Spares.trans (h : w.Spares v w') (h' : w'.Spares v w'') : w.Spares v w'' :=
  ⟨h'.minds, fun i hi => (h'.kept i hi).trans (h.kept i hi)⟩

/-- Assigning over a chain leaves all other variables as they are. -/
theorem get?_assign (w : World σ) {k x i : Nat} (hx : k ∈ χ → i ≠ x) (a : Value) :
    ((w.assign χ x a).2.scope k).get? i = (w.scope k).get? i := by
  unfold World.assign
  split
  · rename_i l hl
    have hmem : l ∈ χ := List.mem_of_find?_eq_some hl
    rw [scope_modifyScope w l _ _ rfl]
    split
    · rename_i heq
      rw [Scope.get?_set, if_neg (hx (heq ▸ hmem))]
    · rfl
  · rfl

namespace Minds

variable (h : w.Minds v)
include h

/-- A world spares what it sets apart. -/
theorem refl : w.Spares v w := ⟨h, fun _ _ => rfl⟩

/-- What leaves scopes and closures alone spares what is set apart. -/
theorem quiet (hq : w.Quiet w') : w.Spares v w' := by
  obtain ⟨hs, hc⟩ := hq
  refine ⟨⟨hs ▸ h.lt, fun k => ?_⟩, fun i _ => ?_⟩
  · rw [closure, hc]
    exact h.closures k
  · rw [scope, scope, hs]

/-- Raising a fault spares what is set apart. -/
theorem raise (f : Fault) : w.Spares v (w.raise f).2 := h.quiet ⟨rfl, rfl⟩

/-- Making an exception of a value spares what is set apart. -/
theorem asException (a : Value) : w.Spares v (w.asException a).2 := by
  unfold World.asException
  split
  · exact h.refl
  · exact h.raise _

/-- A new scope is not the one in question. -/
theorem newScope (sc : Scope) : w.Spares v (w.newScope sc).2 := by
  refine ⟨⟨?_, h.closures⟩, fun i _ => ?_⟩
  · rw [World.newScope, Array.size_push]
    exact h.lt.trans (Nat.lt_succ_self _)
  · rw [scope_newScope, if_neg h.lt.ne]

/-- A new scope is another one. -/
theorem ne_newScope (sc : Scope) : v.scope ≠ (w.newScope sc).1 := h.lt.ne

/-- An assignment changes no closure. -/
theorem assign (χ : Chain) (x : Nat) (a : Value) : (w.assign χ x a).2.Minds v := by
  unfold World.assign
  split
  · refine ⟨?_, h.closures⟩
    rw [modifyScope, Array.size_modify]
    exact h.lt
  · exact h

/-- Assigning over a chain is all right unless it reaches what is set apart. -/
theorem spares_assign {x : Nat} (hx : v.scope ∈ χ → ¬v.held x) (a : Value) :
    w.Spares v (w.assign χ x a).2 := by
  refine ⟨h.assign χ x a, fun i hi => w.get?_assign (fun hmem => ?_) a⟩
  rintro rfl
  exact hx hmem hi

/-- A new closure keeps to the rules if it captures the scope. -/
theorem newClosure {t : Template} (ht : v.scope ∈ χ → t.code.Obeys v.rules) :
    w.Spares v (w.newClosure t χ).2 := by
  refine ⟨⟨h.lt, fun k => ?_⟩, fun _ _ => rfl⟩
  rw [closure_newClosure]
  split
  · exact ht
  · exact h.closures k

end Minds

end World

/-! ## Hosts -/

/-- An effect that leaves alone what is set apart. -/
def Effect.Spares (v : Reserve) (e : Effect σ α) : Prop :=
  ∀ w : World σ, w.Minds v → w.Spares v (e.perform w).2

/-- An effect that leaves scopes and closures alone spares what is set apart. -/
theorem Effect.Quiet.spares {e : Effect σ α} (h : e.Quiet) (v : Reserve) : e.Spares v :=
  fun w hw => hw.quiet (h w)

/-- A host that leaves alone what is set apart. -/
structure Env.Discreet (v : Reserve) (env : Env σ) : Prop where
  call : ∀ name args, (env.functions.call name args).Spares v
  getAwaiter : ∀ key a configure, ((env.protocols key).getAwaiter a configure).Spares v
  isCompleted : ∀ key a, ((env.protocols key).isCompleted a).Spares v
  getResult : ∀ key a, ((env.protocols key).getResult a).Spares v

/-- The protocols that the binders stand for spare what is set apart. -/
theorem Env.Discreet.protocol {v : Reserve} {env : Env σ} (h : env.Discreet v) :
    ∀ b, (env.protocol b).All (Effect.Spares v) :=
  Env.protocol_all (fun key => ⟨h.getAwaiter key, h.isCompleted key, h.getResult key⟩)
    fun he => he.quiet.spares v

/-! ## Parts of a run -/

/-- A part of a run leaves alone what is set apart, and its result has a property. -/
def Run.Spares (v : Reserve) (m : Run σ α) (w : World σ) (P : α → World σ → Prop) : Prop :=
  w.Spares v (m w).2 ∧ ∀ a, (m w).1 = .ok a → P a (m w).2

namespace Run.Spares

variable {v : Reserve} {w : World σ} {P : α → World σ → Prop}

/-- A value spares what is set apart. -/
theorem pure {a : α} (hw : w.Minds v) (h : P a w) : Run.Spares v (Pure.pure a) w P := by
  refine ⟨hw.refl, fun b hb => ?_⟩
  cases hb
  exact h

/-- An error spares what is set apart. -/
theorem throw {e : RunError} (hw : w.Minds v) : Run.Spares v (throw e : Run σ α) w P :=
  ⟨hw.refl, nofun⟩

/-- Parts that spare what is set apart do so one after the other. -/
theorem bind {m : Run σ α} {f : α → Run σ β} {Q : β → World σ → Prop} (h : Run.Spares v m w P)
    (hf : ∀ a w', w'.Minds v → P a w' → Run.Spares v (f a) w' Q) : Run.Spares v (m >>= f) w Q := by
  obtain ⟨hs, hr⟩ := h
  rw [Run.Spares, exceptState_bind]
  rcases hm : m w with ⟨r, w'⟩
  rw [hm] at hs hr
  cases r with
  | ok a =>
    obtain ⟨hs', hr'⟩ := hf a w' hs.minds (hr a rfl)
    exact ⟨hs.trans hs', hr'⟩
  | error e => exact ⟨hs, nofun⟩

/-- An action that spares what is set apart. -/
theorem act {f : World σ → α × World σ} (hs : w.Spares v (f w).2) (h : P (f w).1 (f w).2) :
    Run.Spares v (Run.act f) w P := by
  refine ⟨hs, fun b hb => ?_⟩
  cases hb
  exact h

end Run.Spares

section

variable {v : Reserve} {env : Env σ} {w : World σ} {mode : LambdaKind} {c : Context}

/-- Code that runs over a chain with the scope keeps to the rules. -/
def Reserve.concern (v : Reserve) : Concern where
  code e χ := v.scope ∈ χ → e.Obeys v.rules
  fresh k := v.scope ≠ k
  strict := True
  code_truncate _ h hmem := h (List.mem_of_mem_drop hmem)
  code_cons hk h hmem := h ((List.mem_cons.1 hmem).resolve_left hk)
  code_body h hop hmem := (h hmem).body hop
  code_any h := absurd trivial h

/-- All parts of steps leave alone what is set apart. -/
def Reserve.sparing (v : Reserve) (henv : env.Discreet v) : v.concern.Logic env where
  Runs pre m w P := pre → w.Minds v → ∀ mode, Run.Spares v (m mode) w P
  Host e := e.Spares v
  ret h hpre hw _ := .pure hw (h hpre)
  fail _ _ hw _ := .throw hw
  bind h hf hpre hw mode := (h hpre hw mode).bind fun a w' hw' hP =>
    hf a w' ⟨hpre, hP⟩ hw' mode
  suspend _ h hpre hw _ := by
    dsimp only
    split
    · exact .pure hw (h hpre)
    · exact .throw hw
  lookup {β pre w Q χ x f} _ hf hpre hw mode := by
    refine Run.Spares.bind (P := fun _ _ => True) (.act (f := fun w => (w.lookup χ x.word, w)) hw.refl
      trivial) fun r w' hw' _ => ?_
    cases r with
    | some a => exact hf a w' hpre hw' mode
    | none => exact .throw hw'
  assign {β pre w Q χ e id x a m} hop hcode _ hf hpre hw mode := by
    have hx : v.scope ∈ χ → ¬v.held x.word := by
      intro hmem
      have hobeys := (hcode hpre hmem).op id
      rw [hop] at hobeys
      exact hobeys
    refine Run.Spares.bind (P := fun _ _ => True) (.act (hw.spares_assign hx a) trivial)
      fun r w' hw' _ => ?_
    cases r with
    | true => exact hf w' hpre hw' mode
    | false => exact .throw hw'
  newScope _ _ hw _ := .act (hw.newScope _) (hw.ne_newScope _)
  newClosure ht _ hpre hw _ := .act (hw.newClosure (ht hpre)) trivial
  closure {pre w} f _ hw _ := .act (f := fun w => (w.closure f.id, w)) hw.refl
    ⟨hw.closures f.id, trivial⟩
  raise f _ hw _ := .act (hw.raise f) trivial
  asException a _ hw _ := .act (hw.asException a) trivial
  attempt he _ _ hw _ := ⟨he _ hw, fun _ _ => trivial⟩
  ofFault _ := (Effect.Opaque.ofFault _).quiet.spares v
  call := henv.call
  getAwaiter b := (henv.protocol b).getAwaiter
  isCompleted b := (henv.protocol b).isCompleted
  getResult b := (henv.protocol b).getResult

/-! ## Runs -/

/-- By induction on the fuel: whatever the steps come to, they leave alone what is set apart. -/
theorem iterate_spares (henv : env.Discreet v) {limit : Option Nat} :
    ∀ {fuel steps : Nat} {c : Context} {w : World σ} {r : Except RunError (Halt × Context)}
      {w' : World σ}, w.Minds v → c.Keeps v.concern →
      iterate env mode limit fuel steps c w = some (r, w') → w.Spares v w'
  | 0, _, _, _, _, _, _, _, h => nomatch h
  | fuel + 1, steps, c, w, r, w', hw, hc, h => by
    obtain ⟨hs, hgoes⟩ : (step env mode c).Spares v w fun p _ => p.Keeps v.concern :=
      (v.sparing henv).step (fun _ => hc) (fun _ => trivial) trivial hw mode
    unfold iterate at h
    rcases hrun : step env mode c w with ⟨r₁, w₁⟩
    rw [hrun] at hs hgoes h
    split at h
    · cases h
      exact hw.refl
    · rcases r₁ with e | c' | ⟨halt, c'⟩
      · cases h
        exact hs
      · exact hs.trans (iterate_spares henv hs.minds (hgoes _ rfl) h)
      · cases h
        exact hs

/-- A run from the root spares what is set apart. -/
theorem start_spares (henv : env.Discreet v) {limit : Option Nat} {fuel : Nat} {code : Code}
    {r : Except RunError (Halt × Context)} {w' : World σ} (hw : w.Minds v)
    (hc : c.Keeps v.concern) (hcode : v.scope ∈ c.scopes → code.Obeys v.rules)
    (h : start env mode limit fuel code c w = some (r, w')) : w.Spares v w' := by
  obtain ⟨hs, hgoes⟩ : (enter mode code Code.root c).Spares v w fun c _ => c.Keeps v.concern :=
    (v.sparing henv).enter (fun _ => hc) (fun _ => hcode) Code.root trivial hw mode
  unfold start at h
  rcases hrun : enter mode code Code.root c w with ⟨r₁, w₁⟩
  rw [hrun] at hs hgoes h
  cases r₁ with
  | ok c' => exact hs.trans (iterate_spares henv hs.minds (hgoes c' rfl) h)
  | error e =>
    cases h
    exact hs

/-- Evaluating code that keeps to the rules leaves alone what is set apart. -/
theorem evaluate_spares (henv : env.Discreet v) {limit : Option Nat} {fuel : Nat} {code : Code}
    {r : Except RunError Evaluation} {w' : World σ} (hw : w.Minds v)
    (hcode : v.scope ∈ χ → code.Obeys v.rules)
    (h : evaluate env limit fuel code χ w = some (r, w')) : w.Spares v w' := by
  unfold evaluate at h
  obtain ⟨⟨r₀, w₀⟩, hstart, heq⟩ := Option.map_eq_some_iff.1 h
  have hs : w.Spares v w₀ := start_spares henv hw (.initial trivial) hcode hstart
  match r₀ with
  | .ok (.finished _, _) | .ok (.escaped .., _) | .ok (.suspended, _) | .ok (.yielded, _)
  | .error _ =>
    cases heq
    exact hs

end

end Coroutine
