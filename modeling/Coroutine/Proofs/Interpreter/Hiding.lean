import Mathlib
import Coroutine.Proofs.Interpreter.Privacy

/-!
# Programs do not notice what is hidden

`World.without v w` is the world `w` without the variables that a reserve `v` sets apart. A part of a
run does the same in it as in `w`, or finds a variable unbound. Sound code that needs none of these
variables finds all of its own, so it cannot tell apart two worlds that differ in nothing else:
`evaluate_overlooks`.

Looking up a hidden variable must not go on to an outer scope, so the scope of the reserve may only be
the last one of a chain (`Reserve.Ends`). A program starts with such a chain and closures capture no
others.
-/

namespace Coroutine

variable {σ α β : Type}

/-! ## Scopes -/

open Classical in
/-- A scope without some of its variables. -/
noncomputable def Scope.without (s : Scope) (held : Nat → Prop) : Scope :=
  ⟨s.bindings.filter fun b => !decide (held b.1)⟩

namespace Scope

variable (s : Scope) {held : Nat → Prop}

/-- An empty scope has nothing to hide. -/
theorem without_empty (held : Nat → Prop) : ({} : Scope).without held = {} := rfl

/-- What is hidden is not found. -/
theorem get?_without_of_held {i : Nat} (hi : held i) : (s.without held).get? i = none := by
  rw [get?, without, List.lookup_eq_none_iff]
  intro b hb
  have hb' : ¬held b.1 := by simpa using (List.mem_filter.1 hb).2
  exact bne_iff_ne.2 fun heq => hb' (heq ▸ hi)

/-- All else is found. -/
theorem get?_without {i : Nat} (hi : ¬held i) : (s.without held).get? i = s.get? i := by
  simp only [get?, without]
  induction s.bindings with
  | nil => rfl
  | cons b bs ih =>
    obtain ⟨x, v⟩ := b
    by_cases hx : held x
    · have hne : (i == x) = false := beq_eq_false_iff_ne.2 fun heq => hi (heq ▸ hx)
      simp [hx, ih, List.lookup_cons, hne]
    · simp [hx, ih, List.lookup_cons]

/-- Assigning and hiding can change places. -/
theorem set_without (x : Nat) (v : Value) :
    (s.set x v).without held = (s.without held).set x v := by
  simp only [set, without, List.filter_map]
  congr 2
  refine List.filter_congr fun b _ => ?_
  by_cases hb : b.1 = x
  · simp [hb]
  · simp [hb]

/-- Nobody sees that a hidden variable is assigned. -/
theorem set_without_of_held {x : Nat} (hx : held x) (v : Value) :
    (s.set x v).without held = s.without held := by
  rw [set_without]
  simp only [set, without, Scope.mk.injEq]
  refine (List.map_congr_left fun b hb => if_neg ?_).trans (List.map_id _)
  have hb' : ¬held b.1 := by simpa using (List.mem_filter.1 hb).2
  rw [beq_iff_eq]
  rintro rfl
  exact hb' hx

end Scope

/-! ## Worlds -/

namespace Reserve

/-- If a chain has the scope of the reserve, it ends there. -/
def Ends (v : Reserve) (χ : Chain) : Prop := v.scope ∉ χ.dropLast

variable {v : Reserve} {χ : Chain} {k : Nat}

/-- A scope on top does not matter. -/
theorem Ends.cons (h : v.Ends χ) (hk : v.scope ≠ k) : v.Ends (k :: χ) := by
  cases χ with
  | nil => simp [Ends]
  | cons l χ =>
    rw [Ends, List.dropLast_cons_cons, List.mem_cons, not_or]
    exact ⟨hk, h⟩

/-- Only the last scope of a chain is the one in question. -/
theorem Ends.ne {l : Nat} (h : v.Ends (k :: l :: χ)) : k ≠ v.scope := by
  rintro rfl
  rw [Ends, List.dropLast_cons_cons] at h
  exact h List.mem_cons_self

/-- A chain may lose the scope on top. -/
theorem Ends.tail (h : v.Ends (k :: χ)) : v.Ends χ := by
  cases χ with
  | nil => simp [Ends]
  | cons l χ =>
    rw [Ends, List.dropLast_cons_cons, List.mem_cons, not_or] at h
    exact h.2

/-- A chain may be cut back. -/
theorem Ends.truncate (h : v.Ends χ) (depth : Nat) : v.Ends (χ.truncate depth) := by
  unfold Chain.truncate
  generalize χ.length - depth = n
  induction n generalizing χ with
  | zero => exact h
  | succ n ih =>
    cases χ with
    | nil => exact h
    | cons l χ => exact ih h.tail

end Reserve

namespace World

variable {v : Reserve} {w w' w'' : World σ} {χ : Chain}

/-- A world without what is set apart. -/
noncomputable def without (v : Reserve) (w : World σ) : World σ :=
  w.modifyScope v.scope (·.without v.held)

/-- Only the one scope is changed. -/
theorem scope_without (w : World σ) (k : Nat) : (w.without v).scope k =
    if v.scope = k then (w.scope k).without v.held else w.scope k :=
  scope_modifyScope w v.scope _ k (Scope.without_empty v.held)

/-- Variables that are not hidden are found as before. -/
theorem get?_without {k i : Nat} (h : k = v.scope → ¬v.held i) :
    ((w.without v).scope k).get? i = (w.scope k).get? i := by
  rw [scope_without]
  split
  · rename_i hk
    exact Scope.get?_without _ (h hk.symm)
  · rfl

/-- Hidden ones are not found. -/
theorem get?_without_of_held {i : Nat} (hi : v.held i) :
    ((w.without v).scope v.scope).get? i = none := by
  rw [scope_without, if_pos rfl]
  exact Scope.get?_without_of_held _ hi

/-- Looking up a variable finds the same, or nothing. -/
theorem lookup_without (x : Nat) : ∀ {χ : Chain}, v.Ends χ →
    (w.without v).lookup χ x = w.lookup χ x ∨ (w.without v).lookup χ x = none
  | [], _ => .inl rfl
  | [k], _ => by
    by_cases hk : k = v.scope ∧ v.held x
    · obtain ⟨rfl, hx⟩ := hk
      exact .inr (by simp [lookup, get?_without_of_held hx])
    · refine .inl ?_
      rw [not_and] at hk
      simp [lookup, get?_without hk]
  | k :: l :: χ, h => by
    have hget : ((w.without v).scope k).get? x = (w.scope k).get? x :=
      get?_without fun heq => absurd heq h.ne
    simp only [lookup, List.findSome?_cons, hget]
    cases (w.scope k).get? x with
    | some a => exact .inl rfl
    | none => exact lookup_without x h.tail

/-- The innermost binding of a variable is the same, or there is none. -/
theorem holder?_without (x : Nat) : ∀ {χ : Chain}, v.Ends χ →
    (w.without v).holder? χ x = w.holder? χ x ∨ (w.without v).holder? χ x = none
  | [], _ => .inl rfl
  | [k], _ => by
    by_cases hk : k = v.scope ∧ v.held x
    · obtain ⟨rfl, hx⟩ := hk
      exact .inr (by simp [holder?, Scope.contains, get?_without_of_held hx])
    · refine .inl ?_
      rw [not_and] at hk
      simp [holder?, Scope.contains, get?_without hk]
  | k :: l :: χ, h => by
    have hget : ((w.without v).scope k).get? x = (w.scope k).get? x :=
      get?_without fun heq => absurd heq h.ne
    simp only [holder?, List.find?_cons, Scope.contains, hget]
    cases (w.scope k).get? x with
    | some a => exact .inl rfl
    | none => exact holder?_without x h.tail

/-- Assigning and hiding can change places. -/
theorem modifyScope_without (k x : Nat) (a : Value) :
    (w.modifyScope k (·.set x a)).without v = (w.without v).modifyScope k (·.set x a) := by
  have hscopes : (w.scopes.modify k (·.set x a)).modify v.scope (·.without v.held) =
      (w.scopes.modify v.scope (·.without v.held)).modify k (·.set x a) := by
    refine Array.ext (by simp) fun i h₁ h₂ => ?_
    simp only [Array.getElem_modify]
    split <;> split <;> simp [Scope.set_without]
  simp only [without, modifyScope, hscopes]

/-- Nobody sees that a hidden variable is assigned. -/
theorem modifyScope_without_of_held {x : Nat} (hx : v.held x) (a : Value) :
    (w.modifyScope v.scope (·.set x a)).without v = w.without v := by
  have hscopes : (w.scopes.modify v.scope (·.set x a)).modify v.scope (·.without v.held) =
      w.scopes.modify v.scope (·.without v.held) := by
    refine Array.ext (by simp) fun i h₁ h₂ => ?_
    simp only [Array.getElem_modify]
    split
    · exact Scope.set_without_of_held _ hx a
    · rfl
  simp only [without, modifyScope, hscopes]

/-- Hiding variables of a new scope. -/
theorem newScope_without_self {sc : Scope} (h : v.scope = w.scopes.size) :
    (w.newScope sc).2.without v = (w.newScope (sc.without v.held)).2 := by
  have hscopes : (w.scopes.push sc).modify v.scope (·.without v.held) =
      w.scopes.push (sc.without v.held) := by
    refine Array.ext (by simp) fun i h₁ h₂ => ?_
    simp only [Array.getElem_modify, Array.getElem_push, h]
    split
    · rw [dif_neg (by omega), dif_neg (by omega)]
    · rw [Array.size_push] at h₂
      rw [dif_pos (by omega), dif_pos (by omega)]
  simp only [without, modifyScope, newScope, hscopes]

/-- The scope is there, and the chains that closures captured end with it if they have it. -/
structure Confines (v : Reserve) (w : World σ) : Prop where
  lt : v.scope < w.scopes.size
  captured : ∀ k, v.Ends (w.closure k).captured

/-- A world that goes on: what is set apart keeps its values. -/
structure Shields (v : Reserve) (w w' : World σ) : Prop where
  confines : w'.Confines v
  kept : ∀ i, v.held i → (w'.scope v.scope).get? i = (w.scope v.scope).get? i

/-- What is shielded twice is shielded. -/
theorem Shields.trans (h : w.Shields v w') (h' : w'.Shields v w'') : w.Shields v w'' :=
  ⟨h'.confines, fun i hi => (h'.kept i hi).trans (h.kept i hi)⟩

namespace Confines

variable (h : w.Confines v)
include h

/-- A world shields what it hides from itself. -/
theorem refl : w.Shields v w := ⟨h, fun _ _ => rfl⟩

/-- What leaves scopes and closures alone shields. -/
theorem quiet (hq : w.Quiet w') : w.Shields v w' := by
  obtain ⟨hs, hc⟩ := hq
  refine ⟨⟨hs ▸ h.lt, fun k => ?_⟩, fun i _ => ?_⟩
  · rw [closure, hc]
    exact h.captured k
  · rw [scope, scope, hs]

/-- A new scope is another one than the scope in question. -/
theorem newScope (sc : Scope) : w.Shields v (w.newScope sc).2 := by
  refine ⟨⟨?_, h.captured⟩, fun i _ => ?_⟩
  · rw [World.newScope, Array.size_push]
    exact h.lt.trans (Nat.lt_succ_self _)
  · rw [scope_newScope, if_neg h.lt.ne]

/-- A new scope is another one. -/
theorem ne_newScope (sc : Scope) : v.scope ≠ (w.newScope sc).1 := h.lt.ne

/-- A scope is made in the same way where variables are hidden. -/
theorem newScope_without (sc : Scope) :
    (w.without v).newScope sc = ((w.newScope sc).1, (w.newScope sc).2.without v) := by
  have hscopes : (w.scopes.modify v.scope (·.without v.held)).push sc =
      (w.scopes.push sc).modify v.scope (·.without v.held) := by
    refine Array.ext (by simp) fun i h₁ h₂ => ?_
    have hlt := h.lt
    simp only [Array.getElem_modify, Array.getElem_push, Array.size_modify]
    split <;> split <;> simp_all
  simp only [World.newScope, without, modifyScope, Array.size_modify, hscopes]

/-- A new closure captures a chain that ends with the scope, or does not have it. -/
theorem newClosure {χ : Chain} (hχ : v.Ends χ) (t : Template) :
    w.Shields v (w.newClosure t χ).2 := by
  refine ⟨⟨h.lt, fun k => ?_⟩, fun _ _ => rfl⟩
  rw [closure_newClosure]
  split
  · exact hχ
  · exact h.captured k

/-- An assignment changes no closure. -/
theorem assign (χ : Chain) (x : Nat) (a : Value) : (w.assign χ x a).2.Confines v := by
  unfold World.assign
  split
  · refine ⟨?_, h.captured⟩
    rw [modifyScope, Array.size_modify]
    exact h.lt
  · exact h

/-- Assigning a variable does the same, or finds it unbound. -/
theorem assign_without {χ : Chain} (hχ : v.Ends χ) (x : Nat) (a : Value) :
    ((w.without v).assign χ x a).1 = false ∨
      (w.without v).assign χ x a = ((w.assign χ x a).1, (w.assign χ x a).2.without v) ∧
        w.Shields v (w.assign χ x a).2 := by
  cases hholder : (w.without v).holder? χ x with
  | none => exact .inl (by simp [World.assign, hholder])
  | some k =>
    have hsame : w.holder? χ x = some k := by
      rcases holder?_without (w := w) x hχ with heq | hnone
      · rw [← heq, hholder]
      · rw [hnone] at hholder
        cases hholder
    have hbound : ((w.without v).scope k).contains x = true :=
      List.find?_some (p := fun k => ((w.without v).scope k).contains x) hholder
    refine .inr ⟨?_, h.assign χ x a, fun i hi => ?_⟩
    · simp only [World.assign, hholder, hsame, modifyScope_without]
    · -- the variable is in sight, so it is none of those set apart
      simp only [World.assign, hsame]
      rw [scope_modifyScope w k _ _ rfl]
      split
      · rename_i hk
        rw [Scope.get?_set, if_neg]
        rintro rfl
        rw [hk, Scope.contains, get?_without_of_held hi] at hbound
        cases hbound
      · rfl

end Confines

end World

/-! ## Hosts -/

/-- An effect overlooks what is hidden: where no closure needs it, the effect does the same without
it and leaves it alone. -/
structure Effect.Overlooks (v : Reserve) (e : Effect σ α) : Prop where
  keeps : e.Keeps
  without : ∀ w : World σ, w.Confines v → (w.without v).Sound →
    e (w.without v) = ((e w).1, (e w).2.without v)
  shields : ∀ w : World σ, w.Confines v → (w.without v).Sound → w.Shields v (e w).2

namespace Effect.Opaque

variable {e : Effect σ α} (h : e.Opaque) (v : Reserve)
include h

/-- An effect that touches no scope is the same where variables are hidden. -/
theorem without (w : World σ) : e (w.without v) = ((e w).1, (e w).2.without v) := by
  have hscopes : (e w).2.scopes = w.scopes := (h.quiet w).1
  rw [World.without, World.without, World.modifyScope, World.modifyScope, (h w).2, hscopes]

/-- An effect that sees no scopes overlooks what is hidden in one. -/
theorem overlooks : e.Overlooks v :=
  ⟨h.keeps, fun w _ _ => h.without v w, fun w hw _ => hw.quiet (h.quiet w)⟩

end Effect.Opaque

/-- A host that overlooks what is hidden. -/
structure Env.Overlooks (v : Reserve) (env : Env σ) : Prop where
  call : ∀ name args, (env.functions.call name args).Overlooks v
  getAwaiter : ∀ key a configure, ((env.protocols key).getAwaiter a configure).Overlooks v
  isCompleted : ∀ key a, ((env.protocols key).isCompleted a).Overlooks v
  getResult : ∀ key a, ((env.protocols key).getResult a).Overlooks v

namespace Env.Overlooks

variable {v : Reserve} {env : Env σ} (h : env.Overlooks v)
include h

/-- A host that overlooks hidden variables keeps worlds sound. -/
theorem tame : env.Tame :=
  ⟨fun name args => (h.call name args).keeps, fun key a b => (h.getAwaiter key a b).keeps,
    fun key a => (h.isCompleted key a).keeps, fun key a => (h.getResult key a).keeps⟩

/-- The protocols that the binders stand for overlook what is hidden. -/
theorem protocol : ∀ b, (env.protocol b).All (Effect.Overlooks v) :=
  Env.protocol_all (fun key => ⟨h.getAwaiter key, h.isCompleted key, h.getResult key⟩)
    fun he => he.overlooks v

end Env.Overlooks

/-! ## Parts of a run -/

/-- A part of a run overlooks what is hidden: it does the same without it, or finds a variable
unbound. Its result has a property. -/
def Run.Overlooks (v : Reserve) (m : Run σ α) (w : World σ) (P : α → World σ → Prop) : Prop :=
  (∃ x, (m (w.without v)).1 = .error (.unboundVariable x)) ∨
    m (w.without v) = ((m w).1, (m w).2.without v) ∧ w.Shields v (m w).2 ∧
      ∀ a, (m w).1 = .ok a → P a (m w).2

namespace Run.Overlooks

variable {v : Reserve} {w : World σ} {P : α → World σ → Prop}

/-- A value overlooks what is hidden. -/
theorem pure {a : α} (hw : w.Confines v) (h : P a w) : Run.Overlooks v (Pure.pure a) w P := by
  refine .inr ⟨rfl, hw.refl, fun b hb => ?_⟩
  cases hb
  exact h

/-- An error overlooks what is hidden. -/
theorem throw {e : RunError} (hw : w.Confines v) : Run.Overlooks v (throw e : Run σ α) w P :=
  .inr ⟨rfl, hw.refl, nofun⟩

/-- Parts that overlook what is hidden do so one after the other. -/
theorem bind {m : Run σ α} {f : α → Run σ β} {Q : β → World σ → Prop} (h : Run.Overlooks v m w P)
    (hf : ∀ a w', w'.Confines v → P a w' → Run.Overlooks v (f a) w' Q) :
    Run.Overlooks v (m >>= f) w Q := by
  rw [Run.Overlooks, exceptState_bind, exceptState_bind]
  rcases h with ⟨x, hx⟩ | ⟨heq, hs, hr⟩
  · refine .inl ⟨x, ?_⟩
    rcases hm : m (w.without v) with ⟨r, w'⟩
    rw [hm] at hx
    obtain rfl : r = .error (.unboundVariable x) := hx
    rfl
  · rw [heq]
    rcases hm : m w with ⟨r, w'⟩
    rw [hm] at hs hr
    cases r with
    | error e => exact .inr ⟨rfl, hs, nofun⟩
    | ok a =>
      refine (hf a w' hs.confines (hr a rfl)).imp_right ?_
      rintro ⟨heq', hs', hr'⟩
      exact ⟨heq', hs.trans hs', hr'⟩

/-- An action that is the same where variables are hidden overlooks them. -/
theorem act {f : World σ → α × World σ} (heq : f (w.without v) = ((f w).1, (f w).2.without v))
    (hs : w.Shields v (f w).2) (h : P (f w).1 (f w).2) : Run.Overlooks v (Run.act f) w P := by
  refine .inr ⟨?_, hs, fun b hb => ?_⟩
  · simp only [Run.act, heq]
  · cases hb
    exact h

/-- Looking at what is not hidden. -/
theorem look {f : World σ → α} (hw : w.Confines v) (heq : f (w.without v) = f w) (h : P (f w) w) :
    Run.Overlooks v (Run.look f) w P :=
  act (f := fun w => (f w, w)) (by rw [heq]) hw.refl h

/-- A part of a run that does not break down misses nothing that is hidden. -/
theorem resolve {m : Run σ α} {Q : α → World σ → Prop} (h : m.Overlooks v w P)
    (hsafe : m.Safe (w.without v) Q) :
    m (w.without v) = ((m w).1, (m w).2.without v) ∧ w.Shields v (m w).2 ∧
      ((m w).2.without v).Sound ∧
      ∀ a, (m w).1 = .ok a → P a (m w).2 ∧ Q a ((m w).2.without v) := by
  obtain ⟨hkeeps, horderly⟩ := hsafe
  rcases h with ⟨x, hx⟩ | ⟨heq, hs, hr⟩
  · rw [hx] at horderly
    cases horderly
  · rw [heq] at hkeeps horderly
    refine ⟨heq, hs, hkeeps.sound, fun a ha => ⟨hr a ha, ?_⟩⟩
    simp only [ha] at horderly
    exact horderly

end Run.Overlooks

section

variable {v : Reserve} {env : Env σ} {w : World σ} {c : Context}

/-- The chains in use end with the scope if they have it. -/
def Reserve.confinement (v : Reserve) : Concern where
  chain χ := v.Ends χ
  fresh k := v.scope ≠ k
  chain_truncate depth h := h.truncate depth
  chain_cons hk h := h.cons hk

/-- All parts of steps overlook what is hidden. The host does where no closure needs what is hidden. -/
def Reserve.overlooking (v : Reserve) (henv : env.Overlooks v) : v.confinement.Logic env where
  Runs pre m w P := pre → w.Confines v → ∀ mode, Run.Overlooks v (m mode) w P
  ready w := (w.without v).Sound
  Host e := e.Overlooks v
  ret h hpre hw _ := .pure hw (h hpre)
  fail _ _ hw _ := .throw hw
  bind h hf hpre hw mode := (h hpre hw mode).bind fun a w' hw' hP =>
    hf a w' ⟨hpre, hP⟩ hw' mode
  suspend _ h hpre hw _ := by
    dsimp only
    split
    · exact .pure hw (h hpre)
    · exact .throw hw
  lookup {β pre w Q χ x f} hχ hf hpre hw mode := by
    rcases World.lookup_without (w := w) x.word (hχ hpre) with heq | hnone
    · refine Run.Overlooks.bind (P := fun _ _ => True) (.look hw heq trivial) fun r w' hw' _ => ?_
      cases r with
      | some a => exact hf a w' hpre hw' mode
      | none => exact .throw hw'
    · refine .inl ⟨x.name, ?_⟩
      dsimp only
      rw [exceptState_bind]
      simp only [Run.look, hnone]
      rfl
  assign {β pre w Q χ e id x a m} _ _ hχ hf hpre hw mode := by
    rcases hw.assign_without (hχ hpre) x.word a with hfalse | ⟨heq, hs⟩
    · refine .inl ⟨x.name, ?_⟩
      dsimp only
      rw [exceptState_bind]
      simp only [Run.act, hfalse]
      rfl
    · refine Run.Overlooks.bind (P := fun _ _ => True) (.act heq hs trivial) fun r w' hw' _ => ?_
      cases r with
      | true => exact hf w' hpre hw' mode
      | false => exact .throw hw'
  newScope _ _ hw _ := .act (hw.newScope_without _) (hw.newScope _) (hw.ne_newScope _)
  newClosure _ hχ hpre hw _ := .act rfl (hw.newClosure (hχ hpre) _) trivial
  closure _ _ hw _ := .look hw rfl ⟨trivial, hw.captured _⟩
  raise _ _ hw _ := .act rfl (hw.quiet ⟨rfl, rfl⟩) trivial
  asException {pre w} a _ hw _ := by
    have hexception := (Effect.Opaque.asException (σ := σ) a).without v w
    refine .act ?_ (hw.quiet ((Effect.Opaque.asException (σ := σ) a).quiet w)) trivial
    exact Prod.ext (Except.ok.inj (Prod.mk.inj hexception).1) (Prod.mk.inj hexception).2
  attempt {α pre w e} he hready hpre hw _ := by
    have heq := he.without w hw (hready hpre)
    have hkeeps := he.keeps (w.without v) (hready hpre)
    rw [Effect.perform, heq] at hkeeps
    refine .inr ⟨?_, he.shields w hw (hready hpre), fun _ _ => hkeeps.sound⟩
    simp only [Run.attempt, heq]
    rfl
  ofFault _ := (Effect.Opaque.ofFault _).overlooks v
  call := henv.call
  getAwaiter b := (henv.protocol b).getAwaiter
  isCompleted b := (henv.protocol b).isCompleted
  getResult b := (henv.protocol b).getResult

/-! ## Runs -/

/-- A run overlooks what is hidden: it ends in the same way without it, and leaves it alone. -/
def Ended.Overlooks (v : Reserve) (w : World σ) (hidden plain : Option (Ended σ α)) : Prop :=
  hidden = plain.map (fun (r, w') => (r, w'.without v)) ∧
    ∀ r w', plain = some (r, w') → w.Shields v w'

/-- A run that has ended overlooks what is hidden if it left it alone. -/
theorem Ended.Overlooks.ended {w w' : World σ} (h : w.Shields v w') (r : Except RunError α) :
    Ended.Overlooks v w (some (r, w'.without v)) (some (r, w')) := by
  refine ⟨rfl, fun r' w'' heq => ?_⟩
  cases heq
  exact h

/-- What goes on from a later world overlooks what is hidden from the start. -/
theorem Ended.Overlooks.after {w w' : World σ} {hidden plain : Option (Ended σ α)}
    (hrest : Ended.Overlooks v w' hidden plain) (h : w.Shields v w') :
    Ended.Overlooks v w hidden plain :=
  ⟨hrest.1, fun r w'' heq => h.trans (hrest.2 r w'' heq)⟩

/-- By induction on the fuel: whatever the steps of a sound context come to, they overlook what is
hidden. -/
theorem iterate_overlooks {T : Terms} (henv : env.Overlooks v) {limit : Option Nat}
    (fuel steps : Nat) (hw : w.Confines v) (hsound : (w.without v).Sound)
    (hc : c.Keeps v.confinement) (hctx : c.Sound T (w.without v)) :
    Ended.Overlooks v w (iterate env T.mode limit fuel steps c (w.without v))
      (iterate env T.mode limit fuel steps c w) := by
  induction fuel generalizing steps c w with
  | zero => simp [Ended.Overlooks, iterate]
  | succ fuel ih =>
    -- the step is safe without what is hidden, and overlooks it, so both steps are alike
    have hsafe : (step env T.mode c).Safe (w.without v) (Progress.Sound T) :=
      step_safe henv.tame hsound hctx
    have hstep : (step env T.mode c).Overlooks v w fun p _ => p.Keeps v.confinement :=
      (v.overlooking henv).step (fun _ => hc) (fun _ => hsound) trivial hw T.mode
    obtain ⟨heq, hs, hsound', hgoes⟩ := hstep.resolve hsafe
    rw [iterate, iterate]
    split
    · exact .ended hw.refl _
    · rw [heq]
      rcases hrun : step env T.mode c w with ⟨r, w'⟩
      rw [hrun] at hs hgoes hsound'
      rcases r with e | c' | ⟨h, c'⟩
      · exact .ended hs _
      · obtain ⟨hc', hctx'⟩ := hgoes _ rfl
        exact (ih (steps + 1) hs.confines hsound' hc' hctx').after hs
      · exact .ended hs _

/-- Evaluating sound code overlooks what is hidden, if the code finds all of its variables without
it. -/
theorem evaluate_overlooks (henv : env.Overlooks v) (limit : Option Nat) (fuel : Nat) {code : Code}
    {escapes : Nat → Prop} {χ : Chain} {s : Setting} (hw : w.Confines v)
    (hsound : (w.without v).Sound) (hcode : code.Sound escapes s) (hwaits : s.waits = false)
    (hhandling : s.handling = false) (hbinds : (w.without v).Binds χ s) (hχ : v.Ends χ) :
    Ended.Overlooks v w (evaluate env limit fuel code χ (w.without v))
      (evaluate env limit fuel code χ w) := by
  let T : Terms := ⟨.sync, escapes, χ⟩
  have hc : Context.Keeps v.confinement { scopes := χ } := .initial hχ
  have hsafe : (enter T.mode code Code.root { scopes := χ }).Safe (w.without v)
      fun c' w' => c'.Sound T w' := (Ready.root hsound hcode hwaits hhandling hbinds).enter
  have henter : (enter T.mode code Code.root { scopes := χ }).Overlooks v w
      fun c _ => c.Keeps v.confinement :=
    (v.overlooking henv).enter (fun _ => hc) (fun _ => trivial) Code.root trivial hw T.mode
  -- the same holds for the way into the code, after which steps are taken
  obtain ⟨heq, hs, hsound', hgoes⟩ := henter.resolve hsafe
  have hstart : Ended.Overlooks v w (start env .sync limit fuel code { scopes := χ } (w.without v))
      (start env .sync limit fuel code { scopes := χ } w) := by
    unfold start
    rw [heq]
    rcases hrun : enter T.mode code Code.root { scopes := χ } w with ⟨r, w'⟩
    rw [hrun] at hs hgoes hsound'
    cases r with
    | ok c' =>
      obtain ⟨hc', hctx⟩ := hgoes c' rfl
      exact (iterate_overlooks henv fuel 0 hs.confines hsound' hc' hctx).after hs
    | error e => exact .ended hs _
  obtain ⟨heq₁, hs₁⟩ := hstart
  unfold evaluate
  refine ⟨?_, fun r w' h => ?_⟩
  · rw [heq₁, Option.map_map, Option.map_map]
    congr 1
    funext ⟨r, w'⟩
    match r with
    | .ok (.finished _, _) | .ok (.escaped .., _) | .ok (.suspended, _) | .ok (.yielded, _)
    | .error _ => rfl
  · obtain ⟨⟨r₀, w₀⟩, hrun, heq⟩ := Option.map_eq_some_iff.1 h
    have hs₀ := hs₁ _ _ hrun
    match r₀ with
    | .ok (.finished _, _) | .ok (.escaped .., _) | .ok (.suspended, _) | .ok (.yielded, _)
    | .error _ =>
      cases heq
      exact hs₀

end

end Coroutine
