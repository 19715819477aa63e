import Mathlib
import Coroutine.Proofs.Interpreter.Stack

/-!
# Safe parts of a run

`Run.Safe m w P` says that `m`, started in the world `w`, never breaks down: it keeps variables
bound and closures sound, its result has `P`, and an error is not one of bookkeeping. The rules
follow the way runs are put together.

A host is tame if its functions and await protocols keep variables bound and closures sound. They
may do anything else to the world, and throw.
-/

namespace Coroutine

variable {σ α β : Type}

/-! ## Rules -/

/-- Two parts in a row: the second one runs in the world that the first one leaves. -/
theorem exceptState_bind {ε : Type} (m : ExceptT ε (StateM (World σ)) α)
    (f : α → ExceptT ε (StateM (World σ)) β) (w : World σ) :
    (m >>= f) w =
      match m w with
      | (.ok a, w') => f a w'
      | (.error e, w') => (.error e, w') := by
  simp only [Bind.bind, ExceptT.bind, ExceptT.mk, StateT.bind]
  rcases m w with ⟨r, w'⟩
  cases r <;> rfl

/-- The end of a run: a result with a property, or an error that is not one of bookkeeping. -/
def Orderly (P : α → Prop) : Except RunError α → Prop
  | .ok a => P a
  | .error e => e.isBreakdown = false

/-- A part of a run that does not break down. -/
def Run.Safe (m : Run σ α) (w : World σ) (P : α → World σ → Prop) : Prop :=
  w.Keeps (m w).2 ∧ Orderly (fun a => P a (m w).2) (m w).1

namespace Run.Safe

variable {w : World σ} {P : α → World σ → Prop}

/-- A value is safe in a sound world. -/
theorem pure {a : α} (hw : w.Sound) (h : P a w) : Safe (Pure.pure a : Run σ α) w P :=
  ⟨.refl hw, h⟩

/-- An error that is no breakdown is safe in a sound world. -/
theorem throw {e : RunError} (hw : w.Sound) (h : e.isBreakdown = false) :
    Safe (throw e : Run σ α) w P :=
  ⟨.refl hw, h⟩

/-- What is safe may be described in a weaker way. -/
theorem mono {m : Run σ α} {Q : α → World σ → Prop} (h : Safe m w P)
    (hPQ : ∀ a w', P a w' → Q a w') : Safe m w Q := by
  obtain ⟨hk, hr⟩ := h
  refine ⟨hk, ?_⟩
  cases hm : (m w).1 with
  | ok a =>
    rw [hm] at hr
    exact hPQ a _ hr
  | error e =>
    rw [hm] at hr
    exact hr

/-- Both parts are safe, the second one wherever the first one leads. -/
theorem bind {m : Run σ α} {f : α → Run σ β} {Q : β → World σ → Prop} (h : Safe m w P)
    (hf : ∀ a w', w.Keeps w' → P a w' → Safe (f a) w' Q) : Safe (m >>= f) w Q := by
  obtain ⟨hk, hr⟩ := h
  rw [Safe, exceptState_bind]
  rcases hm : m w with ⟨r, w'⟩
  rw [hm] at hk hr
  cases r with
  | ok a =>
    obtain ⟨hk', hr'⟩ := hf a w' hk hr
    exact ⟨hk.trans hk', hr'⟩
  | error e => exact ⟨hk, hr⟩

/-- What is done to the result is safe. -/
theorem map {m : Run σ α} {f : α → β} {Q : β → World σ → Prop}
    (h : Safe m w fun a w' => Q (f a) w') : Safe (f <$> m) w Q := by
  rw [map_eq_pure_bind]
  exact h.bind fun a w' hk hq => .pure hk.sound hq

/-- Both branches are safe. -/
theorem ite {p : Prop} [Decidable p] {m m' : Run σ α} (h : p → Safe m w P)
    (h' : ¬p → Safe m' w P) : Safe (if p then m else m') w P := by
  split
  · exact h ‹p›
  · exact h' ‹¬p›

section

variable {g : α → Run σ β} {Q : β → World σ → Prop}

/-- An action on the world, and what follows it. -/
theorem act {f : World σ → α × World σ} (hk : w.Keeps (f w).2)
    (h : w.Keeps (f w).2 → Safe (g (f w).1) (f w).2 Q) : Safe (Run.act f >>= g) w Q := by
  refine bind (P := fun a w' => a = (f w).1 ∧ w' = (f w).2) ⟨hk, rfl, rfl⟩ ?_
  rintro _ _ - ⟨rfl, rfl⟩
  exact h hk

/-- A look at the world, and what follows it. -/
theorem look {f : World σ → α} (hw : w.Sound) (h : Safe (g (f w)) w Q) :
    Safe (Run.look f >>= g) w Q :=
  act (f := fun w => (f w, w)) (.refl hw) fun _ => h

/-- What has been built, and what follows it. -/
theorem ofBuild {r : Except BuildError α} {a : α} (hr : r = .ok a) (h : Safe (g a) w Q) :
    Safe (Run.ofBuild r >>= g) w Q := by
  rw [hr]
  exact h

end

end Run.Safe

/-! ## Hosts -/

/-- An effect that keeps variables bound and closures sound. -/
def Effect.Keeps (e : Effect σ α) : Prop :=
  ∀ w : World σ, w.Sound → w.Keeps (e.perform w).2

/-- A call of the host, and what follows it: it gives a value or an exception. -/
theorem Run.Safe.attempt {e : Effect σ α} {w : World σ} {f : Except Exception α → Run σ β}
    {Q : β → World σ → Prop} (he : e.Keeps) (hw : w.Sound)
    (h : ∀ r w', w.Keeps w' → Safe (f r) w' Q) : Safe (Run.attempt e >>= f) w Q :=
  .bind (P := fun _ _ => True) ⟨he w hw, trivial⟩ fun r w' hk _ => h r w' hk

/-- Scopes and closures stay as they are. -/
def World.Quiet (w w' : World σ) : Prop := w'.scopes = w.scopes ∧ w'.closures = w.closures

/-- An effect that leaves all scopes and closures alone. -/
def Effect.Quiet (e : Effect σ α) : Prop := ∀ w : World σ, w.Quiet (e.perform w).2

/-- An effect that neither sees nor changes variables, and makes no closures. -/
def Effect.Opaque (e : Effect σ α) : Prop :=
  ∀ w : World σ, (e w).2.closures = w.closures ∧
    ∀ scopes, e { w with scopes } = ((e w).1, { (e w).2 with scopes })

namespace Effect.Opaque

/-- An effect that sees no scopes leaves them alone. -/
theorem quiet {e : Effect σ α} (h : e.Opaque) : e.Quiet := by
  intro w
  refine ⟨?_, (h w).1⟩
  have hsame := (h w).2 w.scopes
  rw [perform, show e w = ((e w).1, { (e w).2 with scopes := w.scopes }) from hsame]

/-- An effect that sees no scopes keeps worlds sound. -/
theorem keeps {e : Effect σ α} (h : e.Opaque) : e.Keeps := by
  intro w hw
  obtain ⟨hscopes, hclosures⟩ := h.quiet w
  refine hw.keeps hclosures fun k i hi => ?_
  rw [World.scope, hscopes]
  exact hi

/-- A value sees no scopes. -/
theorem pure (a : α) : Effect.Opaque (Pure.pure a : Effect σ α) := fun _ => ⟨rfl, fun _ => rfl⟩

/-- An exception that is thrown sees no scopes. -/
theorem throw (e : Exception) : Effect.Opaque (throw e : Effect σ α) := fun _ => ⟨rfl, fun _ => rfl⟩

/-- A fault that is raised sees no scopes. -/
theorem raise (f : Fault) : Effect.Opaque (Effect.raise f : Effect σ α) :=
  fun _ => ⟨rfl, fun _ => rfl⟩

/-- What is looked up does not depend on variables. -/
theorem look {f : World σ → α} (hf : ∀ w scopes, f { w with scopes } = f w) :
    Effect.Opaque (Effect.look f) :=
  fun w => ⟨rfl, fun scopes => by simp only [Effect.look, hf w scopes]⟩

/-- A value or a fault sees no scopes. -/
theorem ofFault (r : Except Fault α) : Effect.Opaque (Effect.ofFault r : Effect σ α) := by
  cases r with
  | ok a => exact pure a
  | error f => exact raise f

/-- Effects that see no scopes see none one after the other. -/
theorem bind {e : Effect σ α} {f : α → Effect σ β} (he : e.Opaque) (hf : ∀ a, (f a).Opaque) :
    Effect.Opaque (e >>= f) := by
  intro w
  obtain ⟨hclosures, hscopes⟩ := he w
  refine ⟨?_, fun scopes => ?_⟩
  · rw [exceptState_bind]
    rcases hm : e w with ⟨r, w'⟩
    rw [hm] at hclosures
    cases r with
    | ok a => exact ((hf a w').1).trans hclosures
    | error x => exact hclosures
  · rw [exceptState_bind, exceptState_bind, hscopes scopes]
    rcases e w with ⟨r, w'⟩
    cases r with
    | ok a => exact (hf a w').2 scopes
    | error x => rfl

/-- The awaiters of tasks are found without seeing scopes. -/
theorem awaiterTask (typeName : String) (a : Value) :
    Effect.Opaque (Coroutine.awaiterTask typeName a : Effect σ Nat) := by
  unfold Coroutine.awaiterTask
  split
  · exact .pure _
  · exact .raise _

/-- An exception is made of a value without seeing scopes. -/
theorem asException (a : Value) :
    Effect.Opaque (Effect.act fun w : World σ => w.asException a) := by
  intro w
  cases a <;> exact ⟨rfl, fun _ => rfl⟩

end Effect.Opaque

/-- What a protocol does to await has a property. -/
structure AwaitProtocol.All (P : ∀ {α : Type}, Effect σ α → Prop) (p : AwaitProtocol σ) : Prop where
  getAwaiter : ∀ v configure, P (p.getAwaiter v configure)
  isCompleted : ∀ v, P (p.isCompleted v)
  getResult : ∀ v, P (p.getResult v)

/-- The built-in protocols neither see nor change variables. So all binders have what the protocols of
the host have. -/
theorem Env.protocol_all {P : ∀ {α : Type}, Effect σ α → Prop} {env : Env σ}
    (h : ∀ key, (env.protocols key).All P)
    (hP : ∀ {α : Type} {e : Effect σ α}, e.Opaque → P e) (b : Binder) : (env.protocol b).All P := by
  unfold Env.protocol
  split
  · have htask (v : Value) := Effect.Opaque.awaiterTask (σ := σ) b.typeName v
    refine ⟨fun v _ => hP ((htask v).bind fun _ => .pure v),
      fun v => hP ((htask v).bind fun _ => .look fun _ _ => rfl),
      fun v => hP ((htask v).bind fun t => (Effect.Opaque.look fun _ _ => rfl).bind fun r => ?_)⟩
    match r with
    | some (.ok v) => exact .pure v
    | some (.error e) => exact .throw e
    | none => exact .raise _
  · exact ⟨fun v _ => hP (.pure v), fun _ => hP (.pure true), fun v => hP (.pure v)⟩
  · exact h _

/-- A host that keeps variables bound and closures sound. -/
structure Env.Tame (env : Env σ) : Prop where
  call : ∀ name args, (env.functions.call name args).Keeps
  getAwaiter : ∀ key v configure, ((env.protocols key).getAwaiter v configure).Keeps
  isCompleted : ∀ key v, ((env.protocols key).isCompleted v).Keeps
  getResult : ∀ key v, ((env.protocols key).getResult v).Keeps

/-- The protocols of all binders are tame, the built-in ones among them. -/
theorem Env.Tame.protocol {env : Env σ} (h : env.Tame) : ∀ b, (env.protocol b).All Effect.Keeps :=
  Env.protocol_all (fun key => ⟨h.getAwaiter key, h.isCompleted key, h.getResult key⟩)
    Effect.Opaque.keeps

end Coroutine
