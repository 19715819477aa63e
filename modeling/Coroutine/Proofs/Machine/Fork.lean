import Mathlib
import Coroutine.Proofs.World.Copied

/-!
# Copies of machines

Copying a machine comes to an end (`Machine.copy_adds`), whatever circles its scopes and closures form:
it may go as deep as there are scopes. Originals and copies correspond along all references
(`Copies.Sound.contents`), so what can be reached from the copy is what can be reached from the
original, copied: `exists_copy` and `exists_original_of_reaches`. The copies are new scopes, so a
machine and its copy have no scope in common: `Machine.fork_disjoint`.
-/

namespace Coroutine

open Copying

variable {σ : Type} {w : World σ} {roots : List Object}

/-! ## The parts of a machine -/

section

variable {depth : Nat} (hhas : ∀ o, w.Reaches roots o → w.Has o) {copyScope : Nat → Copying σ Nat}
  (hscope : ∀ s, w.Reaches roots (.scope s) → ∀ k₀,
    Adds w roots depth k₀ (copyScope s) fun k s' => (s, s') ∈ k.scopes)

/-- What may be missing is copied with its references. -/
theorem optional_images {α : Type} {objects : α → List Object} {f : α → Copying σ α} {a : Option α}
    (hf : ∀ b ∈ a, ∀ k₀, Adds w roots depth k₀ (f b) fun k b' =>
      List.Forall₂ (k.Image w) (objects b) (objects b')) (k₀ : Copies σ) :
    Adds w roots depth k₀ (Copying.optional f a) fun k a' =>
      List.Forall₂ (k.Image w) (a.toList.flatMap objects) (a'.toList.flatMap objects) :=
  (optional_adds (R := fun k b b' => List.Forall₂ (k.Image w) (objects b) (objects b'))
    (fun h hb => h.images hb) hf k₀).imp fun _ _ => images_flatMap

include hhas hscope

/-- A pending transfer is copied with its value. -/
theorem Transfer.copy_adds {t : Transfer} (ht : Reachable w roots t.objects) (k₀ : Copies σ) :
    Adds w roots depth k₀ (t.copy copyScope) fun k t' =>
      List.Forall₂ (k.Image w) t.objects t'.objects := by
  cases t with
  | jump j =>
    exact (value_images hhas hscope ht k₀).bind fun _ _ _ hv => .pure fun _ hk => hk.images hv
  | throw e => exact .pure fun _ _ => .nil
  | exit v =>
    exact (value_images hhas hscope ht k₀).bind fun _ _ _ hv => .pure fun _ hk => hk.images hv

/-- Only the phases that hold a value have something to copy. -/
theorem Phase.copy_adds {p : Phase} (hp : Reachable w roots p.objects) (k₀ : Copies σ) :
    Adds w roots depth k₀ (p.copy copyScope) fun k p' =>
      List.Forall₂ (k.Image w) p.objects p'.objects := by
  match p with
  | .inCleanup (.value v) | .awaiting v =>
    exact (value_images hhas hscope hp k₀).bind fun _ _ _ hv => .pure fun _ hk => hk.images hv
  | .inCleanup (.abrupt t) =>
    exact (Transfer.copy_adds hhas hscope hp k₀).bind fun _ _ _ ht => .pure fun _ hk => hk.images ht
  | .operands _ | .left | .leftDone | .rightDone | .statement .. | .statementDone .. | .test
  | .testDone | .branchDone | .subject | .candidate .. | .candidateDone .. | .armDone | .iteration
  | .iterationDone | .guarded | .inBody | .inHandler _ | .awaitable | .awaitableDone | .yielding
  | .yieldDone | .yielded | .inClosure => exact .pure fun _ _ => .nil

/-- A suspension is copied with its awaiter. -/
theorem Suspension.copy_adds {s : Suspension} (hs : Reachable w roots s.objects) (k₀ : Copies σ) :
    Adds w roots depth k₀ (s.copy copyScope) fun k s' =>
      List.Forall₂ (k.Image w) s.objects s'.objects :=
  (value_images hhas hscope hs k₀).bind fun _ _ _ hv => .pure fun _ hk => hk.images hv

/-- A frame is copied with its phase and the chain that it saved. -/
theorem Frame.copy_adds {f : Frame} (hf : Reachable w roots f.objects) (k₀ : Copies σ) :
    Adds w roots depth k₀ (f.copy copyScope) fun k f' =>
      List.Forall₂ (k.Image w) f.objects f'.objects := by
  refine (Phase.copy_adds hhas hscope (fun o ho => hf o (List.mem_append_left _ ho)) k₀).bind
    fun p' k₁ _ hp => ?_
  refine (optional_images (fun χ hχ k => chain_images hscope (fun o ho => hf o ?_) k) k₁).bind
    fun saved k₂ h₂ hsaved => .pure fun k hk => ?_
  · exact List.mem_append_right _ (List.mem_flatMap.2 ⟨χ, Option.mem_toList.2 hχ, ho⟩)
  · exact List.rel_append ((h₂.trans hk).images hp) (hk.images hsaved)

/-- The parts of a context are copied one after the other, so what is copied first has to last. -/
theorem Context.copy_adds {c : Context} (hc : Reachable w roots c.objects) (k₀ : Copies σ) :
    Adds w roots depth k₀ (c.copy copyScope) fun k c' =>
      List.Forall₂ (k.Image w) c.objects c'.objects := by
  obtain ⟨hscopes, hframes, hresults, hcontrol, hcurrent, hsuspension⟩ :
      Reachable w roots (Chain.objects c.scopes) ∧
      (∀ f ∈ c.frames, Reachable w roots f.objects) ∧
      (∀ v ∈ c.results, Reachable w roots v.objects) ∧
      (∀ t ∈ c.control, Reachable w roots t.objects) ∧ Reachable w roots c.current.objects ∧
      ∀ s ∈ c.suspension, Reachable w roots s.objects := by
    simp only [Reachable, Context.objects, List.mem_append, List.mem_flatMap, Option.mem_toList,
      or_imp, forall_and, forall_exists_index, and_imp] at hc ⊢
    obtain ⟨⟨⟨⟨⟨h₁, h₂⟩, h₃⟩, h₄⟩, h₅⟩, h₆⟩ := hc
    exact ⟨h₁, fun f hf o => h₂ o f hf, fun v hv o => h₃ o v hv, fun t ht o => h₄ o t ht, h₅,
      fun s hs o => h₆ o s hs⟩
  refine (chain_images hscope hscopes k₀).bind fun scopes k₁ _ h₁ => ?_
  refine (stack_adds (R := fun k (f f' : Frame) => List.Forall₂ (k.Image w) f.objects f'.objects)
    (fun hk h => hk.images h) (fun f hf => Frame.copy_adds hhas hscope (hframes f hf)) k₁).bind
    fun frames k₂ e₂ h₂ => ?_
  refine (stack_adds (R := fun k (v v' : Value) => List.Forall₂ (k.Image w) v.objects v'.objects)
    (fun hk h => hk.images h) (fun v hv => value_images hhas hscope (hresults v hv)) k₂).bind
    fun results k₃ e₃ h₃ => ?_
  refine (optional_images (fun t ht => Transfer.copy_adds hhas hscope (hcontrol t ht)) k₃).bind
    fun control k₄ e₄ h₄ => ?_
  refine (value_images hhas hscope hcurrent k₄).bind fun current k₅ e₅ h₅ => ?_
  refine (optional_images (fun s hs => Suspension.copy_adds hhas hscope (hsuspension s hs)) k₅).bind
    fun suspension k₆ e₆ h₆ => .pure fun k e => ?_
  have e₅' := e₆.trans e
  have e₄' := e₅.trans e₅'
  have e₃' := e₄.trans e₄'
  have e₂' := e₃.trans e₃'
  have e₁' := e₂.trans e₂'
  exact List.rel_append (List.rel_append (List.rel_append (List.rel_append (List.rel_append
    (e₁'.images h₁) (e₂'.images (images_flatMap h₂))) (e₃'.images (images_flatMap h₃)))
    (e₄'.images h₄)) (e₅'.images h₅)) (e.images h₆)

/-- The durable state is copied with its chain, value and suspension. -/
theorem Durable.copy_adds {d : Durable} (hd : Reachable w roots d.objects) (k₀ : Copies σ) :
    Adds w roots depth k₀ (Machine.copyDurable copyScope d) fun k d' =>
      List.Forall₂ (k.Image w) d.objects d'.objects := by
  obtain ⟨hscopes, hcurrent, hsuspension⟩ : Reachable w roots (Chain.objects d.scopes) ∧
      Reachable w roots d.current.objects ∧
      ∀ s ∈ d.suspension, Reachable w roots s.objects := by
    simp only [Reachable, Durable.objects, List.mem_append, List.mem_flatMap, Option.mem_toList,
      or_imp, forall_and, forall_exists_index, and_imp] at hd ⊢
    exact ⟨hd.1.1, hd.1.2, fun s hs o => hd.2 o s hs⟩
  refine (chain_images hscope hscopes k₀).bind fun scopes k₁ _ h₁ => ?_
  refine (value_images hhas hscope hcurrent k₁).bind fun current k₂ e₂ h₂ => ?_
  refine (optional_images (fun s hs => Suspension.copy_adds hhas hscope (hsuspension s hs)) k₂).bind
    fun suspension k₃ e₃ h₃ => .pure fun k e => ?_
  exact List.rel_append (List.rel_append ((e₂.trans (e₃.trans e)).images h₁)
    ((e₃.trans e).images h₂)) (e.images h₃)

/-- A machine is copied, with all its references. -/
theorem Machine.copy_adds {m : Machine} (hm : Reachable w roots m.objects) (k₀ : Copies σ) :
    Adds w roots depth k₀ (m.copy copyScope) fun k m' =>
      List.Forall₂ (k.Image w) m.objects m'.objects := by
  cases m with
  | compiled m =>
    exact (Durable.copy_adds hhas hscope hm k₀).bind fun d k₁ _ hd => .pure fun k e => e.images hd
  | interpreted m =>
    exact (Context.copy_adds hhas hscope hm k₀).bind fun c k₁ _ hc => .pure fun k e => e.images hc

end

/-! ## What can be reached -/

namespace Copies.Sound

variable {k : Copies σ} (hk : k.Sound w roots [])
include hk

/-- Originals and copies refer to originals and their copies. -/
theorem contents {o o' : Object} (h : k.Image w o o') :
    List.Forall₂ (k.Image w) (w.contents o) (k.world.contents o') := by
  match o, o', h with
  | .scope s, .scope s', h =>
    exact images_flatMap ((hk.filled (s, s') h List.not_mem_nil).imp fun _ _ hb => hb.2.objects)
  | .closure f, .closure f', h =>
    exact List.forall₂_map_left_iff.2 (List.forall₂_map_right_iff.2 h.captured)

variable {roots' : List Object} (hroots : List.Forall₂ (k.Image w) roots roots')
include hroots

/-- What can be reached has a copy that can be reached from the copies. -/
theorem exists_copy {o : Object} (h : w.Reaches roots o) :
    ∃ o', k.Image w o o' ∧ k.world.Reaches roots' o' :=
  h.corresponds hroots fun _ _ => hk.contents

/-- What can be reached from the copies is a copy of what can be reached. -/
theorem exists_original_of_reaches {o' : Object} (h : k.world.Reaches roots' o') :
    ∃ o, k.Image w o o' ∧ w.Reaches roots o :=
  h.corresponds hroots.flip fun _ _ himage => (hk.contents himage).flip

end Copies.Sound

/-! ## Forks -/

namespace Machine

variable {m : Machine}

/-- Every scope that a machine can reach is copied once, and there are no other new scopes. -/
structure Forks (m m' : Machine) (w : World σ) (k : Copies σ) : Prop where
  /-- The scopes that are copied are those that the machine can reach. -/
  reached : ∀ s, w.Reaches m.objects (.scope s) ↔ s ∈ k.scopes.map Prod.fst
  once : (k.scopes.map Prod.fst).Nodup
  /-- The copies are the new scopes. -/
  fresh : k.scopes.map Prod.snd =
    (List.range' w.scopes.size (k.world.scopes.size - w.scopes.size)).reverse
  contents : ∀ p ∈ k.scopes,
    List.Forall₂ (k.BindingCopy w) (w.scope p.1).bindings (k.world.scope p.2).bindings
  /-- Each reference of the copy is to the copy of what the original refers to. -/
  references : List.Forall₂ (k.Image w) m.objects m'.objects
  /-- Scopes and closures that were there stay as they are. -/
  scopes : ∀ s < w.scopes.size, k.world.scope s = w.scope s
  closures : ∀ f < w.closures.size, k.world.closure f = w.closure f

/-- Copying comes to an end before it goes too deep. -/
theorem copy_run (hhas : ∀ o, w.Reaches m.objects o → w.Has o) :
    ∃ m' k, (m.copy (Copying.scope (w.scopes.size + 1))).run { world := w } = some (m', k) ∧
      k.Sound w m.objects [] ∧ List.Forall₂ (k.Image w) m.objects m'.objects := by
  have hstart := Copies.sound_start w m.objects
  obtain ⟨m', k, hrun, -, hsound, hm'⟩ :=
    copy_adds hhas (scope_adds hhas (w.scopes.size + 1)) (fun o ho => .root ho) { world := w } []
      { world := w } (.refl _) hstart (by simp)
  exact ⟨m', k, hrun, hsound, hm'⟩

/-- What a copy comes to, if all its references correspond. -/
theorem Forks.of_sound {m' : Machine} {k : Copies σ} (hk : k.Sound w m.objects [])
    (hm : List.Forall₂ (k.Image w) m.objects m'.objects) : Forks m m' w k where
  reached s := by
    constructor
    · intro h
      obtain ⟨o', himage, -⟩ := hk.exists_copy hm h
      match o', himage with
      | .scope s', himage => exact List.mem_map_of_mem himage
    · intro h
      obtain ⟨p, hp, rfl⟩ := List.mem_map.1 h
      exact hk.reached p hp
  once := hk.distinct
  fresh := by rw [hk.copies, hk.size, Nat.add_sub_cancel_left]
  contents p hp := hk.filled p hp List.not_mem_nil
  references := hm
  scopes := hk.oldScopes
  closures := hk.oldClosures

/-- The scopes of the copy are new ones, so the original reaches none of them. -/
theorem disjoint_of_copy {m' : Machine} {k : Copies σ} (hk : k.Sound w m.objects [])
    (hroots : List.Forall₂ (k.Image w) m.objects m'.objects)
    (hhas : ∀ o, w.Reaches m.objects o → w.Has o) (s : Nat) :
    ¬(k.world.Reaches m.objects (.scope s) ∧ k.world.Reaches m'.objects (.scope s)) := by
  rintro ⟨hs, hs'⟩
  have hreach : k.world.Reaches m.objects (.scope s) ↔ w.Reaches m.objects (.scope s) := by
    refine World.Reaches.congr fun o ho => ?_
    match o, ho with
    | .scope t, ho => rw [World.contents, World.contents, hk.oldScopes t (hhas _ ho)]
    | .closure f, ho => rw [World.contents, World.contents, hk.oldClosures f (hhas _ ho)]
  have hlt : s < w.scopes.size := hhas _ (hreach.1 hs)
  obtain ⟨o, himage, -⟩ := hk.exists_original_of_reaches hroots hs'
  match o, himage with
  | .scope _, himage => exact (hk.mem_copies himage).1.not_gt hlt

/-- Copying a machine comes to an end and copies every scope that can be reached once, and no scope can
be reached both from the machine and from its copy. -/
theorem fork_disjoint (hhas : ∀ o, w.Reaches m.objects o → w.Has o) :
    (∃ k : Copies σ, (m.copy (Copying.scope (w.scopes.size + 1))).run { world := w } =
        some ((m.fork w).1, k) ∧ (m.fork w).2 = k.world ∧ Forks m (m.fork w).1 w k) ∧
    ∀ s, ¬((m.fork w).2.Reaches m.objects (.scope s) ∧
      (m.fork w).2.Reaches (m.fork w).1.objects (.scope s)) := by
  obtain ⟨m', k, hrun, hk, hroots⟩ := copy_run hhas
  have hfork : m.fork w = (m', k.world) := by rw [fork, hrun]
  rw [hfork]
  exact ⟨⟨k, hrun, rfl, .of_sound hk hroots⟩, disjoint_of_copy hk hroots hhas⟩

end Machine

end Coroutine
