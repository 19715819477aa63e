import Mathlib
import Coroutine.Proofs.World.Bindings
import Coroutine.Proofs.World.Reach

/-!
# What copying makes

`Copies.Sound w roots filling k` says what holds of the copies `k` at any time while what can be
reached from `roots` in the world `w` is copied: the world has grown by one scope for every scope
that was met and by copies of closures, each over the copies of the scopes that its original
captured. The scopes of `filling` are being copied; the copies of all others are complete.

`Copying.Adds` says that a part of copying succeeds from sound copies on, and leads to sound ones.
It may go as deep as there are scopes that have not been met: a scope is noted before its values are
copied, so the depth that is left and the number of scopes met never fall below the number of scopes.
-/

namespace Coroutine

variable {σ α β : Type}

/-! ## Computations -/

namespace Copying

/-- A part of copying succeeds, with a result and copies that have a property. -/
def Gives (m : Copying σ α) (k : Copies σ) (Q : α → Copies σ → Prop) : Prop :=
  ∃ a k', m k = some (a, k') ∧ Q a k'

namespace Gives

variable {m : Copying σ α} {k : Copies σ} {Q : α → Copies σ → Prop}

/-- A value is given, and nothing is copied. -/
theorem pure {a : α} (h : Q a k) : Gives (Pure.pure a) k Q := ⟨a, k, rfl, h⟩

/-- What is given may be described in a weaker way. -/
theorem mono {R : α → Copies σ → Prop} (h : Gives m k Q) (hQR : ∀ a k', Q a k' → R a k') :
    Gives m k R := by
  obtain ⟨a, k', hm, hQ⟩ := h
  exact ⟨a, k', hm, hQR a k' hQ⟩

/-- What is given by one part after the other. -/
theorem bind {f : α → Copying σ β} {R : β → Copies σ → Prop}
    (h : Gives m k fun a k' => Gives (f a) k' R) : Gives (m >>= f) k R := by
  obtain ⟨a, k₁, hm, b, k₂, hf, hR⟩ := h
  refine ⟨b, k₂, ?_, hR⟩
  simp only [Bind.bind, StateT.bind, hm, Option.bind_some, hf]

/-- Looking at the copies changes nothing. -/
theorem get {R : Copies σ → Copies σ → Prop} (h : R k k) :
    Gives (MonadState.get : Copying σ (Copies σ)) k R := ⟨k, k, rfl, h⟩

/-- The copies may be changed. -/
theorem modifyGet {f : Copies σ → α × Copies σ} (h : Q (f k).1 (f k).2) :
    Gives (MonadStateOf.modifyGet f : Copying σ α) k Q := ⟨_, _, rfl, h⟩

end Gives

end Copying

/-! ## Originals and copies -/

namespace Copies

variable {w : World σ} {roots : List Object} {filling : List Nat} {k k' k'' : Copies σ}

/-- A closure of the world `w` and a copy of it, over the copies of the scopes it captured. -/
structure Rebinds (w : World σ) (k : Copies σ) (f f' : Nat) : Prop where
  old : f < w.closures.size
  new : w.closures.size ≤ f'
  lt : f' < k.world.closures.size
  template : (k.world.closure f').template = (w.closure f).template
  captured : List.Forall₂ (fun s s' => (s, s') ∈ k.scopes) (w.closure f).captured
    (k.world.closure f').captured

/-- An object of the world `w` and a copy of it. -/
def Image (w : World σ) (k : Copies σ) : Object → Object → Prop
  | .scope s, .scope s' => (s, s') ∈ k.scopes
  | .closure f, .closure f' => k.Rebinds w f f'
  | _, _ => False

/-- A value and its copy. -/
def CopyOf (w : World σ) (k : Copies σ) : Value → Value → Prop
  | .closure f, v' => ∃ f', v' = .closure ⟨f', f.name⟩ ∧ k.Rebinds w f.id f'
  | v, v' => v' = v

/-- A variable and its copy. -/
def BindingCopy (w : World σ) (k : Copies σ) (b b' : Nat × Value) : Prop :=
  b'.1 = b.1 ∧ k.CopyOf w b.2 b'.2

/-- A copied value refers to the copies of what it referred to. -/
theorem CopyOf.objects {v v' : Value} (h : k.CopyOf w v v') :
    List.Forall₂ (k.Image w) v.objects v'.objects := by
  cases v with
  | closure f =>
    obtain ⟨f', rfl, hf⟩ := h
    exact .cons hf .nil
  | _ =>
    obtain rfl := h
    exact .nil

/-- Notes are added and closures stay. -/
structure Extends (k k' : Copies σ) : Prop where
  scopes : k.scopes <:+ k'.scopes
  le : k.world.closures.size ≤ k'.world.closures.size
  closure : ∀ f < k.world.closures.size, k'.world.closure f = k.world.closure f

namespace Extends

/-- Copies extend themselves. -/
theorem refl (k : Copies σ) : k.Extends k := ⟨List.suffix_refl _, le_rfl, fun _ _ => rfl⟩

/-- Copies are only ever added. -/
theorem trans (h : k.Extends k') (h' : k'.Extends k'') : k.Extends k'' :=
  ⟨h.scopes.trans h'.scopes, h.le.trans h'.le,
    fun f hf => (h'.closure f (hf.trans_le h.le)).trans (h.closure f hf)⟩

variable (h : k.Extends k')
include h

/-- A closure stays copied. -/
theorem rebinds {f f' : Nat} (hf : k.Rebinds w f f') : k'.Rebinds w f f' := by
  have hsame := h.closure f' hf.lt
  refine ⟨hf.old, hf.new, hf.lt.trans_le h.le, ?_, ?_⟩
  · rw [hsame, hf.template]
  · rw [hsame]
    exact hf.captured.imp fun _ _ hs => h.scopes.subset hs

/-- An object stays copied. -/
theorem image {o o' : Object} (ho : k.Image w o o') : k'.Image w o o' := by
  match o, o', ho with
  | .scope _, .scope _, ho => exact h.scopes.subset ho
  | .closure _, .closure _, ho => exact h.rebinds ho

/-- Objects stay copied, all of them. -/
theorem images {l l' : List Object} (hl : List.Forall₂ (k.Image w) l l') :
    List.Forall₂ (k'.Image w) l l' := hl.imp fun _ _ => h.image

/-- The copy of a value stays one. -/
theorem copyOf {v v' : Value} (hv : k.CopyOf w v v') : k'.CopyOf w v v' := by
  cases v with
  | closure f =>
    obtain ⟨f', rfl, hf⟩ := hv
    exact ⟨f', rfl, h.rebinds hf⟩
  | _ => exact hv

/-- The copy of a binding stays one. -/
theorem bindingCopy {b b' : Nat × Value} (hb : k.BindingCopy w b b') : k'.BindingCopy w b b' :=
  ⟨hb.1, h.copyOf hb.2⟩

end Extends

/-! ## Sound copies -/

/-- What holds at any time of the copies of what can be reached from `roots` in `w`. -/
structure Sound (w : World σ) (roots : List Object) (filling : List Nat) (k : Copies σ) :
    Prop where
  size : k.world.scopes.size = w.scopes.size + k.scopes.length
  oldScopes : ∀ s < w.scopes.size, k.world.scope s = w.scope s
  le : w.closures.size ≤ k.world.closures.size
  oldClosures : ∀ f < w.closures.size, k.world.closure f = w.closure f
  distinct : (k.scopes.map Prod.fst).Nodup
  copies : k.scopes.map Prod.snd = (List.range' w.scopes.size k.scopes.length).reverse
  reached : ∀ p ∈ k.scopes, w.Reaches roots (.scope p.1)
  noted : ∀ p ∈ k.closures, k.Rebinds w p.1 p.2
  closures : ∀ f, w.closures.size ≤ f → f < k.world.closures.size → ∃ g, k.Rebinds w g f
  filled : ∀ p ∈ k.scopes, p.2 ∉ filling →
    List.Forall₂ (k.BindingCopy w) (w.scope p.1).bindings (k.world.scope p.2).bindings

/-- Nothing has been copied yet. -/
theorem sound_start (w : World σ) (roots : List Object) :
    Sound w roots [] { world := w } where
  size := rfl
  oldScopes _ _ := rfl
  le := le_rfl
  oldClosures _ _ := rfl
  distinct := List.nodup_nil
  copies := rfl
  reached := nofun
  noted := nofun
  closures _ hle hlt := absurd hlt hle.not_gt
  filled := nofun

namespace Sound

variable (hk : k.Sound w roots filling)
include hk

/-- The copy of a scope is a new one. -/
theorem mem_copies {s s' : Nat} (h : (s, s') ∈ k.scopes) :
    w.scopes.size ≤ s' ∧ s' < k.world.scopes.size := by
  have hmem : s' ∈ k.scopes.map Prod.snd := List.mem_map_of_mem h
  rw [hk.copies, List.mem_reverse, List.mem_range'_1] at hmem
  rw [hk.size]
  exact hmem

/-- Different scopes have different copies. -/
theorem original_unique {s t s' : Nat} (h : (s, s') ∈ k.scopes) (h' : (t, s') ∈ k.scopes) :
    s = t := by
  have hnodup : (k.scopes.map Prod.snd).Nodup := by
    rw [hk.copies, List.nodup_reverse]
    exact List.nodup_range'
  exact congrArg Prod.fst (List.inj_on_of_nodup_map hnodup h h' rfl)

/-- There are at most as many notes as scopes. -/
theorem length_le (hhas : ∀ o, w.Reaches roots o → w.Has o) :
    k.scopes.length ≤ w.scopes.size := by
  have hsub : k.scopes.map Prod.fst ⊆ List.range w.scopes.size := by
    intro s hs
    obtain ⟨p, hp, rfl⟩ := List.mem_map.1 hs
    exact List.mem_range.2 (hhas _ (hk.reached p hp))
  simpa using (List.subperm_of_subset hk.distinct hsub).length_le

/-! ### Steps -/

/-- A scope that is met for the first time. -/
theorem openScope {s : Nat} (hs : w.Reaches roots (.scope s)) (hnew : k.scopes.lookup s = none) :
    k.Extends (k.openScope s).2 ∧
      (k.openScope s).2.Sound w roots (k.world.scopes.size :: filling) := by
  have hext : k.Extends (k.openScope s).2 := ⟨List.suffix_cons _ _, le_rfl, fun _ _ => rfl⟩
  refine ⟨hext, ?_, fun t ht => ?_, hk.le, hk.oldClosures, ?_, ?_, ?_, ?_, ?_, ?_⟩
  · simp only [Copies.openScope, World.newScope, Array.size_push, hk.size, List.length_cons]
    omega
  · have hne : t ≠ k.world.scopes.size := by have := hk.size; omega
    exact (World.scope_newScope _ _ t).trans ((if_neg hne).trans (hk.oldScopes t ht))
  -- the scope had no copy before
  · refine List.nodup_cons.2 ⟨fun hmem => ?_, hk.distinct⟩
    obtain ⟨p, hp, rfl⟩ := List.mem_map.1 hmem
    simpa using List.lookup_eq_none_iff.1 hnew p hp
  · change k.world.scopes.size :: k.scopes.map Prod.snd =
      (List.range' w.scopes.size (k.scopes.length + 1)).reverse
    rw [hk.copies, hk.size, List.range'_concat, List.reverse_append, one_mul]
    rfl
  · intro p hp
    rcases List.mem_cons.1 hp with rfl | hp
    · exact hs
    · exact hk.reached p hp
  · exact fun p hp => hext.rebinds (hk.noted p hp)
  · intro f hle hlt
    obtain ⟨g, hg⟩ := hk.closures f hle hlt
    exact ⟨g, hext.rebinds hg⟩
  -- the new copy is still to be filled, and the others are as they were
  · intro p hp hfill
    rw [List.mem_cons, not_or] at hfill
    rcases List.mem_cons.1 hp with rfl | hp
    · exact absurd rfl hfill.1
    · have hscope : (k.openScope s).2.world.scope p.2 = k.world.scope p.2 :=
        (World.scope_newScope _ _ p.2).trans (if_neg hfill.1)
      rw [hscope]
      exact (hk.filled p hp hfill.2).imp fun _ _ => hext.bindingCopy

/-- The contents of a scope's copy. -/
theorem fillScope {s s' : Nat} {values : List (Nat × Value)} (hfill : filling = s' :: filling.tail)
    (hs : (s, s') ∈ k.scopes)
    (hvalues : List.Forall₂ (k.BindingCopy w) (w.scope s).bindings values) :
    k.Extends (k.fillScope s' values) ∧ (k.fillScope s' values).Sound w roots filling.tail := by
  have hext : k.Extends (k.fillScope s' values) := ⟨List.suffix_refl _, le_rfl, fun _ _ => rfl⟩
  obtain ⟨hle, hlt⟩ := hk.mem_copies hs
  have hscope : ∀ t, (k.fillScope s' values).world.scope t =
      if t = s' then ⟨values⟩ else k.world.scope t := by
    intro t
    simp only [Copies.fillScope, World.modifyScope, World.scope, Array.getD_eq_getD_getElem?,
      Array.getElem?_modify]
    by_cases ht : t = s'
    · subst ht
      simp [hlt]
    · simp [ht, Ne.symm ht]
  refine ⟨hext, ?_, fun t ht => ?_, hk.le, hk.oldClosures, hk.distinct, hk.copies, hk.reached,
    fun p hp => hext.rebinds (hk.noted p hp), fun f hle hlt => ?_, fun p hp hnot => ?_⟩
  · simpa [Copies.fillScope, World.modifyScope] using hk.size
  · rw [hscope, if_neg (by omega)]
    exact hk.oldScopes t ht
  · obtain ⟨g, hg⟩ := hk.closures f hle hlt
    exact ⟨g, hext.rebinds hg⟩
  · rw [hscope]
    -- the one that is filled now has the contents given, and the others are as they were
    by_cases hp' : p.2 = s'
    · obtain ⟨t, t'⟩ := p
      obtain rfl : t' = s' := hp'
      rw [if_pos rfl, hk.original_unique hp hs]
      exact hvalues.imp fun _ _ => hext.bindingCopy
    · rw [if_neg hp']
      refine (hk.filled p hp ?_).imp fun _ _ => hext.bindingCopy
      rw [hfill, List.mem_cons, not_or]
      exact ⟨hp', hnot⟩

/-- A copy of a closure. -/
theorem addClosure {f : Nat} {captured : Chain} (hf : f < w.closures.size)
    (hcap : List.Forall₂ (fun s s' => (s, s') ∈ k.scopes) (w.closure f).captured captured) :
    k.Extends (k.addClosure f captured).2 ∧ (k.addClosure f captured).2.Sound w roots filling ∧
      (k.addClosure f captured).2.Rebinds w f (k.addClosure f captured).1 := by
  have hclosure : ∀ g, (k.addClosure f captured).2.world.closure g =
      if g = k.world.closures.size then ⟨(w.closure f).template, captured⟩
      else k.world.closure g := by
    intro g
    rw [← hk.oldClosures f hf]
    simp only [Copies.addClosure, World.newClosure, World.closure, Array.getD_eq_getD_getElem?,
      Array.getElem?_push]
    split <;> rfl
  have hsize : (k.addClosure f captured).2.world.closures.size = k.world.closures.size + 1 :=
    Array.size_push _
  have hext : k.Extends (k.addClosure f captured).2 :=
    ⟨List.suffix_refl _, by omega, fun g hg => by rw [hclosure, if_neg hg.ne]⟩
  have hnew : (k.addClosure f captured).2.Rebinds w f k.world.closures.size := by
    refine ⟨hf, hk.le, by omega, ?_, ?_⟩
    · rw [hclosure, if_pos rfl]
    · rw [hclosure, if_pos rfl]
      exact hcap
  refine ⟨hext, ⟨hk.size, hk.oldScopes, by have := hk.le; omega, fun g hg => ?_, hk.distinct,
    hk.copies, hk.reached, fun p hp => ?_, fun g hle hlt => ?_, fun p hp hnot => ?_⟩, hnew⟩
  · rw [hext.closure g (hg.trans_le hk.le), hk.oldClosures g hg]
  · rcases List.mem_cons.1 hp with rfl | hp
    · exact hnew
    · exact hext.rebinds (hk.noted p hp)
  -- the new closure is the last one
  · rcases Nat.lt_or_ge g k.world.closures.size with hg | hg
    · obtain ⟨f', hf'⟩ := hk.closures g hle hg
      exact ⟨f', hext.rebinds hf'⟩
    · obtain rfl : g = k.world.closures.size := by omega
      exact ⟨f, hnew⟩
  · exact (hk.filled p hp hnot).imp fun _ _ => hext.bindingCopy

end Sound

end Copies

/-! ## Parts of copying -/

namespace Copying

open Copies

variable (w : World σ) (roots : List Object)

/-- From sound copies after `k₀` a part of copying succeeds, given enough depth, and leads to sound
copies and a result with `R`. -/
def Adds (depth : Nat) (k₀ : Copies σ) (m : Copying σ α) (R : Copies σ → α → Prop) : Prop :=
  ∀ filling k, k₀.Extends k → k.Sound w roots filling → w.scopes.size < depth + k.scopes.length →
    Gives m k fun a k' => k.Extends k' ∧ k'.Sound w roots filling ∧ R k' a

variable {w roots}

namespace Adds

variable {depth : Nat} {k₀ : Copies σ} {m : Copying σ α} {R : Copies σ → α → Prop}

/-- A value adds nothing. -/
theorem pure {a : α} (h : ∀ k, k₀.Extends k → R k a) : Adds w roots depth k₀ (Pure.pure a) R :=
  fun _ k hk hsound _ => .pure ⟨.refl k, hsound, h k hk⟩

/-- What one part has copied lasts while the next one copies. -/
theorem bind {f : α → Copying σ β} {S : Copies σ → β → Prop} (h : Adds w roots depth k₀ m R)
    (hf : ∀ a k₁, k₀.Extends k₁ → R k₁ a → Adds w roots depth k₁ (f a) S) :
    Adds w roots depth k₀ (m >>= f) S := by
  intro filling k hk hsound hdepth
  refine .bind ((h filling k hk hsound hdepth).mono ?_)
  rintro a k₁ ⟨h₁, hsound₁, hR⟩
  have hlen := h₁.scopes.length_le
  refine (hf a k₁ (hk.trans h₁) hR filling k₁ (.refl k₁) hsound₁ (by omega)).mono ?_
  rintro b k₂ ⟨h₂, hsound₂, hS⟩
  exact ⟨h₁.trans h₂, hsound₂, hS⟩

/-- What is copied may be described in a weaker way. -/
theorem imp {S : Copies σ → α → Prop} (h : Adds w roots depth k₀ m R)
    (hRS : ∀ k a, R k a → S k a) : Adds w roots depth k₀ m S :=
  fun filling k hk hsound hdepth =>
    (h filling k hk hsound hdepth).mono fun a k' h => ⟨h.1, h.2.1, hRS k' a h.2.2⟩

end Adds

/-- A relation between originals and copies that more copies do not change. -/
def Lasting (R : Copies σ → α → β → Prop) : Prop :=
  ∀ {k k' : Copies σ} {a : α} {b : β}, k.Extends k' → R k a b → R k' a b

variable {depth : Nat} {R : Copies σ → α → α → Prop}

/-- A stack is copied from its end, by induction. -/
theorem stack_adds (hR : Lasting R) {f : α → Copying σ α} {l : List α}
    (hf : ∀ a ∈ l, ∀ k₀, Adds w roots depth k₀ (f a) (R · a)) (k₀ : Copies σ) :
    Adds w roots depth k₀ (stack f l) fun k l' => List.Forall₂ (R k) l l' := by
  induction l with
  | nil => exact .pure fun _ _ => .nil
  | cons a l ih =>
    refine (ih fun b hb => hf b (List.mem_cons_of_mem _ hb)).bind fun l' k₁ _ hl => ?_
    refine (hf a List.mem_cons_self k₁).bind fun a' k₂ h₂ ha => .pure fun k hk => ?_
    exact .cons (hR hk ha) (hl.imp fun _ _ h => hR (h₂.trans hk) h)

/-- What may be missing is copied if it is there. -/
theorem optional_adds (hR : Lasting R) {f : α → Copying σ α} {o : Option α}
    (hf : ∀ a ∈ o, ∀ k₀, Adds w roots depth k₀ (f a) (R · a)) (k₀ : Copies σ) :
    Adds w roots depth k₀ (optional f o) fun k o' => List.Forall₂ (R k) o.toList o'.toList := by
  cases o with
  | none => exact .pure fun _ _ => .nil
  | some a =>
    exact (hf a rfl k₀).bind fun a' k₁ _ ha => .pure fun k hk => .cons (hR hk ha) .nil

/-- The copies of the parts of a list are the copies of the whole. -/
theorem images_flatMap {k : Copies σ} {f : α → List Object} {l l' : List α}
    (h : List.Forall₂ (fun a a' => List.Forall₂ (k.Image w) (f a) (f a')) l l') :
    List.Forall₂ (k.Image w) (l.flatMap f) (l'.flatMap f) := by
  induction h with
  | nil => exact .nil
  | cons ha _ ih => exact List.rel_append ha ih

/-- All objects of a thing can be reached. -/
def Reachable (w : World σ) (roots l : List Object) : Prop := ∀ o ∈ l, w.Reaches roots o

section

variable (hhas : ∀ o, w.Reaches roots o → w.Has o) {copyScope : Nat → Copying σ Nat}
  (hscope : ∀ s, w.Reaches roots (.scope s) → ∀ k₀,
    Adds w roots depth k₀ (copyScope s) fun k s' => (s, s') ∈ k.scopes)

section

include hscope

/-- A chain is copied scope by scope. -/
theorem chain_adds {χ : Chain} (hχ : Reachable w roots χ.objects) (k₀ : Copies σ) :
    Adds w roots depth k₀ (chain copyScope χ) fun k χ' =>
      List.Forall₂ (fun s s' => (s, s') ∈ k.scopes) χ χ' := by
  refine stack_adds (R := fun k s s' => (s, s') ∈ k.scopes) (fun h hs => h.scopes.subset hs)
    (fun s hs => ?_) k₀
  exact hscope s (hχ _ (List.mem_map_of_mem hs))

/-- A chain as the objects it refers to. -/
theorem chain_images {χ : Chain} (hχ : Reachable w roots χ.objects) (k₀ : Copies σ) :
    Adds w roots depth k₀ (chain copyScope χ) fun k χ' =>
      List.Forall₂ (k.Image w) χ.objects (Chain.objects χ') :=
  (chain_adds hscope hχ k₀).imp fun _ _ h =>
    List.forall₂_map_left_iff.2 (List.forall₂_map_right_iff.2 h)

end

include hhas hscope

/-- A closure is copied once: the second time its copy is found. -/
theorem closure_adds {f : Nat} (hf : w.Reaches roots (.closure f)) (k₀ : Copies σ) :
    Adds w roots depth k₀ (closure copyScope f) fun k f' => k.Rebinds w f f' := by
  intro filling k hk hsound hdepth
  refine .bind (.get ?_)
  split
  · rename_i f' hlookup
    refine .pure ⟨.refl k, hsound, hsound.noted (f, f') ?_⟩
    obtain ⟨l₁, l₂, hl, -⟩ := List.lookup_eq_some_iff.1 hlookup
    simp [hl]
  · have hlt : f < w.closures.size := hhas _ hf
    refine .bind (.get ?_)
    rw [hsound.oldClosures f hlt]
    have hcap : Reachable w roots (Chain.objects (w.closure f).captured) :=
      fun o ho => .next hf ho
    refine .bind ((chain_adds hscope hcap k filling k (.refl k) hsound hdepth).mono ?_)
    rintro captured k₁ ⟨h₁, hsound₁, hmap⟩
    obtain ⟨h₂, hsound₂, hnew⟩ := hsound₁.addClosure hlt hmap
    exact .modifyGet ⟨h₁.trans h₂, hsound₂, hnew⟩

/-- Only closures have to be copied among the values. -/
theorem value_adds {v : Value} (hv : Reachable w roots v.objects) (k₀ : Copies σ) :
    Adds w roots depth k₀ (value copyScope v) fun k v' => k.CopyOf w v v' := by
  cases v with
  | closure f =>
    refine (closure_adds hhas hscope (hv _ (List.mem_singleton.2 rfl)) k₀).bind ?_
    exact fun f' k₁ _ hf' => .pure fun k hk => ⟨f', rfl, hk.rebinds hf'⟩
  | _ => exact .pure fun _ _ => rfl

/-- A value as the objects it refers to. -/
theorem value_images {v : Value} (hv : Reachable w roots v.objects) (k₀ : Copies σ) :
    Adds w roots depth k₀ (value copyScope v) fun k v' =>
      List.Forall₂ (k.Image w) v.objects v'.objects :=
  (value_adds hhas hscope hv k₀).imp fun _ _ h => h.objects

/-- The bindings of a scope are copied one by one. -/
theorem bindings_adds {l : List (Nat × Value)}
    (hl : Reachable w roots (l.flatMap fun b => b.2.objects)) (k₀ : Copies σ) :
    Adds w roots depth k₀ (bindings copyScope l) fun k l' =>
      List.Forall₂ (k.BindingCopy w) l l' := by
  induction l generalizing k₀ with
  | nil => exact .pure fun _ _ => .nil
  | cons b l ih =>
    rw [List.flatMap_cons] at hl
    refine (value_adds hhas hscope (fun o ho => hl o (List.mem_append_left _ ho)) k₀).bind ?_
    intro v' k₁ _ hv
    refine (ih (fun o ho => hl o (List.mem_append_right _ ho)) k₁).bind ?_
    intro l' k₂ h₂ hl'
    refine .pure fun k hk => .cons ⟨rfl, (h₂.trans hk).copyOf hv⟩ ?_
    exact hl'.imp fun _ _ => hk.bindingCopy

end

/-- Scopes are copied, as deep as there are scopes that have not been met. -/
theorem scope_adds (hhas : ∀ o, w.Reaches roots o → w.Has o) :
    ∀ (depth s : Nat), w.Reaches roots (.scope s) → ∀ k₀,
      Adds w roots depth k₀ (scope depth s) fun k s' => (s, s') ∈ k.scopes
  | 0, s, _, k₀ => fun filling k _ hsound hdepth => by
    have := hsound.length_le hhas
    omega
  | depth + 1, s, hs, k₀ => by
    intro filling k hk hsound hdepth
    refine .bind (.get ?_)
    split
    -- the scope has been copied already
    · rename_i s' hlookup
      refine .pure ⟨.refl k, hsound, ?_⟩
      obtain ⟨l₁, l₂, hl, -⟩ := List.lookup_eq_some_iff.1 hlookup
      simp [hl]
    -- the copy is on record before its contents are, so cycles end here
    · rename_i hlookup
      obtain ⟨h₁, hsound₁⟩ := hsound.openScope hs hlookup
      refine .bind (.modifyGet (.bind (.get ?_)))
      rw [hsound₁.oldScopes s (hhas _ hs)]
      have hcontents : Reachable w roots ((w.scope s).bindings.flatMap fun b => b.2.objects) :=
        fun o ho => .next hs ho
      -- one more scope has a copy, which makes up for the depth
      have hdepth₁ : w.scopes.size < depth + (k.openScope s).2.scopes.length := by
        simp only [Copies.openScope, List.length_cons]
        omega
      have hbindings := bindings_adds hhas (scope_adds hhas depth) hcontents (k.openScope s).2
      refine .bind ((hbindings _ _ (.refl _) hsound₁ hdepth₁).mono ?_)
      rintro values k₂ ⟨h₂, hsound₂, hvalues⟩
      have hmem : (s, k.world.scopes.size) ∈ k₂.scopes :=
        h₂.scopes.subset List.mem_cons_self
      obtain ⟨h₃, hsound₃⟩ := hsound₂.fillScope rfl hmem hvalues
      refine .bind (.modifyGet (.pure ⟨(h₁.trans h₂).trans h₃, hsound₃, ?_⟩))
      exact h₃.scopes.subset hmem

end Copying

end Coroutine
