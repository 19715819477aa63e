import Mathlib
import Coroutine.Host.Env
import Coroutine.Proofs.Code.Sound

/-!
# Variables stay bound

`World.Binds` says that a scope chain has the variables of a setting. Running programs declare and
assign variables but never remove one, so a chain that has them keeps them: `World.Grows`.

A world is sound if its closures are: the code of each fits what the chain it captured has.
-/

namespace Coroutine

/-! ## Scopes -/

namespace Scope

/-- A declaration hides what was declared before. -/
theorem get?_declare (s : Scope) (x : Nat) (v : Value) (i : Nat) :
    (s.declare x v).get? i = if i = x then some v else s.get? i := by
  simp only [get?, declare, List.lookup_cons]
  by_cases hi : i = x
  · simp [hi]
  · simp only [beq_eq_false_iff_ne.2 hi, hi, if_false]
    induction s.bindings with
    | nil => rfl
    | cons b bs ih =>
      obtain ⟨y, u⟩ := b
      by_cases hy : y = x
      · subst hy
        simp [beq_eq_false_iff_ne.2 hi, ih, List.lookup_cons]
      · simp [hy, List.lookup_cons, ih]

/-- Only what is declared can be assigned. -/
theorem get?_set (s : Scope) (x : Nat) (v : Value) (i : Nat) :
    (s.set x v).get? i = if i = x then (s.get? i).map fun _ => v else s.get? i := by
  simp only [get?, set]
  induction s.bindings with
  | nil => simp
  | cons b bs ih =>
    obtain ⟨y, u⟩ := b
    by_cases hy : y = x
    · subst hy
      by_cases hi : i = y
      · simp [hi]
      · simpa [hi, beq_eq_false_iff_ne.2 hi, List.lookup_cons] using ih
    · by_cases hi : i = y
      · simp [hi, hy]
      · simpa [hy, beq_eq_false_iff_ne.2 hi, List.lookup_cons] using ih

/-- A scope has what is declared in it. -/
theorem contains_declare (s : Scope) (x : Nat) (v : Value) (i : Nat) :
    (s.declare x v).contains i = (decide (i = x) || s.contains i) := by
  rw [contains, get?_declare]
  by_cases hi : i = x <;> simp [hi, contains]

/-- A scope has no more after an assignment. -/
theorem contains_set (s : Scope) (x : Nat) (v : Value) (i : Nat) :
    (s.set x v).contains i = s.contains i := by
  rw [contains, get?_set]
  by_cases hi : i = x <;> simp [hi, contains]

/-- Declaring variables one after the other binds them all and keeps those before. -/
theorem contains_foldl {α : Type} (key : α → Nat) (value : α → Value) (l : List α) (s : Scope)
    (i : Nat) :
    (l.foldl (fun s a => s.declare (key a) (value a)) s).contains i =
      (decide (i ∈ l.map key) || s.contains i) := by
  induction l generalizing s with
  | nil => simp
  | cons a l ih =>
    rw [List.foldl_cons, ih, contains_declare]
    by_cases hi : i = key a <;> simp [hi]

/-- A scope of variables has exactly these. -/
theorem contains_ofVars (xs : List Var) (i : Nat) :
    (ofVars xs).contains i = decide (i ∈ xs.map Var.word) := by
  rw [ofVars, contains_foldl Var.word fun _ => .unit]
  exact Bool.or_false _

/-- A scope of arguments has the parameters, if there are as many. -/
theorem contains_ofArgs {params : List Var} {args : List Value}
    (h : params.length = args.length) (i : Nat) :
    (ofArgs params args).contains i = decide (i ∈ params.map Var.word) := by
  have hkeys : (params.zip args).map (fun a => a.1.word) = params.map Var.word := by
    change (params.zip args).map (Var.word ∘ Prod.fst) = params.map Var.word
    rw [← List.map_map, List.map_fst_zip h.le]
  rw [ofArgs, contains_foldl (fun a : Var × Value => a.1.word) (fun a => a.2), hkeys]
  exact Bool.or_false _

end Scope

/-! ## Chains -/

/-- Cutting back to the height of a chain drops what lies on top of it. -/
theorem Chain.truncate_append (ext χ : Chain) : Chain.truncate (ext ++ χ) χ.length = χ := by
  rw [Chain.truncate, List.length_append, Nat.add_sub_cancel, List.drop_left]

/-- A chain is no higher than itself. -/
theorem Chain.truncate_self (χ : Chain) : χ.truncate χ.length = χ := truncate_append [] χ

namespace World

variable {σ : Type} {w w' w'' : World σ} {χ : Chain} {s : Setting}

/-- A new scope gets the next number. -/
theorem scope_newScope (w : World σ) (sc : Scope) (k : Nat) :
    (w.newScope sc).2.scope k = if k = w.scopes.size then sc else w.scope k := by
  simp only [newScope, scope, Array.getD_eq_getD_getElem?, Array.getElem?_push]
  split <;> rfl

/-- Changing a scope leaves all others alone. -/
theorem scope_modifyScope (w : World σ) (t : Nat) (f : Scope → Scope) (k : Nat)
    (hf : f {} = {}) :
    (w.modifyScope t f).scope k = if t = k then f (w.scope k) else w.scope k := by
  simp only [modifyScope, scope, Array.getD_eq_getD_getElem?, Array.getElem?_modify]
  split
  · cases w.scopes[k]? <;> simp [hf]
  · rfl

/-- A chain has all variables of a setting, under their words. -/
def Binds (w : World σ) (χ : Chain) (s : Setting) : Prop :=
  ∀ i, s.bound i → ∃ t ∈ χ, (w.scope t).contains (word i) = true

/-- All variables stay bound. -/
def Grows (w w' : World σ) : Prop :=
  ∀ t i, (w.scope t).contains i = true → (w'.scope t).contains i = true

/-- A world has all that it has. -/
theorem Grows.refl (w : World σ) : w.Grows w := fun _ _ h => h

/-- What is never lost on the way is not lost. -/
theorem Grows.trans (h : w.Grows w') (h' : w'.Grows w'') : w.Grows w'' :=
  fun t i hi => h' t i (h t i hi)

/-- Variables that are bound stay bound. -/
theorem Binds.grows (h : w.Binds χ s) (hg : w.Grows w') : w'.Binds χ s := by
  intro i hi
  obtain ⟨t, ht, hc⟩ := h i hi
  exact ⟨t, ht, hg t _ hc⟩

/-- A variable that is bound is in one of the scopes of the chain. -/
theorem isSome_holder? {x : Var} (h : w.Binds χ s) (hx : s.bound x.id) :
    (w.holder? χ x.word).isSome = true := by
  obtain ⟨t, ht, hc⟩ := h x.id hx
  exact List.find?_isSome.2 ⟨t, ht, hc⟩

/-- A variable that is bound is found. -/
theorem isSome_lookup {x : Var} (h : w.Binds χ s) (hx : s.bound x.id) :
    (w.lookup χ x.word).isSome = true := by
  obtain ⟨t, ht, hc⟩ := h x.id hx
  exact List.findSome?_isSome_iff.2 ⟨t, ht, hc⟩

/-- A new scope takes nothing away. -/
theorem grows_newScope (w : World σ) (sc : Scope) : w.Grows (w.newScope sc).2 := by
  intro t i hi
  rw [scope_newScope]
  split
  · rename_i ht
    subst ht
    simp [scope, Scope.contains, Scope.get?] at hi
  · exact hi

/-- A new scope on top binds what it declares. -/
theorem Binds.declaring {sc : Scope} {xs : List Var} (h : w.Binds χ s)
    (hsc : ∀ x ∈ xs, sc.contains x.word = true) :
    (w.newScope sc).2.Binds ((w.newScope sc).1 :: χ) (s.declaring xs) := by
  intro i hi
  rcases hi with hi | hi
  · refine ⟨w.scopes.size, List.mem_cons_self, ?_⟩
    obtain ⟨x, hx, rfl⟩ := List.mem_map.1 hi
    rw [scope_newScope, if_pos rfl]
    exact hsc x hx
  · obtain ⟨t, ht, hc⟩ := h i hi
    exact ⟨t, List.mem_cons_of_mem _ ht, grows_newScope w sc t _ hc⟩

/-- An assignment loses no variable. -/
theorem grows_modifyScope_set (w : World σ) (t x : Nat) (v : Value) :
    w.Grows (w.modifyScope t (·.set x v)) := by
  intro k i hi
  rw [scope_modifyScope w t _ k rfl]
  split
  · rw [Scope.contains_set]
    exact hi
  · exact hi

/-- Assigning keeps all variables. -/
theorem grows_assign (w : World σ) (χ : Chain) (x : Nat) (v : Value) :
    w.Grows (w.assign χ x v).2 := by
  rw [assign]
  split
  · exact grows_modifyScope_set w _ x v
  · exact Grows.refl w

/-- A variable that is bound can be assigned. -/
theorem assign_fst {x : Var} (h : w.Binds χ s) (hx : s.bound x.id) (v : Value) :
    (w.assign χ x.word v).1 = true := by
  obtain ⟨t, ht⟩ := Option.isSome_iff_exists.1 (isSome_holder? h hx)
  rw [assign, ht]

end World

/-! ## Closures -/

section

variable {σ : Type} {w w' w'' : World σ}

/-- The code of a closure fits what its chain has. -/
def Closure.Sound (w : World σ) (c : Closure) : Prop :=
  ∃ s : Setting, c.template.code.Sound (fun _ => False) (s.entering c.template.params) ∧
    w.Binds c.captured s

/-- All closures are sound. -/
def World.Sound (w : World σ) : Prop := ∀ k < w.closures.size, (w.closure k).Sound w

/-- A world that goes on: variables stay bound and closures stay sound. -/
structure World.Keeps (w w' : World σ) : Prop where
  grows : w.Grows w'
  sound : w'.Sound

namespace World

/-- A world without closures is sound. -/
theorem Sound.of_empty (h : w.closures = #[]) : w.Sound := by
  intro k hk
  simp [h] at hk

/-- A number that belongs to no closure stands for one that does nothing. -/
theorem Sound.closure_sound (h : w.Sound) (k : Nat) : (w.closure k).Sound w := by
  rcases Nat.lt_or_ge k w.closures.size with hk | hk
  · exact h k hk
  · have hdefault : w.closure k = default := by simp [World.closure, hk]
    rw [hdefault]
    refine ⟨⟨fun _ => False, fun _ => False, fun _ => False, false, false⟩, ?_, nofun⟩
    exact .mk (.node trivial nofun nofun) nofun nofun nofun

/-- A world with the same closures and no variable less is sound. -/
theorem Sound.keeps (h : w.Sound) (hc : w'.closures = w.closures) (hg : w.Grows w') :
    w.Keeps w' := by
  refine ⟨hg, fun k hk => ?_⟩
  rw [hc] at hk
  have hsame : w'.closure k = w.closure k := by rw [closure, closure, hc]
  obtain ⟨s, hs, hb⟩ := h k hk
  rw [hsame]
  exact ⟨s, hs, hb.grows hg⟩

/-- A sound world keeps itself. -/
theorem Keeps.refl (h : w.Sound) : w.Keeps w := ⟨.refl w, h⟩

/-- Worlds keep step by step. -/
theorem Keeps.trans (h : w.Keeps w') (h' : w'.Keeps w'') : w.Keeps w'' :=
  ⟨h.grows.trans h'.grows, h'.sound⟩

/-- Raising a fault only adds an exception. -/
theorem Sound.raise (h : w.Sound) (f : Fault) : w.Keeps (w.raise f).2 :=
  h.keeps rfl fun _ _ hi => hi

/-- Making an exception of a value changes neither scopes nor closures. -/
theorem Sound.asException (h : w.Sound) (v : Value) : w.Keeps (w.asException v).2 := by
  unfold World.asException
  split
  · exact .refl h
  · exact h.raise _

/-- A new scope loses nothing. -/
theorem Sound.newScope (h : w.Sound) (sc : Scope) : w.Keeps (w.newScope sc).2 :=
  h.keeps rfl (grows_newScope w sc)

/-- An assignment keeps a world sound. -/
theorem Sound.assign (h : w.Sound) (χ : Chain) (x : Nat) (v : Value) :
    w.Keeps (w.assign χ x v).2 := by
  refine h.keeps ?_ (grows_assign w χ x v)
  rw [World.assign]
  split <;> rfl

/-- A new closure gets the next number. -/
theorem closure_newClosure (w : World σ) (t : Template) (χ : Chain) (k : Nat) :
    (w.newClosure t χ).2.closure k = if k = w.closures.size then ⟨t, χ⟩ else w.closure k := by
  simp only [newClosure, closure, Array.getD_eq_getD_getElem?, Array.getElem?_push]
  split <;> rfl

/-- A new closure over code that fits the chain. -/
theorem Sound.newClosure (h : w.Sound) {t : Template} {χ : Chain} {s : Setting}
    (ht : t.code.Sound (fun _ => False) (s.entering t.params)) (hb : w.Binds χ s) :
    w.Keeps (w.newClosure t χ).2 := by
  have hg : w.Grows (w.newClosure t χ).2 := fun _ _ hi => hi
  refine ⟨hg, fun k hk => ?_⟩
  simp only [World.newClosure, Array.size_push] at hk
  rw [closure_newClosure]
  split
  · exact ⟨s, ht, hb.grows hg⟩
  · obtain ⟨s', hs', hb'⟩ := h k (by omega)
    exact ⟨s', hs', hb'.grows hg⟩

end World

end

end Coroutine
