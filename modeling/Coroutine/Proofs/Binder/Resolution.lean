import Mathlib
import Coroutine.Binder
import Coroutine.Proofs.Ensures

/-!
# Resolving a name

A registry keeps what it has resolved. `Answers` says what a name stands for after a sequence of
calls: the object last registered under it, otherwise what the first factory that accepts it makes.
This does not mention the cache, and `resolve_transparent` shows that no answer depends on it, except
that a name keeps its object until another one is registered for it.

The invariant is `Follows`: registrations and factories are those of the calls, and whatever the
cache holds is an answer. A registration is the only call that makes another object the answer, and
only for its own name, whose entry it removes. A new factory is asked after all others, so it changes
no answer that there is already; that there was none is never kept.
-/

namespace Coroutine.Registry

/-- A call of a registry. -/
inductive Call where
  | register (o : BinderObject)
  | addFactory (f : Factory)
  | resolve (name : String)

/-- The object that a call registers under a name. -/
def Call.object? (name : String) : Call → Option BinderObject
  | .register o => if o.binder.typeName = name then some o else none
  | _ => none

/-- The factory that a call adds. -/
def Call.factory? : Call → Option Factory
  | .addFactory f => some f
  | _ => none

/-- The registry after a call. -/
def call (r : Registry) : Call → Registry
  | .register o => r.enter o
  | .addFactory f => r.addFactory f
  | .resolve name => (r.resolve name).2

/-- The registry after calls. -/
def run (r : Registry) (calls : List Call) : Registry := calls.foldl call r

/-- The registry without its cache. -/
def forget (r : Registry) : Registry := { r with cache := [] }

/-- The registry after calls, if it had no cache. -/
def runUncached (r : Registry) (calls : List Call) : Registry :=
  calls.foldl (fun r c => (r.call c).forget) r

/-- The object last registered under a name. -/
def last? (r : Registry) (calls : List Call) (name : String) : Option BinderObject :=
  (calls.reverse.findSome? (·.object? name)).or (r.registered.lookup name)

/-- The factories in the order of their addition. -/
def added (r : Registry) (calls : List Call) : List Factory :=
  r.factories ++ calls.filterMap Call.factory?

/-- What resolving a name gives after calls. -/
inductive Answers (r : Registry) (calls : List Call) (name : String) :
    Except BuildError BinderObject → Prop
  | registered {o : BinderObject} (ho : r.last? calls name = some o) : Answers r calls name (.ok o)
  | made {b : Binder} (id : Nat) (hnone : r.last? calls name = none)
      (hb : (r.added calls).findSome? (· name) = some b) : Answers r calls name (.ok ⟨b, id⟩)
  | missing (hnone : r.last? calls name = none)
      (hb : (r.added calls).findSome? (· name) = none) :
      Answers r calls name (.error (.notAwaitable name))

/-! ## Look-ups -/

/-- The first entry of a name counts. -/
theorem lookup_cons_eq (l : List (String × BinderObject)) (n m : String) (o : BinderObject) :
    ((n, o) :: l).lookup m = if n = m then some o else l.lookup m := by
  rw [List.lookup_cons]
  by_cases h : n = m
  · rw [if_pos h, h, beq_self_eq_true]
  · rw [if_neg h, beq_false_of_ne (Ne.symm h)]

/-- Entries that were taken out are not found. -/
theorem lookup_filter_ne (l : List (String × BinderObject)) (n m : String) :
    (l.filter (·.1 != n)).lookup m = if n = m then none else l.lookup m := by
  induction l with
  | nil => simp
  | cons x l ih =>
    obtain ⟨k, o⟩ := x
    by_cases hk : k = n
    · rw [List.filter_cons_of_neg (by simpa using hk), ih, lookup_cons_eq, hk]
      split <;> rfl
    · rw [List.filter_cons_of_pos (by simpa using hk), lookup_cons_eq, lookup_cons_eq, ih]
      split
      · rename_i hm
        rw [if_neg fun h => hk (hm.trans h.symm)]
      · rfl

variable {r₀ r : Registry} {calls : List Call} {name : String} {o : BinderObject}

/-- The last call that says something about a name counts. -/
theorem last?_append (c : Call) :
    r₀.last? (calls ++ [c]) name = (c.object? name).or (r₀.last? calls name) := by
  rw [last?, last?, List.reverse_append, List.reverse_singleton, List.singleton_append]
  cases h : c.object? name <;> simp [h]

/-- Factories are added in the order of the calls. -/
theorem added_append (c : Call) :
    r₀.added (calls ++ [c]) = r₀.added calls ++ c.factory?.toList := by
  rw [added, added, List.filterMap_append, List.append_assoc]
  cases c <;> rfl

/-- An answer outlives a call that does not register its name. -/
theorem Answers.append (h : Answers r₀ calls name (.ok o)) {c : Call} (hc : c.object? name = none) :
    Answers r₀ (calls ++ [c]) name (.ok o) := by
  have hlast : r₀.last? (calls ++ [c]) name = r₀.last? calls name := by rw [last?_append, hc]; rfl
  cases h with
  | registered ho => exact .registered (hlast.trans ho)
  | made id hnone hb =>
    -- a new factory comes after the one that made the object
    refine .made id (hlast.trans hnone) ?_
    rw [added_append, List.findSome?_append, hb]
    rfl

/-- Two answers differ at most in the object that a factory made. -/
theorem Answers.binder_eq {a b : Except BuildError BinderObject} (ha : Answers r₀ calls name a)
    (hb : Answers r₀ calls name b) : a.map BinderObject.binder = b.map BinderObject.binder := by
  cases ha <;> cases hb <;> simp_all [Except.map]

/-! ## Runs -/

/-- A registry is what calls have made of another one. -/
structure Follows (r₀ : Registry) (calls : List Call) (r : Registry) : Prop where
  registered : ∀ name, r.registered.lookup name = r₀.last? calls name
  factories : r.factories = r₀.added calls
  cache : ∀ name o, r.cache.lookup name = some o → Answers r₀ calls name (.ok o)

/-- Forgetting what was resolved changes no answer. -/
theorem Follows.forget (h : Follows r₀ calls r) : Follows r₀ calls r.forget :=
  ⟨h.registered, h.factories, nofun⟩

/-- Resolving gives an answer. -/
theorem Follows.answers (h : Follows r₀ calls r) (name : String) :
    Answers r₀ calls name (r.resolve name).1 := by
  unfold resolve
  split
  · rename_i o ho
    exact h.cache name o ho
  · split
    · rename_i o ho
      exact .registered (h.registered name ▸ ho)
    · rename_i hnone
      rw [h.registered] at hnone
      rw [h.factories]
      split
      · rename_i b hb
        exact .made _ hnone hb
      · rename_i hb
        exact .missing hnone hb

/-- What was resolved before is the answer. -/
theorem resolve_of_cached (h : r.cache.lookup name = some o) : r.resolve name = (.ok o, r) := by
  rw [resolve, h]

/-- Resolving keeps the answer that it gives, and nothing else changes. -/
theorem resolve_eq (r : Registry) (name : String) : (r.resolve name).2.registered = r.registered ∧
    (r.resolve name).2.factories = r.factories ∧
    ∀ m, (r.resolve name).2.cache.lookup m =
      if name = m then (r.resolve name).1.toOption else r.cache.lookup m := by
  cases hcache : r.cache.lookup name with
  | some o =>
    rw [resolve_of_cached hcache]
    refine ⟨rfl, rfl, fun m => ?_⟩
    split
    · rename_i hm
      exact hm ▸ hcache
    · rfl
  | none =>
    unfold resolve
    rw [hcache]
    dsimp only
    split
    · exact ⟨rfl, rfl, fun m => lookup_cons_eq ..⟩
    · split
      · exact ⟨rfl, rfl, fun m => lookup_cons_eq ..⟩
      · refine ⟨rfl, rfl, fun m => ?_⟩
        split
        · rename_i hm
          exact hm ▸ hcache
        · rfl

/-- A call makes of a registry what it should. -/
theorem Follows.step (h : Follows r₀ calls r) (c : Call) :
    Follows r₀ (calls ++ [c]) (r.call c) := by
  cases c with
  | register o =>
    refine ⟨fun name => ?_, ?_, fun name p hp => ?_⟩
    · rw [last?_append, ← h.registered, call, enter, lookup_cons_eq, lookup_filter_ne, Call.object?]
      split <;> rfl
    · rw [added_append, ← h.factories]
      exact (List.append_nil _).symm
    · -- the entry for the name is gone, and no other answer has changed
      rw [call, enter, lookup_filter_ne] at hp
      split at hp
      · cases hp
      · rename_i hname
        exact (h.cache name p hp).append (if_neg hname)
  | addFactory f =>
    refine ⟨fun name => ?_, ?_, fun name p hp => (h.cache name p hp).append rfl⟩
    · rw [last?_append]
      exact h.registered name
    · rw [added_append, ← h.factories]
      rfl
  | resolve n =>
    obtain ⟨hregistered, hfactories, hcache⟩ := r.resolve_eq n
    refine ⟨fun name => ?_, ?_, fun name p hp => ?_⟩
    · rw [last?_append, ← h.registered, call, hregistered]
      rfl
    · rw [added_append, ← h.factories, call, hfactories]
      exact (List.append_nil _).symm
    · refine Answers.append ?_ rfl
      rw [call, hcache] at hp
      -- only the name that was asked for may have a new answer
      split at hp
      · rename_i hname
        have hanswer := h.answers n
        rw [eq_ok_of_toOption hp] at hanswer
        exact hname ▸ hanswer
      · exact h.cache name p hp

/-- Calls make of a registry what they should, also if it loses its cache now and then. -/
theorem Follows.foldl (step : Registry → Call → Registry)
    (hstep : ∀ r c, step r c = r.call c ∨ step r c = (r.call c).forget) (h : Follows r₀ calls r)
    (later : List Call) : Follows r₀ (calls ++ later) (later.foldl step r) := by
  induction later generalizing calls r with
  | nil => rwa [List.append_nil]
  | cons c later ih =>
    rw [List.append_cons]
    refine ih ?_
    rcases hstep r c with heq | heq <;> rw [heq]
    · exact h.step c
    · exact (h.step c).forget

/-- A name that has been resolved keeps its object until it is registered. -/
theorem lookup_cache_run (h : r.cache.lookup name = some o) (later : List Call)
    (hlater : ∀ c ∈ later, c.object? name = none) : (r.run later).cache.lookup name = some o := by
  induction later generalizing r with
  | nil => exact h
  | cons c later ih =>
    obtain ⟨hc, hlater⟩ := List.forall_mem_cons.1 hlater
    refine ih ?_ hlater
    cases c with
    | register p =>
      rw [call, enter, lookup_filter_ne, if_neg, h]
      intro hname
      rw [Call.object?, if_pos hname] at hc
      cases hc
    | addFactory f => exact h
    | resolve n =>
      rw [call, (r.resolve_eq n).2.2]
      split
      · rename_i hname
        rw [resolve_of_cached (hname ▸ h)]
        rfl
      · exact h

/-- Whatever calls came before, a name resolves to the object last registered under it, otherwise to
what the first factory makes that accepts it, as it would without a cache. Once resolved, it resolves
to the same object until it is registered again. -/
theorem resolve_transparent (r : Registry) (hnew : r.cache = []) (calls : List Call) (name : String) :
    Answers r calls name ((r.run calls).resolve name).1 ∧
      ((r.run calls).resolve name).1.map BinderObject.binder =
        ((r.runUncached calls).resolve name).1.map BinderObject.binder ∧
      ∀ later, (∀ c ∈ later, c.object? name = none) → ∀ o, ((r.run calls).resolve name).1 = .ok o →
        ((r.run (calls ++ .resolve name :: later)).resolve name).1 = .ok o := by
  have hstart : Follows r [] r := by
    refine ⟨fun _ => rfl, (List.append_nil _).symm, fun name o ho => ?_⟩
    rw [hnew] at ho
    cases ho
  have hcached : Answers r calls name ((r.run calls).resolve name).1 :=
    (hstart.foldl call (fun _ _ => .inl rfl) calls).answers name
  have huncached : Answers r calls name ((r.runUncached calls).resolve name).1 :=
    (hstart.foldl (fun r c => (r.call c).forget) (fun _ _ => .inr rfl) calls).answers name
  refine ⟨hcached, hcached.binder_eq huncached, fun later hlater o ho => ?_⟩
  have hkept : ((r.run calls).call (.resolve name)).cache.lookup name = some o := by
    rw [call, ((r.run calls).resolve_eq name).2.2, if_pos rfl, ho]
    rfl
  rw [run, List.foldl_append, List.foldl_cons]
  exact congrArg Prod.fst (resolve_of_cached (lookup_cache_run hkept later hlater))

/-- Resolved by a factory, then registered, with another factory for the name added in between. -/
def overridden : List Call :=
  [.resolve "Lazy", .addFactory fun name => some (.task name), .resolve "Lazy",
    .register ⟨⟨"Lazy", .foreign "Lazy"⟩, 5⟩, .addFactory fun _ => some .immediate]

theorem overridden_transparent : builtin.cache = [] ∧
    Answers builtin overridden "Lazy" (.ok ⟨⟨"Lazy", .foreign "Lazy"⟩, 5⟩) ∧
    ((builtin.run (overridden ++ [.resolve "Lazy", .resolve "Task"])).resolve "Lazy").1 =
      .ok ⟨⟨"Lazy", .foreign "Lazy"⟩, 5⟩ := by
  obtain ⟨hanswers, -, hkept⟩ := resolve_transparent builtin rfl overridden "Lazy"
  have hlazy : ((builtin.run overridden).resolve "Lazy").1 = .ok ⟨⟨"Lazy", .foreign "Lazy"⟩, 5⟩ := by
    cbv
  exact ⟨rfl, hlazy ▸ hanswers, hkept [.resolve "Task"] (by simp [Call.object?]) _ hlazy⟩

end Coroutine.Registry
