import Mathlib
import Coroutine.Proofs.Graph.Stable

/-!
# The ends of no-ops

`resolveAll` looks for the end of every state in the order of their numbers, with one memo for all.
`noops_resolve` says what it finds in any graph, also where no-ops go round in circles. Which state of
a circle stands for it depends on where the first search entered it. All later ones agree, because a
no-op always has the end of the state it goes on to (`remap_of_bypass?`).
-/

namespace Coroutine.Graph

variable {g : Graph}

/-- A state that is left does nothing but go on to another one in its region. -/
structure Skips (g : Graph) (s t : Nat) : Prop where
  live : (g.state s).pruned = false
  noop : (g.state s).isNoop = true
  target : (g.state s).transition = some (.goto t)
  region : (g.state t).region = (g.state s).region

theorem bypass?_iff {s t : Nat} : g.bypass? s = some t ↔ g.Skips s t := by
  constructor
  · intro h
    obtain ⟨hexpr, hresult, htarget, hlive, hregion, -⟩ := bypass?_eq_some h
    exact ⟨hlive, by rw [State.isNoop, hexpr, hresult, htarget], htarget, hregion⟩
  · rintro ⟨hlive, hnoop, htarget, hregion⟩
    simp [bypass?, hlive, hnoop, htarget, hregion]

/-- The memo that the search for a state finds: that of the states before it. -/
def memoBefore (g : Graph) (s : Nat) : Array (Option Nat) :=
  (List.range s).foldl g.resolve (Array.replicate g.states.size none)

/-- The end of a state `s` is `e s`. -/
structure Ending (g : Graph) (e : Nat → Nat) (s : Nat) : Prop where
  /-- The search for it comes to an end, and however much fuel it has left then, it gives that state. -/
  found : ∀ fuel > g.states.size,
    Search g (g.memoBefore s) [] s (g.follow (g.memoBefore s) fuel [] s) ∧
      (g.follow (g.memoBefore s) fuel [] s).1 = e s
  exist : e s < g.states.size
  way : Relation.ReflTransGen g.Skips s (e s)
  region : (g.state (e s)).region = (g.state s).region
  /-- It goes no further, or it lies on a circle, and then it is the end of all that leads there. -/
  last : (∀ t, ¬g.Skips (e s) t) ∨ Relation.TransGen g.Skips (e s) (e s) ∧
    ∀ t u, Relation.ReflTransGen g.Skips (e s) u → Relation.ReflTransGen g.Skips t u → e t = e s
  fixed : e (e s) = e s
  /-- The head of a loop stays. -/
  loop : ∀ body, (g.state s).transition = some (.loop body) →
    e s = s ∧ (g.collapse.2.state s).pruned = (g.state s).pruned

theorem way_remap (s : Nat) : Relation.ReflTransGen g.Skips s (g.remap s) := by
  induction passed_remap (g := g) s with
  | here h => rw [h]
  | step hstep hend _ ih => exact .head (bypass?_iff.1 hstep) (hend ▸ ih)

/-- All states on a way have the same end. -/
theorem remap_of_way {s t : Nat} (h : Relation.ReflTransGen g.Skips s t) : g.remap s = g.remap t := by
  induction h with
  | refl => rfl
  | tail _ hstep ih => exact ih.trans (remap_of_bypass? (bypass?_iff.2 hstep)).symm

theorem region_of_way {s t : Nat} (h : Relation.ReflTransGen g.Skips s t) :
    (g.state t).region = (g.state s).region := by
  induction h with
  | refl => rfl
  | tail _ hstep ih => exact hstep.region.trans ih

theorem Search.unique {memo : Array (Option Nat)} {chain : List Nat} {c : Nat}
    {r r' : Nat × List Nat} (h : Search g memo chain c r) (h' : Search g memo chain c r') :
    r = r' := by
  induction h with
  | known | again | stop => cases h' <;> simp_all
  | step _ _ _ _ ih =>
    cases h' with
    | step _ _ hnext h' =>
      refine ih ?_
      simp_all
    | _ => simp_all

/-- What the search for a state finds is its end in the memo of all states. -/
theorem search_memoBefore {s : Nat} (hs : s < g.states.size) {r : Nat × List Nat}
    (h : Search g (g.memoBefore s) [] s r) : r.1 = g.remap s := by
  obtain ⟨hmemo, -, -⟩ := memo_foldl (List.range s) memo_replicate fun t ht =>
    (List.mem_range.1 ht).trans hs
  obtain ⟨hnext, hend, -⟩ := hmemo.resolve hs
  -- the searches for later states find the entry of this one and keep it
  obtain ⟨k, hk⟩ := Nat.exists_eq_add_of_lt hs
  have hall : g.resolveAll =
      (List.range' (s + 1) k).foldl g.resolve (g.resolve (g.memoBefore s) s) := by
    have hrange : List.range g.states.size = List.range s ++ s :: List.range' (s + 1) k := by
      rw [hk, Nat.add_assoc, List.range_eq_range', List.range_eq_range', ← List.range'_append_1,
        List.range'_succ, Nat.zero_add]
    rw [resolveAll, hrange, List.foldl_append]
    rfl
  have hkept := (memo_foldl (List.range' (s + 1) k) hnext fun t ht => by
    have := (List.mem_range'_1.1 ht).2
    omega).2.2 s _ hend
  have hsearch : Search g (g.memoBefore s) [] s (g.follow (g.memoBefore s) (g.states.size + 1) [] s) :=
    follow_search _ (by simp) trivial List.nodup_nil
  rw [h.unique hsearch]
  exact Option.some.inj (hkept.symm.trans (hall ▸ memo_resolveAll.2 s hs))

/-- In every graph whose transitions lead to states, each state has an end. -/
theorem noops_resolve (g : Graph)
    (hg : ∀ s < g.states.size, ∀ t ∈ g.successors s, t < g.states.size) :
    ∀ s < g.states.size, g.Ending g.remap s := by
  intro s hs
  refine ⟨fun fuel hfuel => ?_, ?_, way_remap s, region_of_way (way_remap s), ?_, remap_remap s,
    fun body hbody => ?_⟩
  -- there is fuel for every state to be passed once
  · have hsearch : Search g (g.memoBefore s) [] s (g.follow (g.memoBefore s) fuel [] s) :=
      follow_search fuel (by simpa using hfuel) trivial List.nodup_nil
    exact ⟨hsearch, search_memoBefore hs hsearch⟩
  · have hexist : ∀ t, Relation.ReflTransGen g.Skips s t → t < g.states.size := by
      intro t ht
      induction ht with
      | refl => exact hs
      | tail _ hstep ih => exact hg _ ih _ (by simp [successors, hstep.target, Transition.references])
    exact hexist _ (way_remap s)
  · by_cases hlast : ∃ t, g.Skips (g.remap s) t
    · -- the end goes on to a state with the same end, hence back to itself
      obtain ⟨t, ht⟩ := hlast
      have hend : g.remap t = g.remap s := (remap_of_bypass? (bypass?_iff.2 ht)).trans (remap_remap s)
      refine .inr ⟨.head' ht (hend ▸ way_remap t), fun t u hu htu => ?_⟩
      rw [remap_of_way htu, ← remap_of_way hu, remap_remap]
    · exact .inl (not_exists.1 hlast)
  -- a loop is not skipped, so it is its own end
  · have hend : g.remap s = s := by
      rcases Relation.ReflTransGen.cases_head (way_remap (g := g) s) with h | ⟨t, ht, -⟩
      · exact h.symm
      · cases hbody.symm.trans ht.target
    refine ⟨hend, ?_⟩
    rw [state_collapse hs]
    split
    · rfl
    · rename_i hlive
      simp [hend, hlive]

/-- A no-op that leads into a circle of two, and one that leaves its region. -/
def spinning : Graph where
  name := "spinning"
  kind := .async
  params := []
  zones := #[]
  openZones := []
  states := #[
    { zone := 0, region := 0, transition := some (.goto 2) },
    { zone := 0, region := 0, transition := some (.goto 2) },
    { zone := 0, region := 0, transition := some (.goto 1) },
    { zone := 1, region := 1, transition := some (.goto 0) }]

theorem spinning_resolve :
    (∀ s < spinning.states.size, ∀ t ∈ spinning.successors s, t < spinning.states.size) ∧
      spinning.Ending spinning.remap 0 ∧ spinning.remap 0 = 2 ∧
      spinning.Ending spinning.remap 3 ∧ spinning.remap 3 = 3 := by
  have htargets : ∀ s < spinning.states.size, ∀ t ∈ spinning.successors s,
      t < spinning.states.size := by decide
  exact ⟨htargets, noops_resolve spinning htargets 0 (by decide), by decide,
    noops_resolve spinning htargets 3 (by decide), by decide⟩

end Coroutine.Graph
