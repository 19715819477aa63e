import Mathlib
import Coroutine.Graph.Simplify
import Coroutine.Proofs.Graph.Edits

/-!
# States that runs can reach

`reachable` holds the roots of a graph and is closed under the references of its states, as far as
these are not removed. The search expands every state once, so its fuel bounds the states it takes
from the queue: those that are there, and the references of the states not yet seen.
-/

namespace Coroutine.Graph

variable {g : Graph}

/-- The number of references of the states that have not been seen. -/
def unseenReferences (g : Graph) (seen : List Nat) : Nat :=
  ((List.range g.states.size).map fun s =>
    if s ∈ seen then 0 else (g.successors s).length).sum

theorem successors_of_le {s : Nat} (hs : g.states.size ≤ s) : g.successors s = [] := by
  rw [successors, state_of_le g hs]
  rfl

/-- A sum drops at least by what one of its terms drops. -/
theorem sum_map_add_le {f f' : Nat → Nat} {w x : Nat} : ∀ {l : List Nat}, (∀ s ∈ l, f' s ≤ f s) →
    x ∈ l → f' x + w ≤ f x → (l.map f').sum + w ≤ (l.map f).sum
  | s :: l, hle, hx, hw => by
    simp only [List.map_cons, List.sum_cons]
    have hs := hle s List.mem_cons_self
    have hl : ∀ t ∈ l, f' t ≤ f t := fun t ht => hle t (List.mem_cons_of_mem _ ht)
    rcases List.mem_cons.1 hx with rfl | hx
    · have hrest : (l.map f').sum ≤ (l.map f).sum := List.sum_le_sum hl
      omega
    · have hrest := sum_map_add_le hl hx hw
      omega

/-- Seeing a state takes its references off. -/
theorem unseenReferences_cons {s : Nat} {seen : List Nat} (hs : s ∉ seen) :
    g.unseenReferences (s :: seen) + (g.successors s).length ≤ g.unseenReferences seen := by
  have hle : ∀ t ∈ List.range g.states.size,
      (if t ∈ s :: seen then 0 else (g.successors t).length) ≤
        if t ∈ seen then 0 else (g.successors t).length := by
    intro t _
    by_cases ht : t ∈ seen
    · simp [ht]
    · by_cases hts : t = s <;> simp [ht, hts]
  by_cases hlt : s < g.states.size
  · refine sum_map_add_le hle (List.mem_range.2 hlt) ?_
    simp [hs]
  · rw [successors_of_le (not_lt.1 hlt), List.length_nil, Nat.add_zero]
    exact List.sum_le_sum hle

/-- A search takes everything in that it comes to. -/
theorem reach_spec : ∀ (fuel : Nat) {queue seen : List Nat},
    queue.length + g.unseenReferences seen < fuel →
    (∀ s ∈ seen, ∀ t ∈ g.successors s, (g.state t).pruned = false → t ∈ seen ∨ t ∈ queue) →
    seen ⊆ g.reach fuel queue seen ∧
      (∀ t ∈ queue, (g.state t).pruned = false → t ∈ g.reach fuel queue seen) ∧
      (∀ s ∈ g.reach fuel queue seen, ∀ t ∈ g.successors s, (g.state t).pruned = false →
        t ∈ g.reach fuel queue seen)
  | 0, queue, seen, hfuel, _ => by omega
  | fuel + 1, [], seen, _, hclosed => by
    refine ⟨fun s hs => hs, by simp, fun s hs t ht hp => ?_⟩
    exact (hclosed s hs t ht hp).elim id fun h => by cases h
  | fuel + 1, s :: queue, seen, hfuel, hclosed => by
    unfold reach
    rw [List.length_cons] at hfuel
    split
    · -- a state that was seen, or that is pruned, only leaves the queue
      rename_i hskip
      have hskip : s ∈ seen ∨ (g.state s).pruned = true := by simpa using hskip
      have hclosed' : ∀ u ∈ seen, ∀ t ∈ g.successors u, (g.state t).pruned = false →
          t ∈ seen ∨ t ∈ queue := by
        intro u hu t ht hp
        rcases hclosed u hu t ht hp with h | h
        · exact .inl h
        · rcases List.mem_cons.1 h with rfl | h
          · refine hskip.imp_right fun hpruned => ?_
            rw [hp] at hpruned
            cases hpruned
          · exact .inr h
      obtain ⟨hseen, hqueue, hclosed''⟩ := reach_spec fuel (by omega) hclosed'
      refine ⟨hseen, fun t ht hp => ?_, hclosed''⟩
      rcases List.mem_cons.1 ht with rfl | ht
      · refine hskip.elim (fun h => hseen h) fun hpruned => ?_
        rw [hp] at hpruned
        cases hpruned
      · exact hqueue t ht hp
    · -- the references that a new state adds to the queue are no longer unseen
      rename_i hskip
      have hskip : s ∉ seen ∧ (g.state s).pruned = false := by simpa using hskip
      have hdrop := unseenReferences_cons (g := g) hskip.1
      have hfuel' : (queue ++ g.successors s).length + g.unseenReferences (s :: seen) < fuel := by
        rw [List.length_append]
        omega
      have hclosed' : ∀ u ∈ s :: seen, ∀ t ∈ g.successors u, (g.state t).pruned = false →
          t ∈ s :: seen ∨ t ∈ queue ++ g.successors s := by
        intro u hu t ht hp
        rcases List.mem_cons.1 hu with rfl | hu
        · exact .inr (List.mem_append_right _ ht)
        · rcases hclosed u hu t ht hp with h | h
          · exact .inl (List.mem_cons_of_mem _ h)
          · rcases List.mem_cons.1 h with rfl | h
            · exact .inl List.mem_cons_self
            · exact .inr (List.mem_append_left _ h)
      obtain ⟨hseen, hqueue, hclosed''⟩ := reach_spec fuel hfuel' hclosed'
      refine ⟨fun t ht => hseen (List.mem_cons_of_mem _ ht), fun t ht hp => ?_, hclosed''⟩
      rcases List.mem_cons.1 ht with rfl | ht
      · exact hseen List.mem_cons_self
      · exact hqueue t (List.mem_append_left _ ht) hp

theorem toList_states : g.states.toList = (List.range g.states.size).map g.state := by
  refine List.ext_getElem (by simp) fun i h₁ h₂ => ?_
  have hi : i < g.states.size := by simpa using h₁
  simp [state, Array.getD, hi]

/-- The fuel of the search covers the roots and all references. -/
theorem unseenReferences_nil : g.unseenReferences [] =
    (g.states.toList.flatMap fun s => (s.transition.map Transition.references).getD []).length := by
  rw [toList_states, List.flatMap_map, List.length_flatMap, unseenReferences]
  congr 1
  refine List.map_congr_left fun s _ => ?_
  simp only [List.not_mem_nil, if_false, successors]
  cases (g.state s).transition <;> rfl

/-- The roots are reachable, and so is what reachable states lead to. -/
theorem reachable_spec : (∀ t ∈ g.roots, (g.state t).pruned = false → t ∈ g.reachable) ∧
    ∀ s ∈ g.reachable, ∀ t ∈ g.successors s, (g.state t).pruned = false → t ∈ g.reachable := by
  have hfuel : g.roots.length + g.unseenReferences [] < g.roots.length +
      (g.states.toList.flatMap fun s =>
        (s.transition.map Transition.references).getD []).length + 1 := by
    rw [unseenReferences_nil]
    omega
  obtain ⟨-, hroots, hclosed⟩ := reach_spec _ hfuel (by simp)
  exact ⟨hroots, hclosed⟩

end Coroutine.Graph
