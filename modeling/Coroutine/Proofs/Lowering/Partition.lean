import Mathlib
import Coroutine.Proofs.Machine.Safety

/-!
# Lowering splits a body at its suspend points

In the graph of a lambda each state was given its transition once, the transitions count the suspend
points of the body, and machines resume in as many different states as there are `await` and
`yield return` nodes. What the states keep has no suspend points.
-/

namespace Coroutine

namespace Graph

variable {g : Graph}

/-- The transitions of a graph, in the order of its states. -/
def transitions (g : Graph) : List Transition := g.states.toList.filterMap State.transition

theorem mem_transitions {t : Transition} :
    t ∈ g.transitions ↔ ∃ s < g.states.size, (g.state s).transition = some t := by
  simp [transitions, toList_states]

/-- The transitions of a graph are those that were noted. -/
theorem transitions_perm {k : Tally} {c : Nat} {d : Lowering.Draft} (h : d.Accounts k c 0) :
    d.graph.transitions.Perm (d.ended.map Prod.snd) := by
  have hnoted : d.ended.filterMap (fun p => (d.graph.state p.1).transition) =
      d.ended.map Prod.snd := by
    rw [← List.filterMap_eq_map]
    exact List.filterMap_congr fun p hp => h.transition_of_mem hp
  rw [transitions, toList_states, List.filterMap_map, ← hnoted]
  have hperm := h.perm_range.symm.filterMap fun s => (d.graph.state s).transition
  rwa [List.filterMap_map] at hperm

/-- In a graph without removed states, machines resume after its transitions. -/
theorem resumeStates_perm (hlive : ∀ s, (g.state s).pruned = false)
    (hnodup : (g.transitions.filterMap Transition.resumeTarget?).Nodup) :
    g.resumeStates.Perm (g.transitions.filterMap Transition.resumeTarget?) := by
  refine (List.perm_ext_iff_of_nodup nodup_resumeStates hnodup).2 fun r => ?_
  rw [mem_resumeStates, List.mem_filterMap]
  constructor
  · rintro ⟨s, t, hs, ht, hr⟩
    exact ⟨t, mem_transitions.2 ⟨s, (g.isLive_iff.1 hs).1, ht⟩, hr⟩
  · rintro ⟨t, ht, hr⟩
    obtain ⟨s, hs, ht⟩ := mem_transitions.1 ht
    exact ⟨s, t, g.isLive_iff.2 ⟨hs, hlive s⟩, ht, hr⟩

end Graph

/-- The draft in which lowering the body of a lambda ends, before the graph is closed. -/
def Lambda.Drafts (resolve : Expr.Resolver) (l : Lambda) (d : Lowering.Draft) : Prop :=
  ∃ facts, l.check = .ok facts ∧
    (Lowering.lowerBody resolve l.kind l.body).run (l.first facts) = .ok ((), d)

/-- Lowering splits the body of a lambda exactly at its suspend points. Each `await` node makes one
suspension and one retrieval of a result, and each `yield return` node one yield; a machine resumes
in a different state after each of them. Every state was given its transition once, with nothing
left for closing the graph, and no expression that is kept contains a suspend point. -/
theorem Lambda.lower_partitions {resolve : Expr.Resolver} {l : Lambda} {g : Graph}
    (h : l.lower resolve = .ok g) :
    g.transitions.countP Transition.isAwait = l.body.preorder.countP Expr.isAwait ∧
    g.transitions.countP Transition.isAwaitResult = l.body.preorder.countP Expr.isAwait ∧
    g.transitions.countP Transition.isYieldReturn = l.body.preorder.countP Expr.isYieldReturn ∧
    (g.transitions.filterMap Transition.resumeTarget?).Nodup ∧
    g.resumeStates.length =
      l.body.preorder.countP Expr.isAwait + l.body.preorder.countP Expr.isYieldReturn ∧
    (∃ d, l.Drafts resolve d ∧ d.graph = g ∧ g.close = (.ok (), g) ∧
      (d.ended.map Prod.fst).Perm (List.range g.states.size) ∧
      ∀ s t, (s, t) ∈ d.ended → (g.state s).transition = some t) ∧
    ∀ x ∈ g.states, ∀ e ∈ x.exprs, e.suspends = false := by
  obtain ⟨facts, hcheck, -⟩ := bind_eq_ok.1 h
  obtain ⟨d, c, hrun, hleads, hd, hsealed, rfl⟩ := Lambda.lower_settles hcheck h
  have hsound := hleads.sound
  have hperm := Graph.transitions_perm hd
  -- suspensions of the graph are those on record, which are those of the tree
  have htally : Transition.tally d.graph.transitions = Expr.tally l.body.preorder := by
    have hcounts : Transition.tally d.graph.transitions =
        Transition.tally (d.ended.map Prod.snd) := by
      simp only [Transition.tally, hperm.countP_eq]
    rw [hcounts, hd.tally, zero_add]
    rfl
  simp only [Transition.tally, Expr.tally, Prod.mk.injEq] at htally
  obtain ⟨hawaits, hresults, hyields⟩ := htally
  have hnodup : (d.graph.transitions.filterMap Transition.resumeTarget?).Nodup := by
    rw [(hperm.filterMap _).nodup_iff, List.filterMap_map]
    exact hd.distinct
  refine ⟨hawaits, hresults, hyields, hnodup, ?_,
    ⟨d, ⟨facts, hcheck, hrun⟩, rfl, hsealed, hd.perm_range, fun s t => hd.transition_of_mem⟩, ?_⟩
  · rw [(Graph.resumeStates_perm hsound.live hnodup).length_eq, Transition.length_resumeTargets,
      hawaits, hyields]
  · intro x hx e he
    obtain ⟨s, hs, rfl⟩ := Array.mem_iff_getElem.1 hx
    have hstate : d.graph.state s = d.graph.states[s] := by simp [Graph.state, Array.getD, hs]
    exact ((hstate ▸ hsound.states s hs).fits e he).suspends_eq_false rfl

/-- Waiting inside two protected bodies is split at one point. -/
theorem Lambda.guardedWait_partitions : ∃ g, Lambda.guardedWait.lower .tasks = .ok g ∧
    g.transitions.countP Transition.isAwait = 1 ∧ g.resumeStates.length = 1 := by
  have hrun : (Lambda.guardedWait.lower .tasks).toOption.isSome = true := by cbv
  obtain ⟨g, hg⟩ := Option.isSome_iff_exists.1 hrun
  have hg := eq_ok_of_toOption hg
  obtain ⟨hawaits, -, -, -, hresumes, -, -⟩ := Lambda.lower_partitions hg
  exact ⟨g, hg, hawaits, hresumes⟩

end Coroutine
