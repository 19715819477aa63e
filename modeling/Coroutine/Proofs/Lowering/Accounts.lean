import Mathlib
import Coroutine.Proofs.Lowering.Drafts
import Coroutine.Proofs.Tree.Census

/-!
# States that are open

While a graph is made, each of its states is either *open*, without a transition, or was ended
once. `Draft.Accounts k c o d` says so of a draft: `o` are its open states, `c` is the current one,
and `k` counts the suspend points among the transitions set so far. A draft without open states is
finished: every state was given its transition once, and nothing is left for closing the graph.
-/

namespace Coroutine

/-- A list without repeated keys finds what it holds. -/
theorem lookup_of_mem {α β : Type} [BEq α] [LawfulBEq α] {l : List (α × β)}
    (hl : (l.map Prod.fst).Nodup) {a : α} {b : β} (h : (a, b) ∈ l) : l.lookup a = some b := by
  obtain ⟨l₁, l₂, rfl⟩ := List.append_of_mem h
  refine List.lookup_eq_some_iff.2 ⟨l₁, l₂, rfl, fun p hp => ?_⟩
  rw [List.map_append, List.map_cons] at hl
  have hne := (List.nodup_append.1 hl).2.2 p.1 (List.mem_map_of_mem hp) a List.mem_cons_self
  simpa using hne.symm

namespace Lowering

/-- The states where a machine that was suspended by an ended state resumes. -/
def Draft.resumes (d : Draft) : List Nat := d.ended.filterMap (·.2.resumeTarget?)

/-- Every state is open or was ended once. -/
structure Draft.Accounts (k : Tally) (c : Nat) (o : Multiset Nat) (d : Draft) : Prop where
  current : d.current = c
  states : (d.ended.map Prod.fst : Multiset Nat) + o = Multiset.range d.graph.states.size
  noted : ∀ s, (d.graph.state s).transition = d.ended.lookup s
  tally : Transition.tally (d.ended.map Prod.snd) = k
  distinct : d.resumes.Nodup
  resumes_lt : ∀ s ∈ d.resumes, s < d.graph.states.size

/-- A draft in which the same states were made and ended. -/
structure Draft.Steady (d d' : Draft) : Prop where
  current : d'.current = d.current
  ended : d'.ended = d.ended
  size : d'.graph.states.size = d.graph.states.size
  transition : ∀ s, (d'.graph.state s).transition = (d.graph.state s).transition

namespace Draft.Steady

variable {d : Draft}

/-- A graph with the same states. -/
theorem of_states {g : Graph} (h : g.states = d.graph.states) : d.Steady (d.on g) :=
  ⟨rfl, rfl, congrArg Array.size h, fun s => by simp [Draft.on, Graph.state, h]⟩

/-- An edit of a state that keeps its transition. -/
theorem modifyState (i : Nat) {f : State → State}
    (hf : ∀ x, (f x).transition = x.transition) : d.Steady (d.on (d.graph.modifyState i f)) :=
  ⟨rfl, rfl, by simp [Draft.on], Graph.state_modifyState_proj d.graph State.transition hf⟩

end Draft.Steady

namespace Draft.Accounts

variable {k : Tally} {c : Nat} {o o' : Multiset Nat} {d d' : Draft}

theorem steady (h : d.Accounts k c o) (hs : d.Steady d') : d'.Accounts k c o := by
  obtain ⟨hcur, hstates, hnoted, htally, hdistinct, hlt⟩ := h
  have hresumes : d'.resumes = d.resumes := by rw [resumes, resumes, hs.ended]
  refine ⟨hs.current.trans hcur, ?_, fun s => ?_, ?_, ?_, ?_⟩
  · rw [hs.ended, hs.size, hstates]
  · rw [hs.transition, hs.ended, hnoted]
  · rw [hs.ended, htally]
  · rwa [hresumes]
  · rwa [hresumes, hs.size]

theorem mem_iff (h : d.Accounts k c o) (s : Nat) :
    s ∈ d.ended.map Prod.fst ∨ s ∈ o ↔ s < d.graph.states.size := by
  rw [← Multiset.mem_range, ← h.states, Multiset.mem_add, Multiset.mem_coe]

theorem lt_of_mem (h : d.Accounts k c o) {s : Nat} (hs : s ∈ o) : s < d.graph.states.size :=
  (h.mem_iff s).1 (.inr hs)

/-- A new state is open. -/
theorem addState (h : d.Accounts k c o) :
    (d.on d.graph.addState.2).Accounts k c ({d.graph.states.size} + o) := by
  refine ⟨h.current, ?_, fun s => ?_, h.tally, h.distinct, fun s hs => ?_⟩
  · simp only [Draft.on, Graph.size_states_addState, Multiset.range_succ, ← h.states,
      ← Multiset.singleton_add]
    abel
  · by_cases hs : s = d.graph.states.size
    · have hnew : s ∉ d.ended.map Prod.fst := fun hmem =>
        ((h.mem_iff s).1 (.inl hmem)).ne hs
      have hlookup : d.ended.lookup s = none :=
        List.lookup_eq_none_iff.2 fun p hp => by
          simpa using fun heq : s = p.1 => hnew (List.mem_map.2 ⟨p, hp, heq.symm⟩)
      simp only [Draft.on, hs, Graph.state_addState_self]
      rw [← hs, hlookup]
    · simp only [Draft.on, Graph.state_addState_of_ne d.graph hs]
      exact h.noted s
  · simp only [Draft.on, Graph.size_states_addState]
    exact Nat.lt_succ_of_lt (h.resumes_lt s hs)

/-- Ends an open state. A machine resumes only where no other state resumes. -/
theorem endState {s : Nat} {t : Transition} (h : d.Accounts k c ({s} + o))
    (ht : ∀ r ∈ t.resumeTarget?, r < d.graph.states.size ∧ r ∉ d.resumes) :
    ((d.on (d.graph.setTransition s t)).noting s t).Accounts (k + t.weight) c o := by
  have hs : s < d.graph.states.size := h.lt_of_mem (Multiset.mem_add.2 (.inl (by simp)))
  have hsize : (d.graph.setTransition s t).states.size = d.graph.states.size :=
    d.graph.size_states_modifyState s _
  refine ⟨h.current, ?_, fun r => ?_, ?_, ?_, fun r hr => ?_⟩
  -- the state moves from the open ones to those that ended
  · simp only [Draft.noting, Draft.on, hsize, List.map_cons, ← h.states, ← Multiset.cons_coe,
      ← Multiset.singleton_add]
    abel
  · by_cases hr : r = s
    · subst hr
      simp [Draft.noting, Draft.on, Graph.setTransition, Graph.state_modifyState_self _ _ hs]
    · have hne : (r == s) = false := by simpa using hr
      simp only [Draft.noting, Draft.on, Graph.setTransition, List.lookup_cons, hne,
        Graph.state_modifyState_of_ne _ _ hr]
      exact h.noted r
  · rw [← h.tally, add_comm, ← Transition.tally_cons]
    rfl
  -- resumption targets stay distinct, since the new one is not among them
  · cases hr : t.resumeTarget? with
    | none => simpa [Draft.resumes, Draft.noting, Draft.on, hr] using h.distinct
    | some r =>
      have hnew := (ht r hr).2
      simp only [Draft.resumes, Draft.noting, Draft.on, List.filterMap_cons, hr]
      exact List.nodup_cons.2 ⟨hnew, h.distinct⟩
  · have hold : r ∈ t.resumeTarget? ∨ r ∈ d.resumes := by
      simp only [Draft.resumes, Draft.noting, Draft.on, List.filterMap_cons] at hr
      cases htarget : t.resumeTarget? with
      | none =>
        rw [htarget] at hr
        exact .inr hr
      | some r' =>
        rw [htarget] at hr
        rcases List.mem_cons.1 hr with rfl | hr
        · exact .inl rfl
        · exact .inr hr
    exact hsize.symm ▸ hold.elim (fun hr => (ht r hr).1) (h.resumes_lt r)

end Draft.Accounts

/-! ## Finished drafts -/

namespace Draft.Accounts

variable {k : Tally} {c : Nat} {d : Draft}

/-- Without open states, each state was ended once. -/
theorem perm_range (h : d.Accounts k c 0) :
    (d.ended.map Prod.fst).Perm (List.range d.graph.states.size) := by
  have hstates := h.states
  rw [add_zero] at hstates
  exact Multiset.coe_eq_coe.1 hstates

/-- What was noted is how the state ends. -/
theorem transition_of_mem (h : d.Accounts k c 0) {s : Nat} {t : Transition}
    (ht : (s, t) ∈ d.ended) : (d.graph.state s).transition = some t := by
  have hnodup : (d.ended.map Prod.fst).Nodup := h.perm_range.nodup_iff.2 List.nodup_range
  rw [h.noted, lookup_of_mem hnodup ht]

theorem exists_transition (h : d.Accounts k c 0) {s : Nat} (hs : s < d.graph.states.size) :
    ∃ t, (d.graph.state s).transition = some t := by
  have hmem := h.perm_range.mem_iff.2 (List.mem_range.2 hs)
  obtain ⟨⟨s, t⟩, ht, rfl⟩ := List.mem_map.1 hmem
  exact ⟨t, h.transition_of_mem ht⟩

end Draft.Accounts

end Lowering

namespace Graph

variable {g : Graph}

/-- Where every state has a transition, sealing changes nothing. -/
theorem sealNodes_of_transitions : ∀ {l : List Nat},
    (∀ s ∈ l, (g.state s).transition.isNone = false) → g.sealNodes l = (.ok (), g)
  | [], _ => rfl
  | [last], h => by
    rw [sealNodes, h last List.mem_cons_self]
    rfl
  | s :: next :: rest, h => by
    rw [sealNodes, h s List.mem_cons_self]
    exact sealNodes_of_transitions fun r hr => h r (List.mem_cons_of_mem _ hr)

theorem sealZones_of_transitions : ∀ {zs : List Nat},
    (∀ z ∈ zs, ∀ s ∈ (g.zone z).nodes, (g.state s).transition.isNone = false) →
    g.sealZones zs = (.ok (), g)
  | [], _ => rfl
  | z :: zs, h => by
    rw [sealZones, sealNodes_of_transitions (h z List.mem_cons_self)]
    exact sealZones_of_transitions fun y hy => h y (List.mem_cons_of_mem _ hy)

end Graph

end Coroutine
