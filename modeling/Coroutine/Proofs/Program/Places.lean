import Mathlib
import Coroutine.Proofs.Program.Exits
import Coroutine.Proofs.Graph.Placement

/-!
# Places in a program

Where control stands in the block of a region is said in terms of the state graph. Control *faces*
instructions that belong to one state, behind which it goes on to another state or nowhere; whether
the jump to that state is written or left out makes no difference. Control is *bound* for a state if
it stands at the state's label or at a jump to it.
-/

namespace Coroutine

open Assembly

namespace Assembly.Image

variable {im : Image} {n q r s pc : Nat} {t : RegionEntry} {is : List Instr}

/-! ## Instructions of a transition -/

/-- The instructions that decide how to go on after a region without a cleanup. -/
def decision (im : Image) (t : RegionEntry) : List Instr :=
  match t.cleanup with
  | some _ => []
  | none =>
    [.dispatch t.tryState t.exception
      ((t.handlers.map fun h => (h.code, Target.state h.body)) ++ im.exitCases t.region) false
      (.state t.join)]

/-- The jump behind instructions, if there is one. -/
def onward (im : Image) (next : Option Nat) (o : Option Nat) : List Instr :=
  (o.map (im.jump next)).getD []

/-- The instructions of a transition without the jump that ends it. -/
def lead (im : Image) (s : Nat) : Transition → List Instr
  | .goto _ | .loop _ => []
  | .conditional test ifTrue _ => [.gotoIf (im.expr test) (.state ifTrue)]
  | .tryCatch t => im.entryCode s t ++ im.decision t
  | .awaitResult a => [.getResult a.awaiter a.binder a.result]
  | t => im.transitionCode none s t

/-- What follows a region decides and then goes on to its cleanup. -/
theorem afterRegion_eq (next : Option Nat) (t : RegionEntry) :
    im.afterRegion next t = im.decision t ++ im.onward next t.cleanup := by
  cases h : t.cleanup with
  | none => simp [afterRegion, decision, onward, h]
  | some c => simp [afterRegion, decision, onward, h]

/-- A transition's code ends where control falls through. -/
theorem transitionCode_eq (next : Option Nat) (s : Nat) (t : Transition) :
    im.transitionCode next s t = im.lead s t ++ im.onward next t.fallthrough? := by
  cases t with
  | tryCatch t =>
    change im.entryCode s t ++ im.afterRegion next t = (im.entryCode s t ++ im.decision t) ++ _
    rw [afterRegion_eq, List.append_assoc]
    rfl
  | goto | loop | conditional | awaitResult => rfl
  | _ => exact (List.append_nil _).symm

/-- A state's code, up to where control falls through. -/
theorem stateCode_eq {x : Transition} (hx : (im.graph.state s).transition = some x)
    (next : Option Nat) : im.stateCode next s = .label (.state s) ::
      ((im.bodyCode (im.graph.state s) ++ im.lead s x) ++ im.onward next x.fallthrough?) := by
  simp only [stateCode, hx, Option.map_some, Option.getD_some, transitionCode_eq,
    List.append_assoc]

/-- Instructions that nothing comes after do not let control run past them. -/
theorem continues_lead (im : Image) (s : Nat) {x : Transition} (hx : x.fallthrough? = none) :
    ∃ i, (im.lead s x).getLast? = some i ∧ i.continues = false := by
  have hcode : im.transitionCode none s x = _ := transitionCode_eq none s x
  rw [hx, onward, Option.map_none, Option.getD_none, List.append_nil] at hcode
  rw [← hcode]
  exact continues_transitionCode im s x

/-! ## Places -/

/-- Control stands before instructions, behind which it goes on to a state, or nowhere. -/
def Facing (im : Image) (r pc : Nat) (is : List Instr) (o : Option Nat) : Prop :=
  ∃ post, (im.block r).after pc = is ++ (im.onward post.head? o ++ im.statesCode post)

/-- Control stands at the label of a state. -/
def AtLabel (im : Image) (r pc c : Nat) : Prop :=
  ∃ post, (im.block r).after pc = im.statesCode (c :: post)

/-- Control stands at the label of a state or at a jump to it. -/
def Bound (im : Image) (r pc c : Nat) : Prop :=
  (im.block r).instrs[pc]? = some (.goto (.state c)) ∨ im.AtLabel r pc c

/-- The first instruction ahead is the one to run. -/
theorem Facing.head {i : Instr} {o : Option Nat} (h : im.Facing r pc (i :: is) o) :
    (im.block r).instrs[pc]? = some i := by
  obtain ⟨post, hafter⟩ := h
  rw [Block.getElem?_instrs, hafter]
  rfl

/-- Behind it come the others. -/
theorem Facing.advance {i : Instr} {o : Option Nat} (h : im.Facing r pc (i :: is) o) :
    im.Facing r (pc + 1) is o := by
  obtain ⟨post, hafter⟩ := h
  exact ⟨post, Block.after_succ hafter⟩

/-- Where no instruction is left, control is bound for the state behind them. -/
theorem Facing.bound {c : Nat} (h : im.Facing r pc [] (some c)) : im.Bound r pc c := by
  obtain ⟨post, hafter⟩ := h
  rw [List.nil_append, onward, Option.map_some, Option.getD_some, jump] at hafter
  split at hafter
  · rename_i helide
    obtain ⟨-, hnext⟩ := Bool.and_eq_true_iff.1 helide
    cases post with
    | nil => cases hnext
    | cons c' post =>
      obtain rfl : c' = c := by simpa using hnext
      exact .inr ⟨post, hafter⟩
  · rw [Bound, Block.getElem?_instrs, hafter]
    exact .inl rfl

/-- The label of a state stands before the instructions of the state. -/
theorem statesCode_of_label : ∀ {ids : List Nat} {pc : Nat},
    (im.statesCode ids)[pc]? = some (.label (.state s)) →
      ∃ post, (im.statesCode ids).drop pc = im.statesCode (s :: post)
  | [], _, h => by cases h
  | c :: ids, 0, h => by
    obtain rfl : c = s := by simpa [statesCode, stateCode] using h
    exact ⟨ids, rfl⟩
  | c :: ids, pc + 1, h => by
    by_cases hlt : pc + 1 < (im.stateCode ids.head? c).length
    · -- behind its label a state has only the label to enter its region again
      rw [statesCode, List.getElem?_append_left hlt, stateCode, List.getElem?_cons_succ] at h
      rcases List.mem_append.1 (List.mem_of_getElem? h) with h | h
      · rcases mem_bodyCode h with ⟨_, -, h⟩ | ⟨_, _, -, h⟩ <;> cases h
      · cases hx : (im.graph.state c).transition with
        | none => rw [hx] at h; cases h
        | some x =>
          rw [hx] at h
          cases carries_of_mem h
    · rw [not_lt] at hlt
      rw [statesCode, List.getElem?_append_right hlt] at h
      obtain ⟨post, hpost⟩ := statesCode_of_label h
      refine ⟨post, ?_⟩
      rw [statesCode, List.drop_append, List.drop_of_length_le hlt, List.nil_append, hpost]

namespace Renders

variable (h : im.Renders r)
include h

/-- A label that has been found is that of its state. -/
theorem atLabel (hi : (im.block r).instrs[pc]? = some (.label (.state s))) :
    im.AtLabel r pc s := by
  rw [AtLabel, Block.after, h.instrs]
  refine statesCode_of_label ?_
  rw [← h.instrs, Array.getElem?_toList, hi]

/-- The label of a state is in the block of its region. -/
theorem mem_of_label (hi : .label (.state s) ∈ (im.block r).instrs.toList) :
    s ∈ im.graph.regionNodes r := by
  obtain ⟨c, hc, next, hcode⟩ := h.mem_instrs hi
  rcases label_mem_stateCode hcode with heq | ⟨heq, -⟩
  · cases heq
    exact hc
  · cases heq

/-- A state whose label is ahead is in the region. -/
theorem mem_of_atLabel (hlabel : im.AtLabel r pc s) : s ∈ im.graph.regionNodes r := by
  obtain ⟨post, hafter⟩ := hlabel
  have hi : (im.block r).instrs[pc]? = some (.label (.state s)) := by
    rw [Block.getElem?_instrs, hafter]
    rfl
  exact h.mem_of_label (Block.mem_of_getElem? hi)

/-- Behind its label control faces the instructions of a state. -/
theorem facing_of_atLabel (hlabel : im.AtLabel r pc s) :
    (im.block r).instrs[pc]? = some (.label (.state s)) ∧
      ∃ x, (im.graph.state s).transition = some x ∧
        im.Facing r (pc + 1) (im.bodyCode (im.graph.state s) ++ im.lead s x) x.fallthrough? := by
  obtain ⟨x, hx⟩ := Option.isSome_iff_exists.1 (h.states s (h.mem_of_atLabel hlabel)).leads
  obtain ⟨post, hafter⟩ := hlabel
  rw [statesCode, stateCode_eq hx, List.cons_append, List.append_assoc] at hafter
  exact ⟨by rw [Block.getElem?_instrs, hafter]; rfl, x, hx, post, Block.after_succ hafter⟩

end Renders

end Assembly.Image

end Coroutine
