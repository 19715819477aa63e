import Mathlib
import Coroutine.Proofs.Machine.Nesting

/-!
# Every jump has a destination

The exits of a region are computed from the instructions of its block: a target that they jump to, or
that an expression of theirs escapes to, stands in the block itself or is one of the exits
(`Image.Reaches`). The top region has no exits, so there every target stands in the block. Control
does not run past the end of a block either: its last instruction never goes on to the next one.
-/

namespace Coroutine

namespace Assembly

/-! ## Exits -/

/-- The labels that expressions escape to are all bound. -/
theorem escapeTargets_eq_ok {g : Graph} : ∀ {labels : List Nat} {targets : List (Target × String)},
    escapeTargets g labels = .ok targets → ∀ l ∈ labels, ∃ b, g.labels.lookup l = some b ∧
      (.state b.state, labelText l) ∈ targets
  | [], _, _ => List.forall_mem_nil _
  | label :: labels, targets, h => by
    unfold escapeTargets at h
    split at h
    · cases h
    · rename_i b hb
      obtain ⟨rest, hrest, h⟩ := bind_eq_ok.1 h
      cases h
      refine List.forall_mem_cons.2 ⟨⟨b, hb, List.mem_cons_self⟩, fun l hl => ?_⟩
      obtain ⟨b', hb', hmem⟩ := escapeTargets_eq_ok hrest l hl
      exact ⟨b', hb', List.mem_cons_of_mem _ hmem⟩

/-- Dropping what has a key that is there already keeps one entry for every key. -/
theorem mem_foldl_unless {α β : Type} [BEq β] [LawfulBEq β] (key : α → β) {k : β} :
    ∀ l seen : List α, (∃ a ∈ seen, key a = k) ∨ (∃ a ∈ l, key a = k) →
      ∃ a ∈ l.foldl (fun seen a => if seen.any (key · == key a) then seen else seen ++ [a]) seen,
        key a = k
  | [], seen, h => by simpa using h
  | b :: l, seen, h => by
    rw [List.foldl_cons]
    refine mem_foldl_unless key l _ ?_
    rcases h with ⟨a, ha, hkey⟩ | ⟨a, ha, hkey⟩
    · refine .inl ⟨a, ?_, hkey⟩
      split
      · exact ha
      · exact List.mem_append_left _ ha
    · rcases List.mem_cons.1 ha with rfl | ha
      · refine .inl ?_
        split
        · rename_i hany
          obtain ⟨c, hc, heq⟩ := List.any_eq_true.1 hany
          exact ⟨c, hc, (eq_of_beq heq).trans hkey⟩
        · exact ⟨a, List.mem_append_right _ List.mem_cons_self, hkey⟩
      · exact .inr ⟨a, ha, hkey⟩

/-- A target is in the block, or outside it. -/
theorem mem_outside {instrs : List Instr} {targets : List (Target × String)} {t : Target}
    {name : String} (h : (t, name) ∈ targets) :
    .label t ∈ instrs ∨ ∃ name', (t, name') ∈ outside instrs targets := by
  by_cases hlabel : instrs.any (·.isLabel t) = true
  · obtain ⟨i, hi, heq⟩ := List.any_eq_true.1 hlabel
    exact .inl (Instr.isLabel_iff.1 heq ▸ hi)
  · have hmem : (t, name) ∈ targets.filter fun t => !instrs.any (·.isLabel t.1) :=
      List.mem_filter.2 ⟨h, by simpa using hlabel⟩
    obtain ⟨⟨t', name'⟩, hmem', rfl⟩ := mem_foldl_unless Prod.fst _ [] (.inr ⟨_, hmem, rfl⟩)
    exact .inr ⟨name', hmem'⟩

/-- An exit for every target outside, which lies in a region around. -/
theorem exitCodes_eq_ok {g : Graph} {r : Nat} : ∀ {targets : List (Target × String)} {code : Int}
    {exits : List RegionExit}, exitCodes g r code targets = .ok exits →
      exits.map RegionExit.target = targets.map Prod.fst ∧
      ∀ x ∈ exits, ∃ s, x.target = .state s ∧ (g.state s).pruned = false ∧
        (g.state s).region ≠ r ∧ g.encloses (g.state s).region r = true
  | [], code, exits, h => by
    cases h
    exact ⟨rfl, nofun⟩
  | (.reentry s, name) :: targets, code, exits, h => by cases h
  | (.state s, name) :: targets, code, exits, h => by
    rw [exitCodes] at h
    split at h
    · cases h
    · rename_i hbad
      split at h
      · cases h
      · rename_i hencl
        obtain ⟨rest, hrest, h⟩ := bind_eq_ok.1 h
        cases h
        obtain ⟨htargets, hall⟩ := exitCodes_eq_ok hrest
        refine ⟨by rw [List.map_cons, List.map_cons, htargets], List.forall_mem_cons.2 ⟨?_, hall⟩⟩
        simp only [Bool.or_eq_true, beq_iff_eq, not_or, Bool.not_eq_true] at hbad
        exact ⟨s, rfl, hbad.1, hbad.2, by simpa using hencl⟩

namespace Image

variable {im : Image} {n r : Nat}

/-- Where a jump in the block of a region may go: to a label of the block, or to one of its exits. -/
def Reaches (im : Image) (r : Nat) (t : Target) : Prop :=
  ((im.block r).position? t).isSome = true ∨ t ∈ (im.exits r).map RegionExit.target

theorem isSome_position? {b : Block} {t : Target} (h : .label t ∈ b.instrs.toList) :
    (b.position? t).isSome = true := by
  rw [Block.position?, Array.findIdx?_isSome, Array.any_eq_true']
  exact ⟨_, Array.mem_toList_iff.1 h, by simp [Instr.isLabel]⟩

namespace Renders

variable (h : im.Renders r)
include h

/-- How the exits of a region came about. -/
theorem exists_exits : ∃ labels, escapeTargets im.graph (escapes (im.block r).instrs.toList) =
      .ok labels ∧
    exitCodes im.graph r (handlerCount im.graph r + 1) (outside (im.block r).instrs.toList
      (((im.block r).instrs.toList.flatMap Instr.targets).map (fun t => (t, t.text)) ++ labels)) =
      .ok (im.exits r) :=
  bind_eq_ok.1 h.exits

/-- The targets of jumps and escapes are reached. -/
theorem reaches_of_mem {labels : List (Target × String)} {t : Target} {name : String}
    (hlabels : escapeTargets im.graph (escapes (im.block r).instrs.toList) = .ok labels)
    (ht : (t, name) ∈ ((im.block r).instrs.toList.flatMap Instr.targets).map
      (fun t => (t, t.text)) ++ labels) : im.Reaches r t := by
  obtain ⟨labels', hlabels', hexits⟩ := h.exists_exits
  obtain rfl : labels' = labels := Except.ok.inj (hlabels'.symm.trans hlabels)
  rcases mem_outside ht with hlabel | ⟨name', hout⟩
  · exact .inl (isSome_position? hlabel)
  · refine .inr ?_
    rw [(exitCodes_eq_ok hexits).1]
    exact List.mem_map_of_mem (f := Prod.fst) hout

/-- The targets of an instruction are reached. -/
theorem reaches_target {i : Instr} (hi : i ∈ (im.block r).instrs.toList) {t : Target}
    (ht : t ∈ i.targets) : im.Reaches r t := by
  obtain ⟨labels, hlabels, -⟩ := h.exists_exits
  have hmem : (t, t.text) ∈ ((im.block r).instrs.toList.flatMap Instr.targets).map
      fun t => (t, t.text) := List.mem_map_of_mem (List.mem_flatMap.2 ⟨i, hi, ht⟩)
  exact h.reaches_of_mem hlabels (List.mem_append_left _ hmem)

/-- The labels that an expression escapes to are bound, and their states are reached. -/
theorem reaches_escape {i : Instr} (hi : i ∈ (im.block r).instrs.toList) {e : CompiledExpr}
    (he : e ∈ i.exprs) {l : Nat} (hl : l ∈ e.code.escapes) :
    ∃ b, im.graph.labels.lookup l = some b ∧ im.Reaches r (.state b.state) := by
  obtain ⟨labels, hlabels, -⟩ := h.exists_exits
  have hmem : l ∈ escapes (im.block r).instrs.toList :=
    List.mem_eraseDups.2 (List.mem_flatMap.2 ⟨e, List.mem_flatMap.2 ⟨i, hi, he⟩, hl⟩)
  obtain ⟨b, hb, hb'⟩ := escapeTargets_eq_ok hlabels l hmem
  exact ⟨b, hb, h.reaches_of_mem hlabels (List.mem_append_right _ hb')⟩

/-- The exits of a region lead to states that are left, in other regions around it. -/
theorem mem_exits {x : RegionExit} (hx : x ∈ im.exits r) : ∃ s, x.target = .state s ∧
    (im.graph.state s).pruned = false ∧ (im.graph.state s).region ≠ r ∧
    im.graph.encloses (im.graph.state s).region r = true := by
  obtain ⟨labels, -, hexits⟩ := h.exists_exits
  exact (exitCodes_eq_ok hexits).2 x hx

end Renders

/-- There is no way out of the top region. -/
theorem Renders.exits_top (hg : im.graph.Zoned) (h : im.Renders Graph.top) :
    im.exits Graph.top = [] := by
  refine List.eq_nil_iff_forall_not_mem.2 fun x hx => ?_
  obtain ⟨s, -, -, hne, hencl⟩ := h.mem_exits hx
  rw [Graph.Zoned.encloses_iff, hg.regionChain_top] at hencl
  exact hne (List.mem_singleton.1 hencl)

theorem lookup_map_snd {α β γ : Type} [BEq α] (f : β → γ) (a : α) : ∀ l : List (α × β),
    (l.map fun (x, y) => (x, f y)).lookup a = (l.lookup a).map f
  | [] => rfl
  | (x, y) :: l => by
    simp only [List.map_cons, List.lookup_cons]
    split
    · rfl
    · exact lookup_map_snd f a l

/-- The state of a label stands in the program. -/
theorem lookup_labels (hg : im.graph.Regular n) {l : Nat} {b : LabelBinding}
    (hb : im.graph.labels.lookup l = some b) :
    im.program.labels.lookup l = some ⟨.state b.state, b.var⟩ := by
  have hlive : (im.graph.labels.filter fun x => !(im.graph.state x.2.state).pruned) =
      im.graph.labels := by
    refine List.filter_eq_self.2 fun lb hlb => ?_
    have hpruned := ((Graph.isLive_iff _).1 (hg.label lb.1 lb.2 hlb).1).2
    simp [hpruned]
  rw [program, hlive, lookup_map_snd fun b : LabelBinding => (⟨.state b.state, b.var⟩ : LabelSlot), hb]
  rfl

end Image

end Assembly

/-! ## Ends of blocks -/

/-- Whether control may come to the next instruction, be it after a region. -/
def Instr.continues (i : Instr) : Bool :=
  match i with
  | .region _ => true
  | i => i.advances

namespace Assembly.Image

variable {im : Image} {r : Nat}

theorem getLast?_cons_jump (i : Instr) (target : Nat) :
    (i :: im.jump none target).getLast? = some (.goto (.state target)) := by
  simp [jump]

/-- The instructions of a transition do not end with one that goes on, if no state comes next. -/
theorem continues_transitionCode (im : Image) (s : Nat) (t : Transition) :
    ∃ i, (im.transitionCode none s t).getLast? = some i ∧ i.continues = false := by
  cases t with
  | goto target | loop target => exact ⟨.goto (.state target), by simp [transitionCode, jump], rfl⟩
  | conditional test ifTrue ifFalse => exact ⟨_, getLast?_cons_jump _ ifFalse, rfl⟩
  | awaitResult a => exact ⟨_, getLast?_cons_jump _ a.target, rfl⟩
  | switch value arms fallback => exact ⟨_, rfl, rfl⟩
  | tryCatch t =>
    rw [transitionCode, List.getLast?_append]
    cases hcleanup : t.cleanup with
    | none => exact ⟨_, by simp only [afterRegion, hcleanup]; rfl, rfl⟩
    | some cleanup =>
      exact ⟨.goto (.state cleanup), by simp [afterRegion, hcleanup, jump], rfl⟩
  | cleanupExit e => exact ⟨_, rfl, rfl⟩
  | await a => exact ⟨_, rfl, rfl⟩
  | yieldReturn value resume => exact ⟨_, rfl, rfl⟩
  | yieldBreak => exact ⟨_, rfl, rfl⟩
  | finish value => exact ⟨_, rfl, rfl⟩

theorem continues_statesCode : ∀ {ids : List Nat}, ids ≠ [] → (∀ s ∈ ids, im.StateRendered s) →
    ∃ i, (im.statesCode ids).getLast? = some i ∧ i.continues = false
  | [], hne, _ => absurd rfl hne
  | [s], _, hs => by
    obtain ⟨t, ht⟩ := Option.isSome_iff_exists.1 (hs s List.mem_cons_self).leads
    obtain ⟨i, hi, hstop⟩ := im.continues_transitionCode s t
    refine ⟨i, ?_, hstop⟩
    have hcode : im.statesCode [s] = (.label (.state s) :: im.bodyCode (im.graph.state s)) ++
        im.transitionCode none s t := by
      simp [statesCode, stateCode, ht]
    rw [hcode, List.getLast?_append, hi]
    rfl
  | s :: s' :: ids, _, hs => by
    obtain ⟨i, hi, hstop⟩ := continues_statesCode (List.cons_ne_nil s' ids)
      (List.forall_mem_cons.1 hs).2
    refine ⟨i, ?_, hstop⟩
    rw [statesCode, List.getLast?_append, hi]
    rfl

/-- An instruction that goes on is not the last one of its block. -/
theorem Renders.isSome_next (h : im.Renders r) {pc : Nat} {i : Instr}
    (hi : (im.block r).instrs[pc]? = some i) (hgo : i.continues = true) :
    ((im.block r).instrs[pc + 1]?).isSome = true := by
  have hne : im.graph.regionNodes r ≠ [] := by
    intro hnil
    have hmem := Block.mem_of_getElem? hi
    rw [h.instrs, hnil] at hmem
    cases hmem
  obtain ⟨j, hj, hstop⟩ := continues_statesCode hne h.states
  rw [← h.instrs, List.getLast?_eq_getElem?, Array.getElem?_toList, Array.length_toList] at hj
  obtain ⟨hlt, -⟩ := Array.getElem?_eq_some_iff.1 hi
  by_contra hend
  have hpc : pc = (im.block r).instrs.size - 1 := by
    simp only [isSome_getElem?, not_lt] at hend
    omega
  rw [← hpc, hi] at hj
  rw [Option.some.inj hj, hstop] at hgo
  cases hgo

/-- A block with a state has a first instruction. -/
theorem Renders.isSome_head (h : im.Renders r) {s : Nat} (hs : s ∈ im.graph.regionNodes r) :
    ((im.block r).instrs[0]?).isSome = true := by
  rw [← Array.getElem?_toList, h.instrs]
  cases hids : im.graph.regionNodes r with
  | nil =>
    rw [hids] at hs
    cases hs
  | cons s' ids => rfl

end Assembly.Image

end Coroutine
