import Mathlib
import Coroutine.Proofs.Program.Image

/-!
# Where states stand in blocks

A position of a block is described by the instructions that are left from there (`Block.after`).
Every state of a region has its label in the block of the region, followed by its instructions and
those of the states after it; the entry of a protected region can be found again by a label right
before it. The number of a state to resume at is stored right before a machine is parked.
-/

namespace Coroutine

variable {next : Option Nat} {s : Nat}

/-! ## Positions -/

namespace Block

variable {b : Block} {pc : Nat} {i : Instr} {target : Target}

/-- The instructions of a block from a position on. -/
def after (b : Block) (pc : Nat) : List Instr := b.instrs.toList.drop pc

/-- The instruction at a place is the first of those from there on. -/
theorem getElem?_instrs : b.instrs[pc]? = (b.after pc).head? := by
  rw [after, List.head?_drop, Array.getElem?_toList]

/-- Behind an instruction come the others. -/
theorem after_of_getElem? (h : b.instrs[pc]? = some i) : b.after pc = i :: b.after (pc + 1) := by
  rw [← Array.getElem?_toList] at h
  obtain ⟨hlt, rfl⟩ := List.getElem?_eq_some_iff.1 h
  exact List.drop_eq_getElem_cons hlt

/-- One place further, the first instruction is gone. -/
theorem after_succ {rest : List Instr} (h : b.after pc = i :: rest) : b.after (pc + 1) = rest := by
  have hi : b.instrs[pc]? = some i := by rw [getElem?_instrs, h]; rfl
  rw [after_of_getElem? hi] at h
  exact (List.cons.inj h).2

/-- An instruction at a place is one of the block. -/
theorem mem_of_getElem? (h : b.instrs[pc]? = some i) : i ∈ b.instrs.toList :=
  Array.mem_toList_iff.2 (Array.mem_of_getElem? h)

end Block

/-- A label is recognised by its target. -/
theorem Instr.isLabel_iff {i : Instr} {target : Target} :
    i.isLabel target = true ↔ i = .label target := by
  cases i <;> simp [isLabel]

namespace Block

variable {b : Block} {pc : Nat} {target : Target}

/-- A target is found where its label stands. -/
theorem getElem?_of_position? (h : b.position? target = some pc) :
    b.instrs[pc]? = some (.label target) := by
  obtain ⟨hlt, hlabel, -⟩ := Array.findIdx?_eq_some_iff_getElem.1 h
  rw [Array.getElem?_eq_getElem hlt, Instr.isLabel_iff.1 hlabel]

/-- A target is found behind instructions that are not its label. -/
theorem position?_of_split {head rest : List Instr}
    (h : b.instrs.toList = head ++ .label target :: rest) (hhead : .label target ∉ head) :
    b.position? target = some head.length ∧ b.after head.length = .label target :: rest := by
  refine ⟨?_, by rw [after, h, List.drop_left]⟩
  have hlist : b.instrs.toList.findIdx? (·.isLabel target) = some head.length := by
    rw [h, List.findIdx?_append, List.findIdx?_eq_none_iff.2, List.findIdx?_cons]
    · simp [Instr.isLabel]
    · intro i hi
      by_contra hlabel
      rw [Bool.not_eq_false] at hlabel
      exact hhead (Instr.isLabel_iff.1 hlabel ▸ hi)
  rw [position?, ← hlist, ← List.findIdx?_toArray, Array.toArray_toList]

end Block

namespace Assembly.Image

variable {im : Image}

/-! ## Instructions of states -/

/-- Instructions of several states are those of one of them. -/
theorem mem_statesCode {i : Instr} : ∀ {ids : List Nat}, i ∈ im.statesCode ids →
    ∃ s ∈ ids, ∃ next, i ∈ im.stateCode next s
  | s :: ids, h => by
    rcases List.mem_append.1 h with h | h
    · exact ⟨s, List.mem_cons_self, ids.head?, h⟩
    · obtain ⟨s', hs', hi⟩ := mem_statesCode h
      exact ⟨s', List.mem_cons_of_mem _ hs', hi⟩

/-- The instructions of a list of states end with those of its ends. -/
theorem statesCode_split (im : Image) (s : Nat) (post : List Nat) : ∀ pre : List Nat,
    ∃ head, im.statesCode (pre ++ s :: post) = head ++ im.statesCode (s :: post) ∧
      ∀ i ∈ head, ∃ s' ∈ pre, ∃ next, i ∈ im.stateCode next s'
  | [] => ⟨[], rfl, nofun⟩
  | s' :: pre => by
    obtain ⟨head, heq, hhead⟩ := statesCode_split im s post pre
    refine ⟨im.stateCode (pre ++ s :: post).head? s' ++ head, ?_, fun i hi => ?_⟩
    · rw [List.cons_append, statesCode, heq, List.append_assoc]
    · rcases List.mem_append.1 hi with hi | hi
      · exact ⟨s', List.mem_cons_self, _, hi⟩
      · obtain ⟨s'', hs'', hi⟩ := hhead i hi
        exact ⟨s'', List.mem_cons_of_mem _ hs'', hi⟩

/-- An instruction before the transition of a state evaluates something. -/
theorem mem_bodyCode {x : State} {i : Instr} (h : i ∈ im.bodyCode x) :
    (∃ e ∈ x.expressions, i = .eval (im.expr e)) ∨
      ∃ y e, x.result = some (y, e) ∧ i = .assign y (im.expr e) := by
  rcases List.mem_append.1 h with h | h
  · obtain ⟨e, he, rfl⟩ := List.mem_map.1 h
    exact .inl ⟨e, he, rfl⟩
  · obtain ⟨⟨y, e⟩, hye, rfl⟩ := List.mem_map.1 h
    exact .inr ⟨y, e, by simpa using hye, rfl⟩

/-- The label to enter a region again stands neither before the body of a state nor in it. -/
theorem reentry_notMem_body (s : Nat) (x : State) :
    .label (.reentry s) ∉ .label (.state s) :: im.bodyCode x := by
  intro hmem
  rcases List.mem_cons.1 hmem with heq | hmem
  · cases heq
  · rcases mem_bodyCode hmem with ⟨_, -, heq⟩ | ⟨_, _, -, heq⟩ <;> cases heq

/-- A jump between states is the only instruction of its kind. -/
theorem mem_jump {target : Nat} {i : Instr} (h : i ∈ im.jump next target) :
    i = .goto (.state target) := by
  unfold jump at h
  split at h
  · cases h
  · exact List.mem_singleton.1 h

/-- Behind a region there are only jumps and the choice between them. -/
theorem mem_afterRegion {t : RegionEntry} {i : Instr} (h : i ∈ im.afterRegion next t) :
    (∃ target, i = .goto (.state target)) ∨
      ∃ cases, i = .dispatch t.tryState t.exception cases false (.state t.join) := by
  unfold afterRegion at h
  split at h
  · exact .inl ⟨_, mem_jump h⟩
  · exact .inr ⟨_, List.mem_singleton.1 h⟩

/-- The instructions of a transition, one by one. -/
inductive Carries (im : Image) (s : Nat) : Transition → Instr → Prop
  | goto {t : Transition} (target : Nat) : Carries im s t (.goto (.state target))
  | gotoIf (test : Expr) (ifTrue ifFalse : Nat) :
      Carries im s (.conditional test ifTrue ifFalse) (.gotoIf (im.expr test) (.state ifTrue))
  | switch (value : Expr) (arms : List SwitchArm) (fallback : Nat) :
      Carries im s (.switch value arms fallback) (.switch (im.expr value)
        (arms.map fun a => (a.tests.map im.expr, .state a.body)) (.state fallback))
  | reset (t : RegionEntry) : Carries im s (.tryCatch t)
      (.assign t.tryState (im.expr (.constant (.int (Int64.ofInt notLeft)))))
  | reentry (t : RegionEntry) : Carries im s (.tryCatch t) (.label (.reentry s))
  | region (t : RegionEntry) : Carries im s (.tryCatch t) (.region (im.tryRegion s t))
  | dispatch (t : RegionEntry) (h : t.cleanup = none) : Carries im s (.tryCatch t)
      (.dispatch t.tryState t.exception
        ((t.handlers.map fun h => (h.code, Target.state h.body)) ++ im.exitCases t.region) false
        (.state t.join))
  | leave (e : CleanupExit) : Carries im s (.cleanupExit e)
      (.dispatch e.tryState e.exception (im.exitCases e.region) true (.state e.join))
  | getAwaiter (a : AwaitEntry) : Carries im s (.await a)
      (.getAwaiter (im.expr a.awaitable) a.awaiter a.binder a.configure)
  | isCompleted (a : AwaitEntry) : Carries im s (.await a)
      (.gotoIfCompleted a.awaiter a.binder (.state a.completion))
  | register (a : AwaitEntry) : Carries im s (.await a) (.register a.awaiter a.binder)
  | store {t : Transition} {c : Nat} (h : t.resumeTarget? = some c) : Carries im s t (.setState c)
  | suspend {t : Transition} (kind : SuspendKind) : Carries im s t (.suspend kind)
  | getResult (a : AwaitResult) : Carries im s (.awaitResult a)
      (.getResult a.awaiter a.binder a.result)
  | setCurrent (value : Expr) (resume : Nat) : Carries im s (.yieldReturn value resume)
      (.setCurrent (im.expr value))
  | yieldBreak : Carries im s .yieldBreak .yieldBreak
  | finish (value : Option Expr) : Carries im s (.finish value) (.finish (value.map im.expr))

/-- Where the instructions of a transition come from. -/
theorem carries_of_mem {t : Transition} {i : Instr} (h : i ∈ im.transitionCode next s t) :
    im.Carries s t i := by
  have hjump {target : Nat} (h : i ∈ im.jump next target) : im.Carries s t i := by
    rw [mem_jump h]
    exact .goto target
  cases t with
  | goto | loop => exact hjump h
  | conditional | awaitResult =>
    rcases List.mem_cons.1 h with rfl | h
    · constructor
    · exact hjump h
  | tryCatch t =>
    rcases List.mem_append.1 h with h | h
    · simp only [List.mem_cons, List.not_mem_nil, or_false] at h
      rcases h with rfl | rfl | rfl <;> constructor
    · unfold afterRegion at h
      split at h
      · exact hjump h
      · rename_i hcleanup
        rw [List.mem_singleton.1 h]
        exact .dispatch t hcleanup
  | await a =>
    simp only [transitionCode, List.mem_cons, List.not_mem_nil, or_false] at h
    rcases h with rfl | rfl | rfl | rfl | rfl
    · exact .getAwaiter a
    · exact .isCompleted a
    · exact .store rfl
    · exact .register a
    · exact .suspend _
  | yieldReturn value resume =>
    simp only [transitionCode, List.mem_cons, List.not_mem_nil, or_false] at h
    rcases h with rfl | rfl | rfl
    · exact .setCurrent value resume
    · exact .store rfl
    · exact .suspend _
  | switch | cleanupExit | yieldBreak | finish =>
    rw [List.mem_singleton.1 h]
    constructor

/-- The instructions of a state, one by one. -/
inductive Emits (im : Image) (s : Nat) : Instr → Prop
  | label : Emits im s (.label (.state s))
  | eval {e : Expr} (h : e ∈ (im.graph.state s).expressions) : Emits im s (.eval (im.expr e))
  | result {y : Var} {e : Expr} (h : (im.graph.state s).result = some (y, e)) :
      Emits im s (.assign y (im.expr e))
  | own {t : Transition} {i : Instr} (ht : (im.graph.state s).transition = some t)
      (h : im.Carries s t i) : Emits im s i

/-- Where the instructions of a state come from. -/
theorem emits_of_mem {i : Instr} (h : i ∈ im.stateCode next s) : im.Emits s i := by
  rcases List.mem_cons.1 h with rfl | h
  · exact .label
  · rcases List.mem_append.1 h with h | h
    · rcases mem_bodyCode h with ⟨e, he, rfl⟩ | ⟨y, e, hye, rfl⟩
      · exact .eval he
      · exact .result hye
    · cases ht : (im.graph.state s).transition with
      | none => rw [ht] at h; cases h
      | some t => exact .own ht (carries_of_mem (by rwa [ht] at h))

/-- The labels of a state: its own, and the one to enter its region again. -/
theorem label_mem_stateCode {target : Target} (h : .label target ∈ im.stateCode next s) :
    target = .state s ∨
      target = .reentry s ∧ ∃ t, (im.graph.state s).transition = some (.tryCatch t) := by
  cases emits_of_mem h with
  | label => exact .inl rfl
  | own ht h =>
    cases h with
    | reentry t => exact .inr ⟨rfl, t, ht⟩

/-- A state enters no other region than the one of its transition. -/
theorem region_mem_stateCode {r : TryRegion} (h : .region r ∈ im.stateCode next s) :
    ∃ t, (im.graph.state s).transition = some (.tryCatch t) ∧ r = im.tryRegion s t := by
  cases emits_of_mem h with
  | own ht h =>
    cases h with
    | region t => exact ⟨t, ht, rfl⟩

/-- What a state stores is where its transition resumes. -/
theorem setState_mem_stateCode {c : Int} (h : .setState c ∈ im.stateCode next s) :
    ∃ t r, (im.graph.state s).transition = some t ∧ t.resumeTarget? = some r ∧ c = Int.ofNat r := by
  cases emits_of_mem h with
  | own ht h =>
    cases h with
    | store hc => exact ⟨_, _, ht, hc, rfl⟩

/-! ## Parking -/

end Assembly.Image

/-- Whether a machine that comes to an instruction is about to give control back. -/
def Instr.isParking : Instr → Bool
  | .register .. | .suspend _ => true
  | _ => false

/-- Whether an instruction leads to one that gives control back. -/
def Instr.parks : Instr → Bool
  | .setState _ | .register .. => true
  | _ => false

namespace Assembly.Image

variable {im : Image}

/-- The state to resume at is stored right before a machine is parked, and at no other time. -/
def Parked (code : List Instr) : Prop := code.IsChain fun i j => j.isParking = i.parks

/-- Expressions have nothing to do with giving control back. -/
theorem isParking_of_mem_bodyCode {x : State} {i : Instr} (h : i ∈ im.bodyCode x) :
    i.isParking = false ∧ i.parks = false := by
  rcases mem_bodyCode h with ⟨e, -, rfl⟩ | ⟨y, e, -, rfl⟩ <;> exact ⟨rfl, rfl⟩

/-- Jumps have nothing to do with giving control back. -/
theorem isParking_of_mem_jump {target : Nat} {i : Instr} (h : i ∈ im.jump next target) :
    i.isParking = false ∧ i.parks = false := by
  rw [mem_jump h]
  exact ⟨rfl, rfl⟩

/-- Instructions that have nothing to do with parking. -/
theorem parked_of_forall {code : List Instr}
    (h : ∀ i ∈ code, i.isParking = false ∧ i.parks = false) : Parked code := by
  refine List.isChain_iff_getElem.2 fun k hk => ?_
  rw [(h _ (List.getElem_mem _)).1, (h _ (List.getElem_mem _)).2]

/-- A transition starts without being parked, and does not end with storing a state. -/
theorem parked_transitionCode (im : Image) (next : Option Nat) (s : Nat) (t : Transition) :
    Parked (im.transitionCode next s t) ∧
      (∀ i ∈ (im.transitionCode next s t).head?, i.isParking = false) ∧
      ∀ i ∈ (im.transitionCode next s t).getLast?, i.parks = false := by
  -- most transitions have nothing to do with parking at all
  have hplain : ∀ {code : List Instr}, (∀ i ∈ code, i.isParking = false ∧ i.parks = false) →
      Parked code ∧ (∀ i ∈ code.head?, i.isParking = false) ∧
        ∀ i ∈ code.getLast?, i.parks = false := fun h =>
    ⟨parked_of_forall h, fun i hi => (h i (List.mem_of_mem_head? hi)).1,
      fun i hi => (h i (List.mem_of_mem_getLast? hi)).2⟩
  cases t with
  | await | yieldReturn => simp [transitionCode, Parked, Instr.isParking, Instr.parks]
  | goto | loop => exact hplain fun i hi => isParking_of_mem_jump hi
  | conditional | awaitResult =>
    refine hplain fun i hi => ?_
    rcases List.mem_cons.1 hi with rfl | hi
    · exact ⟨rfl, rfl⟩
    · exact isParking_of_mem_jump hi
  | tryCatch t =>
    refine hplain fun i hi => ?_
    rcases List.mem_append.1 hi with hi | hi
    · simp only [List.mem_cons, List.not_mem_nil, or_false] at hi
      rcases hi with rfl | rfl | rfl <;> exact ⟨rfl, rfl⟩
    · rcases mem_afterRegion hi with ⟨_, rfl⟩ | ⟨_, rfl⟩ <;> exact ⟨rfl, rfl⟩
  | switch | cleanupExit | yieldBreak | finish =>
    refine hplain fun i hi => ?_
    rw [List.mem_singleton.1 hi]
    exact ⟨rfl, rfl⟩

/-- In a state's code, the state to resume at is stored right before control is given back. -/
theorem parked_stateCode (im : Image) (next : Option Nat) (s : Nat) :
    Parked (im.stateCode next s) ∧ ∀ i ∈ (im.stateCode next s).getLast?, i.parks = false := by
  have hbody : ∀ i ∈ .label (.state s) :: im.bodyCode (im.graph.state s),
      i.isParking = false ∧ i.parks = false :=
    List.forall_mem_cons.2 ⟨⟨rfl, rfl⟩, fun i hi => isParking_of_mem_bodyCode hi⟩
  cases ht : (im.graph.state s).transition with
  | none =>
    have hcode : im.stateCode next s = .label (.state s) :: im.bodyCode (im.graph.state s) := by
      simp [stateCode, ht]
    rw [hcode]
    exact ⟨parked_of_forall hbody, fun i hi => (hbody i (List.mem_of_mem_getLast? hi)).2⟩
  | some t =>
    have hcode : im.stateCode next s =
        (.label (.state s) :: im.bodyCode (im.graph.state s)) ++ im.transitionCode next s t := by
      simp [stateCode, ht]
    obtain ⟨hparked, hhead, hlast⟩ := im.parked_transitionCode next s t
    rw [hcode]
    refine ⟨(parked_of_forall hbody).append hparked fun i hi j hj => ?_, fun i hi => ?_⟩
    · rw [hhead j hj, (hbody i (List.mem_of_mem_getLast? hi)).2]
    · rw [List.getLast?_append] at hi
      cases hl : (im.transitionCode next s t).getLast? with
      | none =>
        rw [hl] at hi
        exact (hbody i (List.mem_of_mem_getLast? hi)).2
      | some j =>
        rw [hl] at hi
        cases hi
        exact hlast i hl

/-- In the code of several states, the state to resume at is stored right before control is given
back. -/
theorem parked_statesCode (im : Image) : ∀ ids : List Nat, Parked (im.statesCode ids)
  | [] => .nil
  | s :: ids => by
    obtain ⟨hparked, hlast⟩ := im.parked_stateCode ids.head? s
    refine hparked.append (parked_statesCode im ids) fun i hi j hj => ?_
    rw [hlast i hi]
    cases ids with
    | nil => cases hj
    | cons s' ids =>
      obtain rfl : .label (.state s') = j := Option.some.inj hj
      rfl

/-! ## Blocks -/

/-- The instructions that enter a region, which reset its record first. -/
def entryCode (im : Image) (s : Nat) (t : RegionEntry) : List Instr :=
  [.assign t.tryState (im.expr (.constant (.int (Int64.ofInt notLeft)))), .label (.reentry s),
    .region (im.tryRegion s t)]

namespace Renders

variable {r : Nat} (h : im.Renders r)
include h

/-- The instructions of a block are those of its states. -/
theorem mem_instrs {i : Instr} (hi : i ∈ (im.block r).instrs.toList) :
    ∃ s ∈ im.graph.regionNodes r, ∃ next, i ∈ im.stateCode next s :=
  mem_statesCode (h.instrs ▸ hi)

/-- A state stands in the block of its region, and those after it follow. -/
theorem position_state (hs : s ∈ im.graph.regionNodes r) :
    ∃ pc pre post, im.graph.regionNodes r = pre ++ s :: post ∧
      (im.block r).position? (.state s) = some pc ∧
      (im.block r).after pc = im.statesCode (s :: post) := by
  obtain ⟨pre, post, hsplit, hpre⟩ := List.eq_append_cons_of_mem hs
  obtain ⟨head, hcode, hhead⟩ := im.statesCode_split s post pre
  have hinstrs : (im.block r).instrs.toList = head ++ im.statesCode (s :: post) := by
    rw [h.instrs, hsplit, hcode]
  have hnot : .label (.state s) ∉ head := by
    intro hmem
    obtain ⟨s', hs', next, hlabel⟩ := hhead _ hmem
    rcases label_mem_stateCode hlabel with heq | ⟨heq, -⟩
    · cases heq
      exact hpre hs'
    · cases heq
  obtain ⟨hpos, hafter⟩ := Block.position?_of_split hinstrs hnot
  exact ⟨head.length, pre, post, hsplit, hpos, hafter⟩

/-- The instructions of a block around the entry of a region: those of the states before and the
first ones of the state itself, the entry, and what comes after. -/
theorem split_entry {pre post : List Nat} (hsplit : im.graph.regionNodes r = pre ++ s :: post)
    (hpre : s ∉ pre) {t : RegionEntry} (ht : (im.graph.state s).transition = some (.tryCatch t)) :
    ∃ front,
      (im.block r).instrs.toList =
        front ++ (im.entryCode s t ++ (im.afterRegion post.head? t ++ im.statesCode post)) ∧
      (∀ i ∈ front, (∃ s' ∈ pre, ∃ next, i ∈ im.stateCode next s') ∨
        i ∈ .label (.state s) :: im.bodyCode (im.graph.state s)) ∧
      (im.block r).position? (.reentry s) = some (front.length + 1) := by
  -- what comes before the entry: the states before, and the label and the body of this one
  obtain ⟨head, hcode, hhead⟩ := im.statesCode_split s post pre
  let front := head ++ .label (.state s) :: im.bodyCode (im.graph.state s)
  have hinstrs : (im.block r).instrs.toList =
      front ++ (im.entryCode s t ++ (im.afterRegion post.head? t ++ im.statesCode post)) := by
    rw [h.instrs, hsplit, hcode, statesCode, stateCode]
    simp [ht, transitionCode, entryCode, front]
  have hfront : ∀ i ∈ front, (∃ s' ∈ pre, ∃ next, i ∈ im.stateCode next s') ∨
      i ∈ .label (.state s) :: im.bodyCode (im.graph.state s) :=
    fun i hi => (List.mem_append.1 hi).imp_left (hhead i)
  refine ⟨front, hinstrs, hfront, ?_⟩
  have hnot : .label (.reentry s) ∉
      front ++ [.assign t.tryState (im.expr (.constant (.int (Int64.ofInt notLeft))))] := by
    intro hmem
    rcases List.mem_append.1 hmem with hmem | hmem
    · rcases hfront _ hmem with ⟨s', hs', next, hlabel⟩ | hmem
      · rcases label_mem_stateCode hlabel with heq | ⟨heq, -⟩
        · cases heq
        · cases heq
          exact hpre hs'
      · exact reentry_notMem_body s _ hmem
    · cases List.mem_singleton.1 hmem
  rw [entryCode, List.cons_append, List.append_cons] at hinstrs
  rw [(Block.position?_of_split hinstrs hnot).1, List.length_append, List.length_singleton]

/-- A region can be entered again right before the instruction that runs it, which is followed by
those that go on as the region was left and by the states after it. -/
theorem position_reentry (hs : s ∈ im.graph.regionNodes r) {t : RegionEntry}
    (ht : (im.graph.state s).transition = some (.tryCatch t)) :
    ∃ pc post, (im.block r).position? (.reentry s) = some pc ∧
      (im.block r).after pc = .label (.reentry s) :: .region (im.tryRegion s t) ::
        (im.afterRegion post.head? t ++ im.statesCode post) := by
  obtain ⟨pre, post, hsplit, hpre⟩ := List.eq_append_cons_of_mem hs
  obtain ⟨front, hinstrs, -, hpos⟩ := h.split_entry hsplit hpre ht
  refine ⟨_, post, hpos, ?_⟩
  rw [Block.after, hinstrs, ← List.drop_drop, List.drop_left]
  rfl

/-- An instruction that is part of nothing but the entry of a region stands there, around the label
to enter the region again. -/
theorem position_entry (hnodup : (im.graph.regionNodes r).Nodup) (hs : s ∈ im.graph.regionNodes r)
    {t : RegionEntry} (ht : (im.graph.state s).transition = some (.tryCatch t)) {pc : Nat}
    {i : Instr} (hi : (im.block r).instrs[pc]? = some i)
    (hown : ∀ s' ∈ im.graph.regionNodes r, ∀ next, i ∈ im.stateCode next s' → s' = s)
    (hbody : i ∉ .label (.state s) :: im.bodyCode (im.graph.state s))
    (hafter : ∀ next, i ∉ im.afterRegion next t) :
    ∃ k j, (im.entryCode s t)[j]? = some i ∧ pc = k + j ∧
      (im.block r).position? (.reentry s) = some (k + 1) := by
  obtain ⟨pre, post, hsplit, hpre⟩ := List.eq_append_cons_of_mem hs
  obtain ⟨front, hinstrs, hfront, hpos⟩ := h.split_entry hsplit hpre ht
  have hpost : s ∉ post := by
    rw [hsplit] at hnodup
    exact (List.nodup_cons.1 hnodup.of_append_right).1
  rw [hsplit] at hown
  -- the instruction is neither before the entry nor behind it
  have hbefore : i ∉ front := by
    intro hmem
    rcases hfront i hmem with ⟨s', hs', next, hcode⟩ | hmem
    · exact hpre (hown s' (List.mem_append_left _ hs') next hcode ▸ hs')
    · exact hbody hmem
  have hbehind : i ∉ im.afterRegion post.head? t ++ im.statesCode post := by
    intro hmem
    rcases List.mem_append.1 hmem with hmem | hmem
    · exact hafter _ hmem
    · obtain ⟨s', hs', next, hcode⟩ := mem_statesCode hmem
      have hmem' : s' ∈ pre ++ s :: post := List.mem_append_right _ (List.mem_cons_of_mem _ hs')
      exact hpost (hown s' hmem' next hcode ▸ hs')
  rw [← Array.getElem?_toList, hinstrs] at hi
  have hge : front.length ≤ pc := by
    by_contra hlt
    rw [List.getElem?_append_left (by omega)] at hi
    exact hbefore (List.mem_of_getElem? hi)
  refine ⟨front.length, pc - front.length, ?_, by omega, hpos⟩
  rw [List.getElem?_append_right hge] at hi
  rcases Nat.lt_or_ge (pc - front.length) (im.entryCode s t).length with hlt | hge'
  · rwa [List.getElem?_append_left hlt] at hi
  · rw [List.getElem?_append_right hge'] at hi
    exact absurd (List.mem_of_getElem? hi) hbehind

/-- The instruction that runs a region stands right behind the label to enter it again, and nowhere
else. -/
theorem position_region (hnodup : (im.graph.regionNodes r).Nodup) {pc : Nat} {region : TryRegion}
    (hi : (im.block r).instrs[pc]? = some (.region region)) :
    ∃ pc', pc = pc' + 1 ∧ (im.block r).position? (.reentry region.owner) = some pc' := by
  obtain ⟨s, hs, next, hcode⟩ := h.mem_instrs (Block.mem_of_getElem? hi)
  obtain ⟨t, ht, rfl⟩ := region_mem_stateCode hcode
  have hown : ∀ s' ∈ im.graph.regionNodes r, ∀ next,
      .region (im.tryRegion s t) ∈ im.stateCode next s' → s' = s := by
    intro s' _ next hmem
    obtain ⟨t', -, heq⟩ := region_mem_stateCode hmem
    exact (congrArg TryRegion.owner heq).symm
  have hbody : .region (im.tryRegion s t) ∉ .label (.state s) :: im.bodyCode (im.graph.state s) := by
    intro hmem
    rcases List.mem_cons.1 hmem with heq | hmem
    · cases heq
    · rcases mem_bodyCode hmem with ⟨_, -, heq⟩ | ⟨_, _, -, heq⟩ <;> cases heq
  have hafter : ∀ next, .region (im.tryRegion s t) ∉ im.afterRegion next t := by
    intro next hmem
    rcases mem_afterRegion hmem with ⟨_, heq⟩ | ⟨_, heq⟩ <;> cases heq
  obtain ⟨k, j, hj, rfl, hpos⟩ := h.position_entry hnodup hs ht hi hown hbody hafter
  refine ⟨k + 1, ?_, hpos⟩
  match j, hj with
  | 2, _ => rfl

/-- What follows an instruction is parked if the instruction parks. -/
theorem isParking_after {pc : Nat} {i j : Instr} (hi : (im.block r).instrs[pc]? = some i)
    (hj : (im.block r).instrs[pc + 1]? = some j) : j.isParking = i.parks := by
  have hparked : Parked ((im.block r).after pc) := by
    have hall : Parked (im.block r).instrs.toList := h.instrs ▸ im.parked_statesCode _
    rw [← List.take_append_drop pc (im.block r).instrs.toList] at hall
    exact hall.right_of_append
  rw [Block.after_of_getElem? hi, Block.after_of_getElem? hj] at hparked
  exact (List.isChain_cons_cons.1 hparked).1

/-- A block starts with a label. -/
theorem head_label {i : Instr} (hi : (im.block r).instrs[0]? = some i) :
    ∃ s, i = .label (.state s) := by
  rw [← Array.getElem?_toList, h.instrs] at hi
  cases hids : im.graph.regionNodes r with
  | nil => rw [hids] at hi; cases hi
  | cons s ids =>
    rw [hids] at hi
    cases hi
    exact ⟨s, rfl⟩

end Renders

end Assembly.Image

end Coroutine
