import Mathlib
import Coroutine.Code.Build
import Coroutine.Proofs.Tree.Settings

/-!
# Sound code

Code is sound in a setting if every node finds there what it refers to, and every jump has a route
that works: up to an ancestor that takes it, and from there down through blocks only. The bodies of
nested lambdas are sound by themselves, and no jump leaves them.

`Code.Suited` and `Code.Sound` say nothing of the expression that the code was built from; they are
what evaluating the code relies on.
-/

namespace Coroutine

/-! ## Nodes -/

namespace Op

/-- Whether a jump may pass through the node on its way down to a label. -/
def isBlock : Op → Bool
  | .block _ => true
  | _ => false

/-- Whether a node with some number of children finds in its setting what it refers to. -/
def Suits (s : Setting) (width : Nat) : Op → Prop
  | .var x | .assign x => s.bound x.id
  | .binary _ => width = 2
  | .condition hasElse => width = if hasElse then 3 else 2
  | .switch cases fallback =>
    0 < width ∧ (∀ c ∈ cases, (∀ k ∈ c.tests, k < width) ∧ c.body < width) ∧
      ∀ k ∈ fallback, k < width
  | .loop => 0 < width
  | .tryCatch handlers cleanup =>
    0 < width ∧ (∀ h ∈ handlers, h.body < width) ∧ ∀ k ∈ cleanup, k < width
  | .rethrow => s.handling = true
  | .await .. | .yieldReturn => 0 < width ∧ s.waits = true
  | .yieldBreak => s.waits = true
  | .constant _ | .unary _ | .call _ | .invoke | .lambda _ | .block _ | .goto .. | .label _
  | .throw => True

/-- The setting that a node gives to the child in a slot. -/
def Gives (s : Setting) (slot : Nat) (s' : Setting) : Op → Prop
  | .block vars => s' = s.declaring vars
  | .tryCatch handlers cleanup =>
    (s' = s ∧ (slot = 0 ∨ cleanup = some slot)) ∨
      ∃ h ∈ handlers, h.body = slot ∧ s' = s.catching h.var
  | _ => s' = s

end Op

namespace Code

variable {c : Code}

/-- Whether a node is the child of another. -/
def Under (c : Code) (id parent : Nat) : Prop := (c.node id).parent = some parent

/-- From a block, the slots of a path lead down through blocks to a node. -/
inductive Leads (c : Code) : Nat → List Nat → Nat → Prop
  | last {a b slot : Nat} (block : (c.node a).op.isBlock = true)
      (child : (c.node a).children[slot]? = some b) : Leads c a [slot] b
  | down {a b target slot : Nat} {path : List Nat} (block : (c.node a).op.isBlock = true)
      (child : (c.node a).children[slot]? = some b) (rest : Leads c b path target) :
      Leads c a (slot :: path) target

/-- A way into a label starts at a block. -/
theorem Leads.block {a target : Nat} {path : List Nat} (h : c.Leads a path target) :
    ∃ vars, (c.node a).op = .block vars := by
  have hblock : (c.node a).op.isBlock = true := by cases h <;> assumption
  cases hop : (c.node a).op with
  | block vars => exact ⟨vars, rfl⟩
  | _ =>
    rw [hop] at hblock
    cases hblock

end Code

/-- Whether a route works for the jump at a node. -/
def Route.Works (c : Code) (escapes : Nat → Prop) (jump label : Nat) : Route → Prop
  | .escape => escapes label
  | .within a path .toLabel => Relation.TransGen c.Under jump a ∧
    ∃ target, c.Leads a path target ∧ (c.node target).op = .label label
  | .within a _ _ => Relation.TransGen c.Under jump a ∧ (c.node a).op = .loop

namespace Code

mutual

/-- A node and all below it find in a setting what they refer to. -/
inductive Suited : Code → Nat → Setting → Prop
  | node {c : Code} {id : Nat} {s : Setting}
      (suits : (c.node id).op.Suits s (c.node id).children.length)
      (child : ∀ (slot child : Nat) (s' : Setting), (c.node id).children[slot]? = some child →
        (c.node id).op.Gives s slot s' → Suited c child s')
      (body : ∀ t : Template, (c.node id).op = .lambda t →
        Sound t.code (fun _ => False) (s.entering t.params)) :
      Suited c id s

/-- Code fits a setting, and its jumps arrive or escape to labels that are allowed. -/
inductive Sound : Code → (Nat → Prop) → Setting → Prop
  | mk {c : Code} {escapes : Nat → Prop} {s : Setting}
      (root : Suited c Code.root s)
      (parent : ∀ id slot child : Nat, (c.node id).children[slot]? = some child → c.Under child id)
      (first : ∀ id p : Nat, c.Under id p → p < id)
      (routes : ∀ (id label : Nat) (hasValue : Bool) (r : Route),
        (c.node id).op = .goto label hasValue r → r.Works c escapes id label) :
      Sound c escapes s

end

variable {c : Code} {escapes : Nat → Prop} {s : Setting}

/-- A node that suits a setting has an operation that does. -/
theorem Suited.suits {id : Nat} :
    c.Suited id s → (c.node id).op.Suits s (c.node id).children.length
  | .node suits _ _ => suits

/-- Its children suit the settings that it gives them. -/
theorem Suited.child {id slot child : Nat} {s' : Setting} :
    c.Suited id s → (c.node id).children[slot]? = some child →
      (c.node id).op.Gives s slot s' → c.Suited child s'
  | .node _ h _ => h slot child s'

/-- The code of an inner lambda is sound where its parameters are bound. -/
theorem Suited.body {id : Nat} {t : Template} :
    c.Suited id s → (c.node id).op = .lambda t →
      t.code.Sound (fun _ => False) (s.entering t.params)
  | .node _ _ h => h t

/-- The root of sound code suits the setting. -/
theorem Sound.root : c.Sound escapes s → c.Suited Code.root s
  | .mk h _ _ _ => h

/-- Children know their parents. -/
theorem Sound.parent {id slot child : Nat} :
    c.Sound escapes s → (c.node id).children[slot]? = some child → c.Under child id
  | .mk _ h _ _ => h id slot child

/-- Parents come before their children. -/
theorem Sound.lt_of_under {id p : Nat} : c.Sound escapes s → c.Under id p → p < id
  | .mk _ _ h _ => h id p

/-- The routes of sound code lead where they should. -/
theorem Sound.routes {id label : Nat} {hasValue : Bool} {r : Route} :
    c.Sound escapes s → (c.node id).op = .goto label hasValue r → r.Works c escapes id label
  | .mk _ _ _ h => h id label hasValue r

/-- The root has no parent. -/
theorem Sound.not_under_root {p : Nat} (h : c.Sound escapes s) : ¬c.Under Code.root p :=
  fun hp => Nat.not_lt_zero p (h.lt_of_under hp)

/-- Ancestors come first. -/
theorem Sound.lt_of_above {id a : Nat} (h : c.Sound escapes s)
    (ha : Relation.TransGen c.Under id a) : a < id := by
  induction ha with
  | single hp => exact h.lt_of_under hp
  | tail _ hp ih => exact (h.lt_of_under hp).trans ih

end Code

/-! ## Code that differs in its routes only -/

namespace Node

/-- Setting a route leaves the parent alone. -/
@[simp] theorem parent_withRoute (r : Route) (n : Node) : (n.withRoute r).parent = n.parent := by
  obtain ⟨parent, slot, children, op⟩ := n
  cases op <;> rfl

/-- Setting a route leaves the slot alone. -/
@[simp] theorem slot_withRoute (r : Route) (n : Node) : (n.withRoute r).slot = n.slot := by
  obtain ⟨parent, slot, children, op⟩ := n
  cases op <;> rfl

/-- Setting a route leaves the children alone. -/
@[simp] theorem children_withRoute (r : Route) (n : Node) :
    (n.withRoute r).children = n.children := by
  obtain ⟨parent, slot, children, op⟩ := n
  cases op <;> rfl

/-- The last route counts. -/
@[simp] theorem withRoute_withRoute (q r : Route) (n : Node) :
    (n.withRoute q).withRoute r = n.withRoute r := by
  obtain ⟨parent, slot, children, op⟩ := n
  cases op <;> rfl

/-- A node that does not jump keeps what it does. -/
theorem op_withRoute {n : Node} (r : Route) (h : ∀ l v q, n.op ≠ .goto l v q) :
    (n.withRoute r).op = n.op := by
  obtain ⟨parent, slot, children, op⟩ := n
  cases op with
  | goto l v q => exact absurd rfl (h l v q)
  | _ => rfl

/-- A jump gets the route and keeps its label. -/
theorem op_withRoute_goto {n : Node} {l : Nat} {v : Bool} {q : Route} (r : Route)
    (h : n.op = .goto l v q) : (n.withRoute r).op = .goto l v r := by
  obtain ⟨parent, slot, children, op⟩ := n
  cases h
  rfl

/-- Nodes that differ in their routes only do the same, or jump to the same label. -/
theorem op_eq_of_withRoute {n m : Node} (h : n.withRoute .escape = m.withRoute .escape) :
    n.op = m.op ∨ ∃ l v q r, n.op = .goto l v q ∧ m.op = .goto l v r := by
  have hop : (n.withRoute .escape).op = (m.withRoute .escape).op := congrArg Node.op h
  by_cases hn : ∃ l v q, n.op = .goto l v q
  · obtain ⟨l, v, q, hq⟩ := hn
    rw [op_withRoute_goto .escape hq] at hop
    by_cases hm : ∃ l v q, m.op = .goto l v q
    · obtain ⟨l', v', r, hr⟩ := hm
      rw [op_withRoute_goto .escape hr] at hop
      cases hop
      exact .inr ⟨l, v, q, r, hq, hr⟩
    · have hmr := op_withRoute .escape fun l v q hr => hm ⟨l, v, q, hr⟩
      exact absurd ⟨l, v, .escape, hmr.symm.trans hop.symm⟩ hm
  · rw [op_withRoute .escape fun l v q hq => hn ⟨l, v, q, hq⟩] at hop
    by_cases hm : ∃ l v q, m.op = .goto l v q
    · obtain ⟨l, v, q, hq⟩ := hm
      rw [op_withRoute_goto .escape hq] at hop
      exact absurd ⟨l, v, .escape, hop⟩ hn
    · rw [op_withRoute .escape fun l v q hq => hm ⟨l, v, q, hq⟩] at hop
      exact .inl hop

end Node

namespace Code

variable {c d : Code}

/-- Two pieces of code differ in the routes of their jumps only. -/
def Alike (c d : Code) : Prop :=
  ∀ id, (c.node id).withRoute .escape = (d.node id).withRoute .escape

/-- Alike codes have the same parents. -/
theorem Alike.parent (h : c.Alike d) (id : Nat) : (c.node id).parent = (d.node id).parent := by
  simpa using congrArg Node.parent (h id)

/-- Alike codes have the same children. -/
theorem Alike.children (h : c.Alike d) (id : Nat) :
    (c.node id).children = (d.node id).children := by
  simpa using congrArg Node.children (h id)

/-- Alike codes have the same operations, but for the routes of jumps. -/
theorem Alike.op (h : c.Alike d) {id : Nat} (hop : ∀ l v q, (c.node id).op ≠ .goto l v q) :
    (d.node id).op = (c.node id).op := by
  rcases Node.op_eq_of_withRoute (h id) with hd | ⟨l, v, q, r, hc, -⟩
  · exact hd.symm
  · exact absurd hc (hop l v q)

/-- A node that does not jump does the same. -/
theorem Alike.op_eq (h : c.Alike d) {id : Nat} {op : Op} (hop : (c.node id).op = op)
    (hne : ∀ l v q, op ≠ .goto l v q) : (d.node id).op = op :=
  (h.op (hop ▸ hne)).trans hop

/-- The same nodes are under each other in alike codes. -/
theorem Alike.under (h : c.Alike d) : c.Under = d.Under := by
  funext id p
  rw [Under, Under, h.parent id]

/-- The same nodes are blocks in alike codes. -/
theorem Alike.isBlock (h : c.Alike d) {id : Nat} (hb : (c.node id).op.isBlock = true) :
    (d.node id).op.isBlock = true := by
  rw [h.op fun l v q hq => by rw [hq] at hb; cases hb]
  exact hb

/-- The same ways lead to labels in alike codes. -/
theorem Leads.alike (h : c.Alike d) {a target : Nat} {path : List Nat}
    (hl : c.Leads a path target) : d.Leads a path target := by
  induction hl with
  | last hb hc => exact .last (h.isBlock hb) (h.children _ ▸ hc)
  | down hb hc _ ih => exact .down (h.isBlock hb) (h.children _ ▸ hc) ih

end Code

/-- A route works whatever the routes of other jumps are. -/
theorem Route.Works.alike {c d : Code} {escapes escapes' : Nat → Prop} (h : c.Alike d)
    {jump label : Nat} (hesc : escapes label → escapes' label) {r : Route}
    (hr : r.Works c escapes jump label) : r.Works d escapes' jump label := by
  match r, hr with
  | .escape, hr => exact hesc hr
  | .within _ _ .toLabel, ⟨ha, target, hl, hop⟩ =>
    exact ⟨h.under ▸ ha, target, hl.alike h, h.op_eq hop nofun⟩
  | .within _ _ .toBreak, ⟨ha, hl⟩ => exact ⟨h.under ▸ ha, h.op_eq hl nofun⟩
  | .within _ _ .toContinue, ⟨ha, hl⟩ => exact ⟨h.under ▸ ha, h.op_eq hl nofun⟩

/-- Code that may escape to some labels may escape to more. -/
theorem Code.Sound.mono {c : Code} {escapes escapes' : Nat → Prop} {s : Setting}
    (h : c.Sound escapes s) (hesc : ∀ l, escapes l → escapes' l) : c.Sound escapes' s :=
  .mk h.root (fun _ _ _ => h.parent) (fun _ _ => h.lt_of_under) fun _ l _ _ hop =>
    (h.routes hop).alike (fun _ => rfl) (hesc l)

end Coroutine
