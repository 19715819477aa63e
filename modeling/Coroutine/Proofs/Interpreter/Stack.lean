import Mathlib
import Coroutine.Interpreter.Run
import Coroutine.Proofs.World.Bindings

/-!
# Sound stacks

What the interpreter's frames look like while sound code runs. Each frame belongs to a node that is
suited to the chain of scopes it was pushed over, hangs below the node of the frame under it, and is
in a phase that its node has. `Frame.Runs` lists these phases and the chain in which the children of
the frame run; `Stack` puts the frames together.

A transfer in flight arrives: a jump that is routed to a node finds a frame of this node that takes
it.
-/

namespace Coroutine

/-- The errors that mean that the bookkeeping of a machine went wrong. -/
def RunError.isBreakdown : RunError → Bool
  | .invalidTransition _ | .cannotSuspend _ | .unboundVariable _ | .build _ => true
  | .thrown _ | .alreadyCompleted | .arity .. | .stepLimitExceeded _ => false

/-! ## Transfers -/

mutual

/-- An operation is the same as itself. -/
theorem Op.same_self (op : Op) : op.same op = true := by
  cases op with
  | lambda t => exact Template.same_self t
  | _ => simp [Op.same]

/-- A node is the same as itself. -/
theorem Node.same_self : ∀ n : Node, n.same n = true
  | ⟨_, _, _, op⟩ => by simp [Node.same, Op.same_self op]

/-- Nodes are the same as themselves. -/
theorem Node.sameAll_self : ∀ ns : List Node, Node.sameAll ns ns = true
  | [] => rfl
  | n :: ns => by rw [Node.sameAll, Node.same_self n, Node.sameAll_self ns, Bool.and_self]

/-- A code is found to be the same as itself. -/
theorem Code.same_self : ∀ c : Code, c.same c = true
  | ⟨⟨nodes⟩, escapes⟩ => by simp [Code.same, Node.sameAll_self nodes]

/-- A template is the same as itself. -/
theorem Template.same_self : ∀ t : Template, t.same t = true
  | ⟨_, _, code⟩ => by simp [Template.same, Code.same_self code]

end

namespace Frame

/-- A frame whose node takes a jump to a label that was routed to it. -/
def Takes (f : Frame) (label : Nat) (path : List Nat) : RouteKind → Prop
  | .toLabel => ∃ target, f.code.Leads f.node path target ∧ (f.code.node target).op = .label label
  | .toBreak | .toContinue => f.op = .loop

end Frame

/-- A jump to a node of some code reaches a frame of this node, which takes it, past frames of the
same code and no call. -/
def Arrives (code : Code) (label a : Nat) (path : List Nat) (kind : RouteKind) : List Frame → Prop
  | [] => False
  | f :: fs => f.code = code ∧ ((f.node = a ∧ f.Takes label path kind) ∨
    (f.node ≠ a ∧ f.phase ≠ .inClosure ∧ Arrives code label a path kind fs))

/-- A transfer can be delivered by frames, or out of them towards an allowed label. -/
def Transfer.Arrives (escapes : Nat → Prop) (fs : List Frame) : Transfer → Prop
  | .jump ⟨_, label, .escape, _⟩ => escapes label
  | .jump ⟨code, label, .within a path kind, _⟩ => Coroutine.Arrives code label a path kind fs
  | .throw _ | .exit _ => True

/-- What goes on after a cleanup can be delivered. -/
def Completion.Arrives (escapes : Nat → Prop) (fs : List Frame) : Completion → Prop
  | .value _ => True
  | .abrupt t => t.Arrives escapes fs

/-! ## Handlers -/

/-- The exception for which a frame runs a handler. -/
def Phase.exception? : Phase → Option Exception
  | .inHandler e => some e
  | _ => none

/-- Whether a frame runs neither a handler nor a closure. -/
def Phase.isPlain : Phase → Bool
  | .inHandler _ | .inClosure => false
  | _ => true

/-- A plain phase holds no exception and calls no closure. -/
theorem Phase.plain_of_isPlain {p : Phase} (h : p.isPlain = true) :
    p.exception? = none ∧ p ≠ .inClosure := by
  cases p with
  | inHandler | inClosure => cases h
  | _ => exact ⟨rfl, nofun⟩

/-- Whether the child in a slot is no handler of its node. -/
def Op.Passes (slot : Nat) : Op → Prop
  | .tryCatch _ cleanup => slot = 0 ∨ cleanup = some slot
  | _ => True

/-- The frames lead from the handler `h` of the try `F`, which runs for the exception `e` over the
frames `below`, down to a node of the same code. No handler in between is nearer to the node. -/
inductive HandledBy (F : Frame) (below : List Frame) (h : HandlerSlots) (e : Exception) :
    List Frame → Code → Nat → Prop
  | here {handlers : List HandlerSlots} {cleanup : Option Nat} {id : Nat}
      (op : F.op = .tryCatch handlers cleanup)
      (find : handlers.find? (·.filter.accepts e.toFault) = some h)
      (phase : F.phase = .inHandler e) (child : F.children[h.body]? = some id) :
      HandledBy F below h e (F :: below) F.code id
  | inside {g : Frame} {gs : List Frame} {slot id : Nat}
      (outer : HandledBy F below h e gs g.code g.node) (phase : g.phase.exception? = none)
      (passes : g.op.Passes slot) (child : g.children[slot]? = some id) :
      HandledBy F below h e (g :: gs) g.code id

/-- A node that the frames lead to stands in a handler that is running. -/
def Handled (fs : List Frame) (code : Code) (id : Nat) : Prop :=
  ∃ F below h e, HandledBy F below h e fs code id

/-- The exception of the handler around a node is the one that the frames show. -/
theorem HandledBy.active {F : Frame} {below : List Frame} {h : HandlerSlots} {e : Exception}
    {code : Code} {id : Nat} {c : Context} (hby : HandledBy F below h e c.frames code id) :
    c.activeException? = some e := by
  show c.frames.findSome? (·.phase.exception?) = some e
  generalize c.frames = fs at hby
  induction hby with
  | here op find phase child => rw [List.findSome?_cons, phase, Phase.exception?]
  | inside outer phase passes child ih => rw [List.findSome?_cons, phase, ih]

/-! ## Frames -/

/-- Whether a node that suspends may do so in code that runs as a lambda of a kind. -/
def Op.Pauses (mode : LambdaKind) : Op → Prop
  | .await .. => mode = .async
  | .yieldReturn | .yieldBreak => mode = .generator
  | _ => True

/-- The nodes of code suspend the way lambdas of a kind do. -/
def Code.Pauses (c : Code) (mode : LambdaKind) : Prop := ∀ id, (c.node id).op.Pauses mode

/-- The terms on which code runs. -/
structure Terms where
  /-- The kind of the lambda, which says how the run may suspend. -/
  mode : LambdaKind
  /-- The labels that a jump may escape to. -/
  escapes : Nat → Prop
  /-- The chain of scopes that the run started over. -/
  ground : Chain

/-- Whether a node evaluates all its children and is then applied to their values. -/
def Op.isApplied : Op → Bool
  | .assign _ | .binary _ | .unary _ | .call _ | .invoke | .goto .. | .label _ | .throw => true
  | _ => false

namespace Frame

/-- A frame hangs below the one under it, or belongs to the root of its code. -/
def Hangs (f : Frame) (below : List Frame) : Prop :=
  f.node = Code.root ∨ ∃ g ∈ below.head?, f.code = g.code ∧ f.code.Under f.node g.node ∧
    g.phase ≠ .inClosure

/-- A pending cleanup is that of a guarded node. -/
theorem eq_of_pendingCleanup? {f : Frame} {slot : Nat} (h : f.pendingCleanup? = some slot) :
    ∃ handlers, f.op = .tryCatch handlers (some slot) ∧ f.phase.isGuarded = true := by
  unfold pendingCleanup? at h
  split at h
  · rename_i handlers cleanup hop
    split at h
    · rename_i hphase
      exact ⟨handlers, h ▸ hop, hphase⟩
    · cases h
  · cases h

section

variable {σ : Type}

/-- What holds of a frame in all its phases. The chain is the one the frame was pushed over. -/
structure Sound (T : Terms) (w : World σ) (below : List Frame) (f : Frame) (s : Setting)
    (χ : Chain) : Prop where
  code : ∃ t, f.code.Sound T.escapes t
  suited : f.code.Suited f.node s
  binds : w.Binds χ s
  depth : f.depth = χ.length
  waits : s.waits = true → f.code.Pauses T.mode
  handled : s.handling = true → Handled below f.code f.node
  hangs : f.Hangs below

/-- The phases of a frame, with the chain in which its children run. -/
inductive Runs (T : Terms) (w : World σ) (below : List Frame) (f : Frame) (s : Setting)
    (χ : Chain) : Chain → Prop
  | operands {next : Nat} (saved : f.saved = none) (op : f.op.isApplied = true)
      (phase : f.phase = .operands next) : Runs T w below f s χ χ
  | shortCircuit {b : BinaryOp} (saved : f.saved = none) (op : f.op = .binary b)
      (phase : f.phase = .left ∨ f.phase = .leftDone ∨ f.phase = .rightDone) :
      Runs T w below f s χ χ
  | block {vars : List Var} {χ' : Chain} {i : Nat} (saved : f.saved = none)
      (op : f.op = .block vars)
      (phase : f.phase = .statement i (!vars.isEmpty) ∨ f.phase = .statementDone i (!vars.isEmpty))
      (scope : (vars.isEmpty = true ∧ χ' = χ) ∨ (vars.isEmpty = false ∧ ∃ t, χ' = t :: χ))
      (binds : w.Binds χ' (s.declaring vars)) : Runs T w below f s χ χ'
  | condition {hasElse : Bool} (saved : f.saved = none) (op : f.op = .condition hasElse)
      (phase : f.phase = .test ∨ f.phase = .testDone ∨ f.phase = .branchDone) :
      Runs T w below f s χ χ
  | switch {cases : List CaseSlots} {fallback : Option Nat} (saved : f.saved = none)
      (op : f.op = .switch cases fallback)
      (phase : f.phase = .subject ∨ (∃ i j, f.phase = .candidate i j) ∨
        (∃ i j, i < cases.length ∧ f.phase = .candidateDone i j) ∨ f.phase = .armDone) :
      Runs T w below f s χ χ
  | loop (saved : f.saved = none) (op : f.op = .loop)
      (phase : f.phase = .iteration ∨ f.phase = .iterationDone) : Runs T w below f s χ χ
  | guarded {handlers : List HandlerSlots} {cleanup : Option Nat} (saved : f.saved = none)
      (op : f.op = .tryCatch handlers cleanup) (phase : f.phase = .guarded ∨ f.phase = .inBody) :
      Runs T w below f s χ χ
  | handler {handlers : List HandlerSlots} {cleanup : Option Nat} {e : Exception}
      (saved : f.saved = none) (op : f.op = .tryCatch handlers cleanup)
      (phase : f.phase = .inHandler e) (ext : Chain) : Runs T w below f s χ (ext ++ χ)
  | cleanup {handlers : List HandlerSlots} {cleanup : Option Nat} {deferred : Completion}
      (saved : f.saved = none) (op : f.op = .tryCatch handlers cleanup)
      (phase : f.phase = .inCleanup deferred) (arrives : deferred.Arrives T.escapes below) :
      Runs T w below f s χ χ
  | await {binder : Binder} {configure : Bool} (saved : f.saved = none)
      (op : f.op = .await binder configure)
      (phase : f.phase = .awaitable ∨ f.phase = .awaitableDone ∨ ∃ v, f.phase = .awaiting v) :
      Runs T w below f s χ χ
  | yield (saved : f.saved = none) (op : f.op = .yieldReturn)
      (phase : f.phase = .yielding ∨ f.phase = .yieldDone ∨ f.phase = .yielded) :
      Runs T w below f s χ χ
  | closure {χ' : Chain} (saved : f.saved = some χ) (op : f.op = .invoke)
      (phase : f.phase = .inClosure) : Runs T w below f s χ χ'

variable {T : Terms} {w w' : World σ} {below : List Frame} {f : Frame} {s : Setting}
  {χ χ' : Chain}

/-- A frame stays sound in a world that grows. -/
theorem Sound.grows (h : f.Sound T w below s χ) (hg : w.Grows w') :
    f.Sound T w' below s χ :=
  { h with binds := h.binds.grows hg }

/-- A frame is as sound in another phase. -/
theorem Sound.setPhase (h : f.Sound T w below s χ) (p : Phase) :
    ({ f with phase := p } : Frame).Sound T w below s χ :=
  ⟨h.code, h.suited, h.binds, h.depth, h.waits, h.handled, h.hangs⟩

/-- A frame keeps running in a world that grows. -/
theorem Runs.grows (h : f.Runs T w below s χ χ') (hg : w.Grows w') :
    f.Runs T w' below s χ χ' := by
  cases h with
  | operands saved op phase => exact .operands saved op phase
  | shortCircuit saved op phase => exact .shortCircuit saved op phase
  | block saved op phase scope binds => exact .block saved op phase scope (binds.grows hg)
  | condition saved op phase => exact .condition saved op phase
  | switch saved op phase => exact .switch saved op phase
  | loop saved op phase => exact .loop saved op phase
  | guarded saved op phase => exact .guarded saved op phase
  | handler saved op phase ext => exact .handler saved op phase ext
  | cleanup saved op phase arrives => exact .cleanup saved op phase arrives
  | await saved op phase => exact .await saved op phase
  | yield saved op phase => exact .yield saved op phase
  | closure saved op phase => exact .closure saved op phase

/-- Only a frame that runs a closure has replaced the chain. -/
theorem Runs.saved_eq (h : f.Runs T w below s χ χ') (hphase : f.phase ≠ .inClosure) :
    f.saved = none := by
  cases h with
  | closure saved op phase => exact absurd phase hphase
  | operands saved | shortCircuit saved | block saved | condition saved | switch saved
  | loop saved | guarded saved | handler saved | cleanup saved | await saved | yield saved =>
    exact saved

/-- A frame with a cleanup ahead has saved no chain. -/
theorem Runs.saved_of_isGuarded (h : f.Runs T w below s χ χ')
    (hphase : f.phase.isGuarded = true) : f.saved = none :=
  h.saved_eq fun heq => by rw [heq] at hphase; cases hphase

/-- The phases of a loop. -/
theorem Runs.loop_phase (h : f.Runs T w below s χ χ') (hop : f.op = .loop) :
    f.saved = none ∧ χ' = χ ∧ (f.phase = .iteration ∨ f.phase = .iterationDone) := by
  cases h with
  | loop saved op phase => exact ⟨saved, rfl, phase⟩
  | operands saved op =>
    rw [hop] at op
    cases op
  | shortCircuit saved op | block saved op | condition saved op | switch saved op
  | guarded saved op | handler saved op | cleanup saved op | await saved op | yield saved op
  | closure saved op =>
    rw [hop] at op
    cases op

/-- The phases of a block, and the scope it may have. -/
theorem Runs.block_phase (h : f.Runs T w below s χ χ') {vars : List Var}
    (hop : f.op = .block vars) :
    f.saved = none ∧ w.Binds χ' (s.declaring vars) ∧
      ((vars.isEmpty = true ∧ χ' = χ) ∨ (vars.isEmpty = false ∧ ∃ t, χ' = t :: χ)) ∧
      ∃ i, f.phase = .statement i (!vars.isEmpty) ∨ f.phase = .statementDone i (!vars.isEmpty) := by
  cases h with
  | block saved op phase scope binds =>
    rw [hop] at op
    cases op
    exact ⟨saved, binds, scope, _, phase⟩
  | operands saved op =>
    rw [hop] at op
    cases op
  | shortCircuit saved op | condition saved op | switch saved op | loop saved op
  | guarded saved op | handler saved op | cleanup saved op | await saved op | yield saved op
  | closure saved op =>
    rw [hop] at op
    cases op

/-- When a frame goes, the chain is again the one that it was pushed over. -/
theorem Runs.pop (h : f.Runs T w below s χ χ') (hd : f.depth = χ.length) :
    f.saved.getD (χ'.truncate f.depth) = χ := by
  rw [hd]
  cases h with
  | block saved op phase scope binds =>
    rw [saved, Option.getD_none]
    rcases scope with ⟨-, rfl⟩ | ⟨-, t, rfl⟩
    · exact χ'.truncate_self
    · exact Chain.truncate_append [t] χ
  | handler saved op phase ext =>
    rw [saved, Option.getD_none]
    exact Chain.truncate_append ext χ
  | closure saved op phase => rw [saved, Option.getD_some]
  | operands saved | shortCircuit saved | condition saved | switch saved | loop saved
  | guarded saved | cleanup saved | await saved | yield saved =>
    rw [saved, Option.getD_none]
    exact χ.truncate_self

end

end Frame

/-! ## Stacks -/

section

variable {σ : Type}

/-- Frames one upon the other, and the chain in which a child of the top frame runs. -/
inductive Stack (T : Terms) (w : World σ) : List Frame → Chain → Prop
  | empty : Stack T w [] T.ground
  | push {f : Frame} {fs : List Frame} {s : Setting} {χ χ' : Chain} (below : Stack T w fs χ)
      (sound : f.Sound T w fs s χ) (runs : f.Runs T w fs s χ χ') :
      Stack T w (f :: fs) χ'

variable {T : Terms} {w w' : World σ} {f : Frame} {fs : List Frame} {χ : Chain}

/-- A stack stays sound in a world that grows. -/
theorem Stack.grows (h : Stack T w fs χ) (hg : w.Grows w') : Stack T w' fs χ := by
  induction h with
  | empty => exact .empty
  | push _ sound runs ih => exact .push ih (sound.grows hg) (runs.grows hg)

/-- From a frame on, a jump to an ancestor of its node meets the frame of this ancestor. -/
theorem Stack.arrives (h : Stack T w (f :: fs) χ) (hf : f.phase ≠ .inClosure) {label a : Nat}
    {path : List Nat} {kind : RouteKind} (ha : Relation.TransGen f.code.Under f.node a)
    (htakes : ∀ g : Frame, g.code = f.code → g.node = a → g.Takes label path kind) :
    Arrives f.code label a path kind (f :: fs) := by
  induction fs generalizing f χ with
  | nil =>
    cases h with
    | push below sound runs =>
      obtain ⟨t, ht⟩ := sound.code
      obtain ⟨p, hp, -⟩ := Relation.TransGen.head'_iff.1 ha
      rcases sound.hangs with hroot | ⟨g, hg, -⟩
      · exact absurd (hroot ▸ hp) ht.not_under_root
      · cases hg
  | cons g fs ih =>
    cases h with
    | push below sound runs =>
      obtain ⟨t, ht⟩ := sound.code
      refine ⟨rfl, .inr ⟨(ht.lt_of_above ha).ne', hf, ?_⟩⟩
      obtain ⟨p, hp, hpa⟩ := Relation.TransGen.head'_iff.1 ha
      rcases sound.hangs with hroot | ⟨g', hg', hcode, hunder, hphase⟩
      · exact absurd (hroot ▸ hp) ht.not_under_root
      · cases hg'
        -- the parent is unique, so the climb goes through the frame below
        obtain rfl : p = g.node := Option.some.inj (hp.symm.trans hunder)
        rcases Relation.reflTransGen_iff_eq_or_transGen.1 hpa with rfl | hpa
        · exact ⟨hcode.symm, .inl ⟨rfl, htakes g hcode.symm rfl⟩⟩
        · rw [hcode]
          exact ih below hphase (hcode ▸ hpa) fun g' hg' => htakes g' (hg'.trans hcode.symm)

/-- A route that works delivers the jump at the top frame. -/
theorem Stack.delivers (h : Stack T w (f :: fs) χ) (hf : f.phase ≠ .inClosure) {label : Nat}
    {r : Route} {v : Value} (hr : r.Works f.code T.escapes f.node label) :
    (Transfer.jump ⟨f.code, label, r, v⟩).Arrives T.escapes (f :: fs) := by
  match r, hr with
  | .escape, hr => exact hr
  | .within a path .toLabel, ⟨ha, target, hl, hop⟩ =>
    exact h.arrives hf ha fun g hcode hnode => ⟨target, hcode ▸ hnode ▸ hl, hcode ▸ hop⟩
  | .within a path .toBreak, ⟨ha, hl⟩ | .within a path .toContinue, ⟨ha, hl⟩ =>
    exact h.arrives hf ha fun g hcode hnode => by rw [Frame.Takes, Frame.op, hcode, hnode, hl]

end

end Coroutine
