import Coroutine.Interpreter.Context

/-!
# Copies

A copy of a machine shares no scope with it. Copying goes along the references: every scope that is
met is copied once, and a reference to it becomes one to its copy. Closures are copied with the
scopes they captured; all other values stay as they are, so tasks and exceptions are shared.

A scope is noted before the values in it are copied, because a closure stored in a scope usually
captured that scope. A closure is noted only when the scopes it captured have been copied.

The parts of the interpreter's state are copied from the bottom of each stack upwards.
-/

namespace Coroutine

variable {σ : Type}

/-- A world in which copies are being made. -/
structure Copies (σ : Type) where
  world : World σ
  /-- The scopes met so far, each with its copy. -/
  scopes : List (Nat × Nat) := []
  /-- The closures copied so far, each with its copies, the last one first. -/
  closures : List (Nat × Nat) := []

namespace Copies

/-- Notes a scope with a copy that is empty yet. -/
def openScope (c : Copies σ) (s : Nat) : Nat × Copies σ :=
  let (copy, world) := c.world.newScope {}
  (copy, { c with world, scopes := (s, copy) :: c.scopes })

/-- Gives the copy of a scope its contents. -/
def fillScope (c : Copies σ) (copy : Nat) (bindings : List (Nat × Value)) : Copies σ :=
  { c with world := c.world.modifyScope copy fun _ => ⟨bindings⟩ }

/-- Notes a closure with a copy over a chain. -/
def addClosure (c : Copies σ) (f : Nat) (captured : Chain) : Nat × Copies σ :=
  let (ref, world) := c.world.newClosure (c.world.closure f).template captured
  (ref.id, { c with world, closures := (f, ref.id) :: c.closures })

end Copies

/-- A part of copying. It fails when it goes deeper than it may. -/
abbrev Copying (σ : Type) := StateT (Copies σ) Option

namespace Copying

/-- Copies a stack from the bottom upwards. -/
def stack {α : Type} (f : α → Copying σ α) : List α → Copying σ (List α)
  | [] => return []
  | a :: below => do
    let below ← stack f below
    return (← f a) :: below

/-- Copies what may be there. -/
def optional {α : Type} (f : α → Copying σ α) : Option α → Copying σ (Option α)
  | none => return none
  | some a => do return some (← f a)

section

variable (copyScope : Nat → Copying σ Nat)

/-- Copies a chain, the outermost scope first. -/
def chain : Chain → Copying σ Chain := stack copyScope

/-- Copies a closure. -/
def closure (f : Nat) : Copying σ Nat := do
  match (← get).closures.lookup f with
  | some copy => return copy
  | none =>
    let captured ← chain copyScope ((← get).world.closure f).captured
    modifyGet fun c => c.addClosure f captured

/-- Copies a value. -/
def value : Value → Copying σ Value
  | .closure f => do return .closure { f with id := ← closure copyScope f.id }
  | v => return v

/-- Copies the values of a scope. -/
def bindings : List (Nat × Value) → Copying σ (List (Nat × Value))
  | [] => return []
  | (x, v) :: rest => do
    let v ← value copyScope v
    return (x, v) :: (← bindings rest)

end

/-- Copies a scope with its values. The scopes that are being copied at a time are different ones,
which bounds the depth. -/
def scope : Nat → Nat → Copying σ Nat
  | 0, _ => failure
  | depth + 1, s => do
    match (← get).scopes.lookup s with
    | some copy => return copy
    | none =>
      let copy ← modifyGet fun c => c.openScope s
      let values ← bindings (scope depth) ((← get).world.scope s).bindings
      modify fun c => c.fillScope copy values
      return copy

end Copying

/-- Copies a chain in a world. -/
def Chain.fork (c : Chain) (w : World σ) : Chain × World σ :=
  match (Copying.chain (Copying.scope (w.scopes.size + 1)) c).run { world := w } with
  | some (c, copies) => (c, copies.world)
  | none => (c, w)

/-! ## The interpreter's state -/

section

variable (copyScope : Nat → Copying σ Nat)

/-- Copies a transfer. -/
def Transfer.copy : Transfer → Copying σ Transfer
  | .jump j => do return .jump { j with value := ← Copying.value copyScope j.value }
  | .throw e => return .throw e
  | .exit v => do return .exit (← Copying.value copyScope v)

/-- Copies a phase. -/
def Phase.copy : Phase → Copying σ Phase
  | .inCleanup (.value v) => do return .inCleanup (.value (← Copying.value copyScope v))
  | .inCleanup (.abrupt t) => do return .inCleanup (.abrupt (← t.copy copyScope))
  | .awaiting v => do return .awaiting (← Copying.value copyScope v)
  | p => return p

/-- Copies a frame. -/
def Frame.copy (f : Frame) : Copying σ Frame := do
  let phase ← f.phase.copy copyScope
  let saved ← Copying.optional (Copying.chain copyScope) f.saved
  return { f with phase, saved }

/-- Copies a suspension. -/
def Suspension.copy (s : Suspension) : Copying σ Suspension := do
  return { s with awaiter := ← Copying.value copyScope s.awaiter }

/-- Copies the interpreter's state. -/
def Context.copy (c : Context) : Copying σ Context := do
  let scopes ← Copying.chain copyScope c.scopes
  let frames ← Copying.stack (Frame.copy copyScope) c.frames
  let results ← Copying.stack (Copying.value copyScope) c.results
  let control ← Copying.optional (Transfer.copy copyScope) c.control
  let current ← Copying.value copyScope c.current
  let suspension ← Copying.optional (Suspension.copy copyScope) c.suspension
  return { scopes, results, frames, control, current, suspension }

end

end Coroutine
