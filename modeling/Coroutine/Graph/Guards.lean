import Coroutine.BuildError

/-!
# Enclosing guards

While a program is split into states, `Guards` says which try constructs enclose the current place,
and by which of their parts, the innermost first. They restrict where a generator can yield.
-/

namespace Coroutine

/-- A part of a try construct. -/
inductive GuardPart where
  /-- The protected body of a try with handlers. -/
  | caught
  /-- The protected body of a try with a cleanup. -/
  | cleaned
  | handler
  | cleanup
deriving DecidableEq, Repr

/-- An enclosing try construct: the part, and the variable of its exception. -/
structure Guard where
  part : GuardPart
  exception : Var
deriving DecidableEq, Repr

/-- The enclosing try constructs, the innermost first. -/
abbrev Guards := List Guard

namespace Guards

/-- Whether a cleanup encloses the place. -/
def inCleanup (gs : Guards) : Bool := gs.any (·.part == .cleanup)

/-- Why a part does not allow to yield inside it. -/
def partRestriction? : GuardPart → Option Restriction
  | .caught => some .guardedBody
  | .handler => some .handler
  | .cleanup => some .cleanup
  | .cleaned => none

/-- Why a generator cannot yield here. -/
def yieldRestriction? (gs : Guards) : Option Restriction :=
  gs.findSome? fun g => partRestriction? g.part

end Guards

end Coroutine
