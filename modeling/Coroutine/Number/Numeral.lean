/-!
# Reading decimal numerals

A numeral is a sign, the digits before the point, and perhaps digits after it and an exponent of
ten. `Numeral.value?` gives it a meaning:

* without point and exponent it is an integer as long as it fits in 64 bits (signed below zero,
  unsigned above), and `-0` is no integer;
* anything else is a double. The digits are gathered into a 64-bit significand, the significand is
  converted to a double, and that is multiplied or divided by a power of ten, so a numeral with
  more than fifteen digits may be off in the last place;
* a numeral too large for a double has no value.
-/

namespace Coroutine

/-- A number as a document can hold it. -/
inductive Number where
  /-- An integer between `-2 ^ 63` and `2 ^ 64 - 1`. -/
  | int (i : Int)
  | float (x : Float)
deriving DecidableEq, Repr, Inhabited

/-- A decimal numeral, taken apart. Digits are listed from the left. -/
structure Numeral where
  negative : Bool
  whole : List Nat
  fraction : Option (List Nat)
  exponent : Option Int
deriving DecidableEq, Repr

namespace Numeral

/-- The digits gathered so far: `significand · 10 ^ exponent`. -/
structure Gathered where
  significand : Nat
  exponent : Int
deriving DecidableEq, Repr

/-- Whether another digit still fits in the significand. -/
def Gathered.fits (g : Gathered) (digit : Nat) : Bool :=
  g.significand * 10 + digit < UInt64.size

/-- Gathers digits before the point. Once a digit does not fit, it and all later ones only move
the exponent. -/
def Gathered.addWhole (g : Gathered) : List Nat → Gathered
  | [] => g
  | d :: ds =>
    if g.fits d then addWhole ⟨g.significand * 10 + d, g.exponent⟩ ds
    else ⟨g.significand, g.exponent + (d :: ds).length⟩

/-- Gathers digits after the point. Once a digit does not fit, it and all later ones are
dropped. -/
def Gathered.addFraction (g : Gathered) : List Nat → Gathered
  | [] => g
  | d :: ds =>
    if g.fits d then addFraction ⟨g.significand * 10 + d, g.exponent - 1⟩ ds else g

/-- Divides by `10 ^ e`, by at most `10 ^ 308` at a time. -/
def scaleDown (x : Float) (e : Nat) : Float :=
  if e ≤ 308 then x / Float.ofScientific 1 false e
  else if x == 0 then x
  else scaleDown (x / 1e308) (e - 308)
termination_by e

/-- The double that gathered digits denote, unless it is out of range. -/
def Gathered.toFloat? (g : Gathered) : Option Float :=
  let x := Float.ofNat g.significand
  if g.exponent < 0 then some (scaleDown x (-g.exponent).toNat)
  else if 308 < g.exponent then if g.significand = 0 then some x else none
  else
    let y := x * Float.ofScientific 1 false g.exponent.toNat
    if y.isInf then none else some y

/-- The double that a numeral denotes, unless it is out of range. -/
def float? (n : Numeral) : Option Float :=
  let g := (Gathered.mk 0 0).addWhole n.whole
  let g := g.addFraction (n.fraction.getD [])
  let g := { g with exponent := g.exponent + n.exponent.getD 0 }
  g.toFloat?.map fun x => if n.negative then -x else x

/-- The integer that a run of digits denotes. -/
def digitsValue (ds : List Nat) : Nat := ds.foldl (fun n d => 10 * n + d) 0

/-- The number that a numeral denotes. -/
def value? (n : Numeral) : Option Number :=
  let m := digitsValue n.whole
  if n.fraction.isNone ∧ n.exponent.isNone ∧
      (if n.negative then 0 < m ∧ m ≤ UInt64.size / 2 else m < UInt64.size) then
    some (.int (if n.negative then -m else m))
  else n.float?.map .float

end Numeral

end Coroutine
