import Coroutine.Number.Power

/-!
# Doubles as exact binary fractions

A finite double is a sign and a natural mantissa times a power of two. `Binary.ofFloat?` takes a
double apart and `Binary.toFloat` puts one together; between them all arithmetic on doubles that
core does not offer (the remainder, the shortest decimal) is exact arithmetic on `Nat`.
-/

namespace Coroutine

/-- The number `± mantissa · 2 ^ exponent`. -/
structure Binary where
  negative : Bool
  mantissa : Nat
  exponent : Int
deriving DecidableEq, Repr, Inhabited

namespace Binary

/-- The exponent of the last place of every subnormal double. -/
def leastExponent : Int := -1074

/-- Takes a finite double apart. Infinities and NaN have no binary fraction. -/
def ofFloat? (x : Float) : Option Binary :=
  let bits := x.toBits.toNat
  let negative := bits / twoPow 63 == 1
  let field := bits / twoPow 52 % twoPow 11
  let fraction := bits % twoPow 52
  if field = 2047 then none
  else if field = 0 then some ⟨negative, fraction, leastExponent⟩
  else some ⟨negative, fraction + twoPow 52, leastExponent + (field - 1 : Nat)⟩

/-- The double of a binary fraction whose mantissa is below `2 ^ 53` and whose exponent is at
least `leastExponent`, so that the fraction is a double itself as long as it is in range. -/
def toFloat (b : Binary) : Float :=
  let sign := if b.negative then twoPow 63 else 0
  if b.mantissa = 0 then Float.ofBits (UInt64.ofNat sign)
  else
    -- Shift the leading bit to position 52, but not below the least exponent.
    let room := 52 - Nat.log2 b.mantissa
    let shift := min room (b.exponent - leastExponent).toNat
    let mantissa := b.mantissa * twoPow shift
    let exponent := b.exponent - shift
    let field := if mantissa < twoPow 52 then 0 else (exponent - leastExponent).toNat + 1
    Float.ofBits (UInt64.ofNat (sign + field * twoPow 52 + mantissa % twoPow 52))

end Binary

/-- The remainder of truncating division on doubles. It is exact, has the sign of the dividend,
and is NaN when the dividend is infinite or the divisor is zero. -/
def floatRemainder (x y : Float) : Float :=
  match Binary.ofFloat? x, Binary.ofFloat? y with
  | some a, some b =>
    if b.mantissa = 0 then 0.0 / 0.0
    else
      let exponent := min a.exponent b.exponent
      let dividend := a.mantissa * twoPow (a.exponent - exponent).toNat
      let divisor := b.mantissa * twoPow (b.exponent - exponent).toNat
      Binary.toFloat ⟨a.negative, dividend % divisor, exponent⟩
  | some _, none => if y.isNaN then y else x
  | none, _ => 0.0 / 0.0

end Coroutine
