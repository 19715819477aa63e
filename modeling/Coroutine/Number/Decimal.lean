import Coroutine.Number.Binary

/-!
# The shortest decimal of a double

`Decimal.shortest` finds the decimal with the fewest digits that rounds back to a given positive
double, and among those the nearest one. It looks at the interval of reals that round to the
double and tries the decimal grids from coarse to fine: on each grid only the two neighbours of
the double can lie in the interval.

`floatText` writes a double positionally with those digits: never an exponent, no trailing `.0`.
-/

namespace Coroutine

/-- The number `digits · 10 ^ exponent`. -/
structure Decimal where
  digits : Nat
  exponent : Int
deriving DecidableEq, Repr, Inhabited

namespace Decimal

/-- The reals that round to a double, as numerators over one denominator. The two ends belong to
the interval when the mantissa is even. -/
structure Interval where
  low : Nat
  value : Nat
  high : Nat
  denominator : Nat
  closed : Bool

/-- The rounding interval of `mantissa · 2 ^ exponent`. The step below a power of two is half the
step above it, except at the least exponent. -/
def Interval.of (mantissa : Nat) (exponent : Int) : Interval :=
  let below :=
    if mantissa = twoPow 52 ∧ exponent ≠ Binary.leastExponent then 1 else 2
  let scale := twoPow (exponent - 2).toNat
  { low := (4 * mantissa - below) * scale
    value := 4 * mantissa * scale
    high := (4 * mantissa + 2) * scale
    denominator := twoPow (2 - exponent).toNat
    closed := mantissa % 2 == 0 }

/-- Whether `n · 10 ^ e` lies in the interval. -/
def Interval.contains (i : Interval) (n : Nat) (e : Int) : Bool :=
  let x := n * tenPow e.toNat * i.denominator
  let scale := tenPow (-e).toNat
  if i.closed then i.low * scale ≤ x && x ≤ i.high * scale
  else i.low * scale < x && x < i.high * scale

/-- The value of the interval on the grid `10 ^ e`, rounded down. -/
def Interval.floor (i : Interval) (e : Int) : Nat :=
  i.value * tenPow (-e).toNat / (i.denominator * tenPow e.toNat)

/-- Whether the value is nearer to `n · 10 ^ e` than to `(n + 1) · 10 ^ e`; the middle is not. -/
def Interval.nearerBelow (i : Interval) (n : Nat) (e : Int) : Bool :=
  2 * i.value * tenPow (-e).toNat < (2 * n + 1) * i.denominator * tenPow e.toNat

/-- The exponent of the leading decimal digit of the value, searched upwards from `e`. -/
def Interval.leading (i : Interval) : Nat → Int → Int
  | 0, e => e
  | fuel + 1, e => if i.floor (e + 1) = 0 then e else i.leading fuel (e + 1)

/-- The first grid, from `e` on downwards, on which a neighbour of the value lies in the
interval. Of two such neighbours the nearer is taken, the upper one if they are equally near. -/
def Interval.search (i : Interval) : Nat → Int → Decimal
  | 0, e => ⟨i.floor e, e⟩
  | fuel + 1, e =>
    let n := i.floor e
    match i.contains n e, i.contains (n + 1) e with
    | true, true => if i.nearerBelow n e then ⟨n, e⟩ else ⟨n + 1, e⟩
    | true, false => ⟨n, e⟩
    | false, true => ⟨n + 1, e⟩
    | false, false => i.search fuel (e - 1)

/-- Moves trailing zeros of the digits into the exponent. -/
def strip : Nat → Decimal → Decimal
  | 0, d => d
  | fuel + 1, d =>
    if d.digits ≠ 0 ∧ d.digits % 10 = 0 then strip fuel ⟨d.digits / 10, d.exponent + 1⟩ else d

/-- The shortest decimal that rounds to `mantissa · 2 ^ exponent`. Seventeen digits always
suffice. -/
def shortest (mantissa : Nat) (exponent : Int) : Decimal :=
  let i := Interval.of mantissa exponent
  let lead := i.leading 700 (-330)
  strip 20 (i.search 18 lead)

/-- A positive decimal in positional notation. -/
def positional (d : Decimal) : String :=
  let digits := Nat.toDigits 10 d.digits
  if 0 ≤ d.exponent then String.ofList (digits ++ List.replicate d.exponent.toNat '0')
  else
    let places := (-d.exponent).toNat
    let padded := List.replicate (places + 1 - digits.length) '0' ++ digits
    let whole := padded.length - places
    String.ofList (padded.take whole ++ '.' :: padded.drop whole)

/-- A positive decimal as a numeral with one digit before the point and an exponent. -/
def scientific (d : Decimal) : String :=
  match Nat.toDigits 10 d.digits with
  | [] => "0"
  | c :: rest =>
    let point := if rest.isEmpty then [] else '.' :: rest
    String.ofList (c :: point) ++ "e" ++ toString (d.exponent + rest.length)

end Decimal

/-- The shortest decimal of a double's absolute value. -/
def Binary.shortest (b : Binary) : Decimal :=
  if b.mantissa = 0 then ⟨0, 0⟩ else Decimal.shortest b.mantissa b.exponent

/-- The text of a double: the fewest digits that read back, written positionally. Zero keeps its
sign. -/
def floatText (x : Float) : String :=
  match Binary.ofFloat? x with
  | some b => (if b.negative then "-" else "") ++ b.shortest.positional
  | none => if x.isNaN then "NaN" else if x < 0 then "-inf" else "inf"

end Coroutine
