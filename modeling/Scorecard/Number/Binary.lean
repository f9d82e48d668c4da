import Scorecard.Number.Arithmetic

/-! Binary floating point. A finite number is a whole mantissa times a power of
two, which makes the remainder of a division exact integer work. The sum of
nothing is the negative zero: it is the one number that adds to any other, the
zeros included, without a trace. -/
namespace Scorecard

/-- The number `mantissa * 2 ^ exponent`, negated if so marked. -/
structure Binary where
  negative : Bool
  mantissa : Nat
  exponent : Int

namespace Binary

/-- The parts of a finite number. -/
def ofFloat (x : Float) : Binary :=
  let bits : Nat := x.toBits.toNat
  let fraction : Nat := bits % Nat.pow 2 52
  let biased : Nat := bits / Nat.pow 2 52 % Nat.pow 2 11
  let negative := bits / Nat.pow 2 63 == 1
  if biased == 0 then ⟨negative, fraction, -1074⟩
  else ⟨negative, Nat.pow 2 52 + fraction, (biased : Int) - 1075⟩

/-- The nearest floating-point number. A negative power of two is written as
a power of five over the same power of ten. -/
def toFloat (b : Binary) : Float :=
  let magnitude :=
    if 0 ≤ b.exponent then Float.ofScientific (b.mantissa * Nat.pow 2 b.exponent.toNat) false 0
    else Float.ofScientific (b.mantissa * Nat.pow 5 b.exponent.natAbs) true b.exponent.natAbs
  if b.negative then -magnitude else magnitude

/-- The exact remainder of the truncated division, for a divisor that is not zero. -/
def remainder (a b : Binary) : Binary :=
  let exponent := min a.exponent b.exponent
  let dividend := a.mantissa * Nat.pow 2 (a.exponent - exponent).toNat
  let divisor := b.mantissa * Nat.pow 2 (b.exponent - exponent).toNat
  ⟨a.negative, dividend % divisor, exponent⟩

/-- About the power of ten of a number's leading digit, at 0.30103 digits to the bit. -/
def leadingPower (n : Nat) : Int :=
  (n.log2 : Int) * 30103 / 100000

/-- The number nearest to `digits * 10 ^ power`. Sizes far outside the range of
the format are settled without computing the power. -/
def nearest (digits : Nat) (power : Int) : Float :=
  let size : Int := leadingPower digits + power
  if digits == 0 || size < -400 then 0
  else if 400 < size then 1 / 0
  else if 0 ≤ power then Float.ofScientific digits false power.toNat
  else Float.ofScientific digits true power.natAbs

/-- The remainder of two numbers. An infinite divisor keeps the dividend whole. -/
def rem (x y : Float) : Float :=
  if !x.isFinite || y.isNaN || y == 0 then 0 / 0
  else if !y.isFinite then x
  else (remainder (ofFloat x) (ofFloat y)).toFloat

/-- The smaller of two numbers, and of two equal ones the second: the zeros are
equal, so their order decides between them. -/
def least (x y : Float) : Float :=
  if x.isNaN then y else if y ≤ x then y else x

/-- The larger of two numbers, and of two equal ones the second. -/
def greatest (x y : Float) : Float :=
  if x.isNaN then y else if x ≤ y then y else x

end Binary

instance : Arithmetic Float where
  ofCount n := Float.ofNat n
  ofDecimal digits places := Binary.nearest digits (-places)
  add := Float.add
  sub := Float.sub
  mul := Float.mul
  div := Float.div
  rem := Binary.rem
  pow := Float.pow
  neg := Float.neg
  abs := Float.abs
  least := Binary.least
  greatest := Binary.greatest
  isZero x := x == 0
  atMost x y := x ≤ y
  emptySum := -0
  top := 1 / 0
  bottom := -1 / 0

end Scorecard
