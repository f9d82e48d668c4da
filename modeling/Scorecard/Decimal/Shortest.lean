import Scorecard.Number.Binary

/-! The shortest decimal that reads back. Every finite number owns an interval
of reals that round to it. On the grid of multiples of a power of ten only the
two neighbours of the number need a look: if any multiple lies in the interval,
one of them does. Grids are tried from coarse to fine, so the first hit has the
fewest digits, and of two hits the nearer is taken. -/
namespace Scorecard.Decimal

/-- The number `digits * 10 ^ exponent`. -/
structure Digits where
  digits : Nat
  exponent : Int

/-- What to do with a number halfway between two decimals. -/
inductive Tie where
  | up
  | even

/-- The interval of a number in units of a quarter of its last place; the ends
belong to it when the mantissa is even. -/
structure Interval where
  low : Nat
  middle : Nat
  high : Nat
  closed : Bool
  exponent : Int

/-- Just above a power of two the lower neighbour is half as far away. -/
def Interval.ofBinary (b : Binary) : Interval :=
  let middle := 4 * b.mantissa
  let narrow := b.mantissa == Nat.pow 2 52 && decide (-1074 < b.exponent)
  { low := if narrow then middle - 1 else middle - 2
    middle := middle
    high := middle + 2
    closed := b.mantissa % 2 == 0
    exponent := b.exponent - 2 }

/-- The multiple of `10 ^ power` that represents the interval's middle, if one does. -/
def Interval.onGrid? (tie : Tie) (i : Interval) (power : Int) : Option Nat :=
  let unit := Nat.pow 10 power.toNat * Nat.pow 2 (-i.exponent).toNat
  let scale := Nat.pow 10 (-power).toNat * Nat.pow 2 i.exponent.toNat
  let holds (d : Nat) : Bool :=
    let point := d * unit
    (i.low * scale < point && point < i.high * scale) ||
      (i.closed && (point == i.low * scale || point == i.high * scale))
  let value := i.middle * scale
  let below := value / unit
  match holds below, holds (below + 1) with
  | true, false => some below
  | false, true => some (below + 1)
  | false, false => none
  | true, true =>
    let doubled := 2 * value
    let midpoint := (2 * below + 1) * unit
    if doubled < midpoint then some below
    else if midpoint < doubled then some (below + 1)
    else match tie with
      | .up => some (below + 1)
      | .even => some (if below % 2 == 0 then below else below + 1)

/-- The first hit among `count` grids, each ten times finer than the one before. -/
def Interval.search (tie : Tie) (i : Interval) : (count : Nat) → (power : Int) → Option Digits
  | 0, _ => none
  | count + 1, power =>
    match i.onGrid? tie power with
    | some digits => some ⟨digits, power⟩
    | none => i.search tie count (power - 1)

/-- The shortest decimal of a positive number's magnitude. Seventeen digits
always suffice; the search starts at most two grids above the leading digit. -/
def shortest (tie : Tie) (b : Binary) : Digits :=
  let leading := ((b.mantissa.log2 : Int) + b.exponent) * 30103 / 100000 + 1
  match (Interval.ofBinary b).search tie 20 leading with
  | some digits => digits
  | none =>
    ⟨b.mantissa * Nat.pow 5 (-b.exponent).toNat * Nat.pow 2 b.exponent.toNat, min b.exponent 0⟩

end Scorecard.Decimal
