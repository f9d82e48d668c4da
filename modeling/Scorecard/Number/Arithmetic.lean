/-! The arithmetic behind formulas and series. Everything that computes takes
its numbers through this class, so the same definitions run on binary floating
point and can be read over exact numbers or over arbitrary operations. -/
namespace Scorecard

class Arithmetic (ν : Type) where
  /-- A count as a number. -/
  ofCount : Nat → ν
  /-- The decimal `digits / 10 ^ places`. -/
  ofDecimal : Nat → Nat → ν
  add : ν → ν → ν
  sub : ν → ν → ν
  mul : ν → ν → ν
  div : ν → ν → ν
  /-- The remainder of a truncated division, with the sign of the dividend. -/
  rem : ν → ν → ν
  pow : ν → ν → ν
  neg : ν → ν
  abs : ν → ν
  /-- The smaller of two numbers; what is not a number gives way to the other. -/
  least : ν → ν → ν
  /-- The larger of two numbers; what is not a number gives way to the other. -/
  greatest : ν → ν → ν
  isZero : ν → Bool
  atMost : ν → ν → Bool
  /-- The sum of nothing, to which adding a number gives that number. -/
  emptySum : ν
  /-- Above every number: the least of nothing. -/
  top : ν
  /-- Below every number: the greatest of nothing. -/
  bottom : ν

namespace Arithmetic

variable {ν : Type} [Arithmetic ν]

def zero : ν := ofCount 0

def one : ν := ofCount 1

/-- The values added from left to right. -/
def total (values : List ν) : ν :=
  values.foldl add emptySum

end Arithmetic

end Scorecard
