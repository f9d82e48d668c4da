import Scorecard.Kpi.Definition

/-! The running reduction of the values that fall into one bucket. -/
namespace Scorecard.Consolidation

open Kpi (Observation Reduction)

structure Accumulator (ν : Type) where
  count : Nat
  sum : ν
  weightedSum : ν
  weights : ν
  least : ν
  greatest : ν

namespace Accumulator

variable {ν : Type} [Arithmetic ν]

def empty : Accumulator ν :=
  ⟨0, Arithmetic.zero, Arithmetic.zero, Arithmetic.zero, Arithmetic.zero, Arithmetic.zero⟩

/-- Take in a value. The first one is the least and the greatest so far. -/
def add (a : Accumulator ν) (o : Observation ν) : Accumulator ν :=
  let weight := o.weight.getD Arithmetic.one
  { count := a.count + 1
    sum := Arithmetic.add a.sum o.value
    weightedSum := Arithmetic.add a.weightedSum (Arithmetic.mul o.value weight)
    weights := Arithmetic.add a.weights weight
    least := if a.count = 0 then o.value else Arithmetic.least a.least o.value
    greatest := if a.count = 0 then o.value else Arithmetic.greatest a.greatest o.value }

/-- The reduced value; there is none without values, nor with weights of total zero. -/
def finish (a : Accumulator ν) (reduction : Reduction) : Option ν :=
  if a.count = 0 then none
  else match reduction with
    | .mean => some (Arithmetic.div a.sum (Arithmetic.ofCount a.count))
    | .weighted =>
      if Arithmetic.isZero a.weights then none else some (Arithmetic.div a.weightedSum a.weights)
    | .sum => some a.sum
    | .min => some a.least
    | .max => some a.greatest
    | .formula => none

end Accumulator

end Scorecard.Consolidation
