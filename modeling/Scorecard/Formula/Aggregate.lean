import Scorecard.Formula.Function
import Scorecard.Number.Arithmetic

/-! Aggregates: the functions that reduce their arguments the way raw values of
a series are reduced, and the registry that formulas start from. -/
namespace Scorecard.Formula.Aggregate

variable {ν : Type} [Arithmetic ν]

/-- The sum from left to right. -/
def sum (values : List ν) : Except EvaluationError ν :=
  .ok (Arithmetic.total values)

def requireArguments (function : String) (values : List ν) : Except EvaluationError Unit :=
  if values.isEmpty then .error (.invalidArgument function "at least one argument is required")
  else .ok ()

def mean (values : List ν) : Except EvaluationError ν := do
  requireArguments "MEAN" values
  return Arithmetic.div (Arithmetic.total values) (Arithmetic.ofCount values.length)

def minimum (values : List ν) : Except EvaluationError ν := do
  requireArguments "MIN" values
  return values.foldl Arithmetic.least Arithmetic.top

def maximum (values : List ν) : Except EvaluationError ν := do
  requireArguments "MAX" values
  return values.foldl Arithmetic.greatest Arithmetic.bottom

/-- The sum of value times weight and the sum of the weights, over a list that
alternates between the two. -/
def weigh (sums : ν × ν) : List ν → ν × ν
  | value :: weight :: rest =>
    weigh (Arithmetic.add sums.1 (Arithmetic.mul value weight), Arithmetic.add sums.2 weight) rest
  | _ => sums

/-- The weighted mean of values and weights in turn. -/
def weighted (values : List ν) : Except EvaluationError ν := do
  requireArguments "WEIGHTED" values
  if values.length % 2 != 0 then
    .error (.invalidArgument "WEIGHTED"
      s!"expected value/weight pairs, got {values.length} arguments")
  else
    let (total, weights) := weigh (Arithmetic.zero, Arithmetic.zero) values
    if Arithmetic.isZero weights then .error .divisionByZero
    else .ok (Arithmetic.div total weights)

end Scorecard.Formula.Aggregate

namespace Scorecard.Formula

/-- The built-in functions. -/
def Registry.standard {ν : Type} [Arithmetic ν] : Registry ν :=
  [("SUM", Aggregate.sum), ("MEAN", Aggregate.mean), ("AVERAGE", Aggregate.mean),
    ("MIN", Aggregate.minimum), ("MAX", Aggregate.maximum), ("WEIGHTED", Aggregate.weighted)].foldl
    (fun r (name, run) => r.register name ⟨.variadic, run⟩) .empty

end Scorecard.Formula
