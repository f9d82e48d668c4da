import Scorecard.Kpi.Vocabulary
import Scorecard.Number.Arithmetic

/-! Targets of key figures. A value may fall short of the target by a tolerance,
in the direction of the trend or, without a trend, on either side. -/
namespace Scorecard.Kpi

structure Margin (ν : Type) where
  kind : MarginKind
  value : ν

structure Target (ν : Type) where
  kind : TargetKind
  /-- The target itself; not used for the value of another series. -/
  value : ν
  margin : Option (Margin ν)

namespace Target

variable {ν : Type} [Arithmetic ν]

/-- How far a value may be from a target in effect. `margin` is the value of the
series that a margin refers to. -/
def tolerance (t : Target ν) (target : ν) (margin : Option ν) : ν :=
  Arithmetic.abs <| match t.margin with
    | none => Arithmetic.zero
    | some ⟨.constant, value⟩ => value
    | some ⟨.percentage, value⟩ =>
      Arithmetic.div (Arithmetic.mul (Arithmetic.abs target) value) (Arithmetic.ofCount 100)
    | some ⟨.kpi, _⟩ => margin.getD Arithmetic.zero

/-- Whether a value meets the target in effect. -/
def isMet (t : Target ν) (value : ν) (trend : Option Trend) (target : ν) (margin : Option ν) :
    Bool :=
  let tolerance := t.tolerance target margin
  match trend with
  | some .up => Arithmetic.atMost (Arithmetic.sub target tolerance) value
  | some .down => Arithmetic.atMost value (Arithmetic.add target tolerance)
  | none => Arithmetic.atMost (Arithmetic.abs (Arithmetic.sub value target)) tolerance

end Target

end Scorecard.Kpi
