import Scorecard.Calendar.Timestamp
import Scorecard.Kpi.Target

/-! Definitions of key figures and the raw values observed for them. A figure is
either reduced from raw values or computed by a formula, and exactly the latter
have a formula text. -/
namespace Scorecard.Kpi

open Calendar (Frequency Timestamp)

structure Definition (ν : Type) where
  /-- The name that formulas quote. -/
  name : String
  frequency : Option Frequency
  reduction : Reduction
  formula : Option String
  target : Option (Target ν)
  trend : Option Trend

/-- A raw value; a missing weight counts as one. -/
structure Observation (ν : Type) where
  time : Timestamp
  value : ν
  weight : Option ν

inductive Flaw where
  | emptyName
  | missingFormula
  | unexpectedFormula
  deriving DecidableEq, Repr

def Flaw.message : Flaw → String
  | emptyName => "name must not be empty"
  | missingFormula => "formula consolidation requires formula text"
  | unexpectedFormula => "formula text requires formula consolidation"

/-- The message about a flawed definition. -/
def Flaw.report (flaw : Flaw) (name : String) : String :=
  s!"Invalid KPI '{name}': {flaw.message}"

namespace Definition

variable {ν : Type}

def isFormula (d : Definition ν) : Bool :=
  d.reduction = .formula

/-- The formula text; none is the same as an empty one. -/
def formulaText (d : Definition ν) : String :=
  d.formula.getD ""

/-- What is wrong with a definition, if anything is. A blank text is no text. -/
def flaw? (d : Definition ν) : Option Flaw :=
  if Text.isBlankText d.name then some .emptyName
  else match d.isFormula, Text.isBlankText d.formulaText with
    | true, true => some .missingFormula
    | false, false => some .unexpectedFormula
    | _, _ => none

end Definition

end Scorecard.Kpi
