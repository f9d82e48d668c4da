import Scorecard.Formula.Error
import Scorecard.Kpi.Definition

/-! What ends a consolidation without a result. -/
namespace Scorecard.Consolidation

open Formula (FormulaError)
open Kpi (Flaw)

inductive Error where
  | invalidDefinition (name : String) (flaw : Flaw)
  | duplicate (name : String)
  | formula (name : String) (cause : FormulaError)
  | unknownReference (name reference : String)
  /-- Each name depends on the next, and the last one on the first. -/
  | circular (names : List String)
  | dateOutOfRange
  deriving DecidableEq, Repr

namespace Error

def message : Error → String
  | invalidDefinition name flaw => flaw.report name
  | duplicate name => s!"Duplicate KPI: '{name}'"
  | formula name cause => s!"Formula error in KPI '{name}': {cause.message}"
  | unknownReference name reference => s!"KPI '{name}' references unknown KPI '{reference}'"
  | circular names => "Circular reference between KPIs: " ++ " -> ".intercalate names
  | dateOutOfRange => Calendar.outOfRangeMessage

/-- The message and those of the errors behind it, the outermost first. -/
def chain : Error → List String
  | e@(formula _ cause) => [e.message, cause.message, cause.cause]
  | e => [e.message]

end Error

end Scorecard.Consolidation
