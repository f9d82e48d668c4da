import Scorecard.Formula.Conversion
import Scorecard.Formula.Evaluation
import Scorecard.Formula.Scanner

/-! Formulas as text. Compiling scans and converts the text under its limits. A
source keeps the program of its text once it has been compiled, and forgets it
when the text changes. -/
namespace Scorecard.Formula

/-- The program of a formula text. -/
def compile {ν : Type} [Arithmetic ν] (limits : Limits) (text : String) :
    Except FormulaError (Program ν) :=
  if limits.length < text.utf8ByteSize then
    .error (.parse (.tooLong text.utf8ByteSize limits.length))
  else
    match tokenize text with
    | .error fault => .error (.scan fault)
    | .ok tokens => (convert limits tokens).mapError .parse

/-- A formula's text with its limits, and its program if that is known. -/
structure Source (ν : Type) where
  text : String
  limits : Limits
  program? : Option (Program ν)

namespace Source

variable {ν : Type} [Arithmetic ν]

/-- The formula without a text. -/
def empty : Source ν := ⟨"", .standard, none⟩

/-- Replace the text, which must not be empty, and forget the program. -/
def setText (s : Source ν) (text : String) : Except FormulaError (Source ν) :=
  if text.isEmpty then .error (.parse .emptyInput)
  else .ok { s with text, program? := none }

def ofText (limits : Limits) (text : String) : Except FormulaError (Source ν) :=
  setText ⟨"", limits, none⟩ text

def isCompiled (s : Source ν) : Bool :=
  s.program?.isSome

/-- The program of the text, worked out anew. -/
def compile (s : Source ν) : Except FormulaError (Program ν) :=
  if s.text.isEmpty then .error (.parse .emptyInput)
  else Formula.compile s.limits s.text

/-- The program, worked out if it is not known; afterwards it is. -/
def program (s : Source ν) : Except FormulaError (Program ν) × Source ν :=
  match s.program? with
  | some program => (.ok program, s)
  | none =>
    match s.compile with
    | .ok program => (.ok program, { s with program? := some program })
    | .error e => (.error e, s)

/-- Evaluate the program, with the keys that were asked for. -/
def evaluate (s : Source ν) (context : Context ν) (registry : Registry ν) :
    Except FormulaError ν × List String × Source ν :=
  match s.program with
  | (.error e, s) => (.error e, [], s)
  | (.ok program, s) =>
    let outcome := program.trace context registry
    (outcome.result.mapError .evaluation, outcome.lookups, s)

end Source

end Scorecard.Formula
