import Scorecard.Calendar.Range
import Scorecard.CommandLine.Command
import Scorecard.CommandLine.Outcome
import Scorecard.Consolidation.Dataset
import Scorecard.Consolidation.Summary
import Scorecard.Json.Reader

/-! Running commands. Only consolidation needs a file; its contents, or why there
are none, are passed in. -/
namespace Scorecard.CommandLine

open Calendar (Frequency Range)
open Consolidation (Dataset)
open Formula (Context FormulaError Limits Program Registry)

def compile (expression : String) : Except FormulaError (Program Float) :=
  Formula.compile Limits.standard expression

/-- What is said when an expression does not compile. -/
def compileFailure (expression : String) (e : FormulaError) : Outcome :=
  .failed s!"Failed to compile '{expression}'" [e.message, e.cause]

def showProgram (expression : String) : Outcome :=
  match compile expression with
  | .error e => compileFailure expression e
  | .ok program =>
    let counts := ", ".intercalate (program.arities.map toString)
    let arities := if program.arities.isEmpty then "" else s!"arities: [{counts}]\n"
    .succeeded (program.text ++ "\n" ++ arities) ""

/-- The context in which each quoted name has the value given for it last. -/
def contextOf (references : List (String × Float)) : Context Float := fun key =>
  (references.reverse.find? fun (name, _) => "\"" ++ name ++ "\"" == key).map (·.2)

def showValue (expression : String) (references : List (String × Float)) : Outcome :=
  match compile expression with
  | .error e => compileFailure expression e
  | .ok program =>
    match program.evaluate (contextOf references) Registry.standard with
    | .ok value => .succeeded (Decimal.plainText value ++ "\n") ""
    | .error e => .failed s!"Failed to evaluate '{expression}'" [e.message]

def showRange (start last : Calendar.Reading) (frequency : Frequency) : Outcome :=
  match start.time.roundDown? frequency with
  | none => .failed "Start date out of range" [Calendar.outOfRangeMessage]
  | some first =>
    let lines := (Range.mk first last.time frequency).items
    .succeeded (lines.foldl (fun out t => out ++ t.secondText ++ "\n") "") ""

/-- The request of a data file. -/
def requestOf (d : Dataset) (start last : Calendar.Reading) (frequency : Frequency)
    (strict : Bool) : Consolidation.Request Float :=
  ⟨d.definitions, d.valuesOf, start.time, last.time, frequency, strict⟩

def showSeries (path : String) (start last : Calendar.Reading) (frequency : Frequency)
    (strict : Bool) (contents : Except String String) : Outcome :=
  if start.isAfter last then
    .failed s!"Start {start.text} is after end {last.text}" []
  else
    match contents with
    | .error reason => .failed s!"Failed to read '{path}'" [reason]
    | .ok text =>
      match (Json.read? text).bind Dataset.ofJson? with
      | none => ⟨1, "", s!"Error: Failed to parse '{path}'"⟩
      | some dataset =>
        match Consolidation.run (requestOf dataset start last frequency strict) with
        | .error e => .failed "Consolidation failed" e.chain
        | .ok report => .succeeded (report.toJson.pretty ++ "\n") (report.summary ++ "\n")

namespace Command

/-- The file that a command reads. -/
def path? : Command → Option String
  | consolidate path .. => some path
  | _ => none

/-- Run a command on the contents of its file. -/
def run (contents : Except String String) : Command → Outcome
  | compile expression => showProgram expression
  | evaluate expression references => showValue expression references
  | range start last frequency => showRange start last frequency
  | consolidate path start last frequency strict =>
    showSeries path start last frequency strict contents

end Command

end Scorecard.CommandLine
