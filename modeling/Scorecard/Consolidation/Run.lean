import Scorecard.Consolidation.Error
import Scorecard.Consolidation.Grid
import Scorecard.Dependency.Order
import Scorecard.Formula.Source

/-! A run of consolidation. Definitions are checked and their formulas compiled;
the formulas are put in an order in which every series comes after those it
refers to; raw values are reduced onto the grid; then the formulas are evaluated
bucket by bucket over the series already there. -/
namespace Scorecard.Consolidation

open Calendar (Frequency Timestamp)
open Dependency (Graph)
open Formula (Context EvaluationError Program Registry referenceName)
open Kpi (Definition Observation)

structure Request (ν : Type) where
  definitions : List (Definition ν)
  /-- The raw values observed under a name, in the order in which they are added. -/
  values : String → List (Observation ν)
  start : Timestamp
  last : Timestamp
  frequency : Frequency
  /-- Whether a formula that fails for any reason but a missing value ends the run. -/
  strict : Bool

/-- One bucket of a series; `last` is its last whole second. -/
structure Bucket (ν : Type) where
  start : Timestamp
  last : Timestamp
  value : Option ν

/-- How the buckets of formulas came out. -/
structure Tally where
  evaluated : Nat
  unresolved : Nat
  failed : Nat
  deriving DecidableEq, Repr

structure Report (ν : Type) where
  /-- The series in ascending order of their names. -/
  series : List (String × List (Bucket ν))
  /-- The number of definitions. -/
  definitionCount : Nat
  tally : Tally

namespace Report

variable {ν : Type}

/-- The number of buckets of all series. -/
def bucketCount (r : Report ν) : Nat :=
  r.series.foldl (fun count (_, buckets) => count + buckets.length) 0

end Report

/-- The values computed so far, one for each bucket of the grid. -/
abbrev Table (ν : Type) := Std.TreeMap String (Array (Option ν))

/-- A definition with its program, which only a formula has. -/
structure Compiled (ν : Type) where
  definition : Definition ν
  program? : Option (Program ν)

variable {ν : Type}

/-- Every definition has to be sound, and no name may come twice. -/
def check : (seen : Std.TreeSet String) → List (Definition ν) → Except Error Unit
  | _, [] => .ok ()
  | seen, d :: rest =>
    match d.flaw? with
    | some flaw => .error (.invalidDefinition d.name flaw)
    | none =>
      if seen.contains d.name then .error (.duplicate d.name)
      else check (seen.insert d.name) rest

/-- What references stand for in one bucket: the values of the series in that bucket. -/
def Table.context (table : Table ν) (index : Nat) : Context ν := fun key => do
  let values ← table.get? (referenceName key)
  (← values[index]?)

variable [Arithmetic ν]

def compileOne (d : Definition ν) : Except Error (Compiled ν) :=
  if d.isFormula then
    match Formula.Source.ofText .standard d.formulaText >>= Formula.Source.compile with
    | .ok program => .ok ⟨d, some program⟩
    | .error cause => .error (.formula d.name cause)
  else .ok ⟨d, none⟩

namespace Compiled

/-- The names that a formula refers to, in order of first appearance. -/
def references (c : Compiled ν) : List String :=
  match c.program? with
  | some program => program.references.map referenceName
  | none => []

/-- Add a definition and what it depends on to a graph; it may only refer to known names. -/
def addTo (known : Std.TreeSet String) (g : Graph) (c : Compiled ν) : Except Error Graph :=
  c.references.foldlM (fun g reference =>
    if known.contains reference then .ok (g.addDependency reference c.definition.name)
    else .error (.unknownReference c.definition.name reference))
    (g.addName c.definition.name)

end Compiled

/-- The names in an order in which each comes after all that it refers to. -/
def evaluationOrder (compiled : List (Compiled ν)) : Except Error (List String) := do
  let known := Std.TreeSet.ofList (compiled.map (·.definition.name))
  let graph ← compiled.foldlM (Compiled.addTo known) Graph.empty
  graph.evaluationOrder.mapError .circular

/-- The series of all definitions that are reduced from raw values. -/
def reduceAll (grid : Grid) (values : String → List (Observation ν))
    (definitions : List (Definition ν)) : Except Error (Table ν) :=
  definitions.foldlM (fun table d =>
    if d.isFormula then .ok table
    else match grid.reduce? d.reduction (values d.name) with
      | some series => .ok (table.insert d.name series)
      | none => .error .dateOutOfRange) ∅

/-- A program's result in each of `size` buckets. -/
def evaluateBuckets (table : Table ν) (program : Program ν) (size : Nat) :
    List (Except EvaluationError ν) :=
  let registry := Registry.standard
  (List.range size).map fun index => program.evaluate (table.context index) registry

/-- The first failure that is more than a missing value. -/
def firstFailure? (results : List (Except EvaluationError ν)) : Option EvaluationError :=
  results.findSome? fun
    | .error e => if e.isRecoverable then none else some e
    | .ok _ => none

def Tally.count (tally : Tally) : Except EvaluationError ν → Tally
  | .ok _ => { tally with evaluated := tally.evaluated + 1 }
  | .error e =>
    if e.isRecoverable then { tally with unresolved := tally.unresolved + 1 }
    else { tally with failed := tally.failed + 1 }

/-- Compute the series of a formula. A bucket without a result has no value. -/
def evaluateFormula (strict : Bool) (size : Nat) (state : Table ν × Tally) (name : String)
    (program : Program ν) : Except Error (Table ν × Tally) :=
  let (table, tally) := state
  let results := evaluateBuckets table program size
  match strict, firstFailure? results with
  | true, some e => .error (.formula name (.evaluation e))
  | _, _ =>
    .ok (table.insert name (results.map Except.toOption).toArray,
      results.foldl Tally.count tally)

/-- Compute the series of all formulas in the given order of names. -/
def evaluateAll (strict : Bool) (size : Nat) (programs : Std.TreeMap String (Program ν))
    (order : List String) (table : Table ν) : Except Error (Table ν × Tally) :=
  order.foldlM (fun state name =>
    match programs.get? name with
    | some program => evaluateFormula strict size state name program
    | none => .ok state) (table, ⟨0, 0, 0⟩)

/-- The series of a table on a grid. Without a series no bucket end is needed. -/
def assemble (grid : Grid) (table : Table ν) : Except Error (List (String × List (Bucket ν))) :=
  if table.isEmpty then .ok []
  else match grid.ends? with
    | none => .error .dateOutOfRange
    | some ends =>
      let spans := grid.starts.toList.zip ends
      .ok (table.toList.map fun (name, values) =>
        (name, (spans.zip values.toList).map fun ((start, last), value) => ⟨start, last, value⟩))

/-- Consolidate raw values and formulas into series. -/
def run (r : Request ν) : Except Error (Report ν) := do
  let grid ← match Grid.covering? r.start r.last r.frequency with
    | some grid => pure grid
    | none => throw .dateOutOfRange
  check ∅ r.definitions
  let compiled ← r.definitions.mapM compileOne
  let order ← evaluationOrder compiled
  let programs := Std.TreeMap.ofList
    (compiled.filterMap fun c => c.program?.map fun program => (c.definition.name, program))
  let table ← reduceAll grid r.values r.definitions
  let (table, tally) ← evaluateAll r.strict grid.size programs order table
  return ⟨← assemble grid table, r.definitions.length, tally⟩

end Scorecard.Consolidation
