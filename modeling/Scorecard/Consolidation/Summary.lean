import Scorecard.Calendar.Notation
import Scorecard.Consolidation.Run
import Scorecard.Json.Printer

/-! Written results of a run: the series as JSON, and one line of counts. -/
namespace Scorecard.Consolidation

def Bucket.toJson (b : Bucket Float) : Json :=
  .object [
    (some "start", .ofText b.start.text),
    (some "end", .ofText b.last.text),
    (some "value", match b.value with | some x => .ofFloat x | none => .null)]

namespace Report

def toJson (r : Report Float) : Json :=
  .object [(some "series",
    .object (r.series.map fun (name, buckets) => (some name, .array (buckets.map Bucket.toJson))))]

def summary {ν : Type} (r : Report ν) : String :=
  s!"Consolidated {r.definitionCount} KPIs into {r.bucketCount} buckets " ++
    s!"({r.tally.evaluated} formulas evaluated, {r.tally.unresolved} unresolved, " ++
    s!"{r.tally.failed} errors)"

end Report

end Scorecard.Consolidation
