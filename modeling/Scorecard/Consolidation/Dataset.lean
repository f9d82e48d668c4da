import Std.Data.TreeMap
import Scorecard.Calendar.Notation
import Scorecard.Json.Record
import Scorecard.Kpi.Definition

/-! Data files: definitions, and the raw values observed under each name. -/
namespace Scorecard.Consolidation

open Calendar (Timestamp)
open Kpi

structure Dataset where
  definitions : List (Definition Float)
  /-- Raw values by name; of two entries with one name the later counts. -/
  values : List (String × List (Observation Float))

namespace Dataset

def member? {α : Type} (v : Vocabulary α) (j : Json) : Option α :=
  j.word?.bind v.ofExactWord?

def margin? (j : Json) : Option (Margin Float) := do
  match ← j.record? ["kind", "value"] with
  | [kind, value] =>
    return ⟨← Json.required? (member? marginKinds) kind, ← Json.required? Json.float? value⟩
  | _ => none

def target? (j : Json) : Option (Target Float) := do
  match ← j.record? ["kind", "value", "margin"] with
  | [kind, value, margin] =>
    return ⟨← Json.required? (member? targetKinds) kind, ← Json.required? Json.float? value,
      ← Json.optional? margin? margin⟩
  | _ => none

def definition? (j : Json) : Option (Definition Float) := do
  match ← j.record? ["name", "frequency", "consolidation", "formula", "target", "trend"] with
  | [name, frequency, consolidation, formula, target, trend] =>
    return {
      name := ← Json.required? Json.text? name
      frequency := ← Json.optional? (member? frequencies) frequency
      reduction := ← Json.required? (member? reductions) consolidation
      formula := ← Json.optional? Json.text? formula
      target := ← Json.optional? target? target
      trend := ← Json.optional? (member? trends) trend }
  | _ => none

def observation? (j : Json) : Option (Observation Float) := do
  match ← j.record? ["date", "value", "weight"] with
  | [date, value, weight] =>
    let text ← Json.required? Json.text? date
    return ⟨← Timestamp.read? text, ← Json.required? Json.float? value,
      ← Json.optional? Json.float? weight⟩
  | _ => none

def list? {α : Type} (read : Json → Option α) (j : Json) : Option (List α) := do
  (← j.items?).mapM read

/-- The raw values of all names; the field may be missing. -/
def values? : Option Json → Option (List (String × List (Observation Float)))
  | none => some []
  | some (.object fields) => fields.mapM fun (name, list) => do
    return (← name, ← list? observation? list)
  | some _ => none

def ofJson? (j : Json) : Option Dataset := do
  match ← j.record? ["kpis", "values"] with
  | [definitions, values] =>
    return ⟨← Json.required? (list? definition?) definitions, ← values? values⟩
  | _ => none

/-- The raw values of a name. -/
def valuesOf (d : Dataset) : String → List (Observation Float) :=
  let table := Std.TreeMap.ofList d.values
  fun name => (table.get? name).getD []

end Dataset

end Scorecard.Consolidation
