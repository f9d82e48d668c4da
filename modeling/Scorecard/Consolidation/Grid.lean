import Scorecard.Calendar.Range
import Scorecard.Consolidation.Accumulator

/-! The buckets that all series of a run share, and raw values reduced onto them.
A value belongs to the bucket that its time rounds down to; the starts ascend, so
halving finds it. -/
namespace Scorecard.Consolidation

open Calendar (Frequency Range Timestamp)
open Kpi (Observation Reduction)

/-- The starts of the buckets in ascending order. -/
structure Grid where
  frequency : Frequency
  starts : Array Timestamp

namespace Grid

/-- The buckets that start at or before `last`, from the one around `start` on. -/
def covering? (start last : Timestamp) (frequency : Frequency) : Option Grid :=
  (start.roundDown? frequency).map fun first =>
    ⟨frequency, (Range.mk first last frequency).items.toArray⟩

/-- The number of buckets. -/
def size (g : Grid) : Nat :=
  g.starts.size

/-- The place of a start among those from `low` up to `high`. -/
def search (starts : Array Timestamp) (t : Timestamp) (low high : Nat) : Option Nat :=
  if low < high then
    let middle := (low + high) / 2
    match starts[middle]? with
    | none => none
    | some s =>
      if s = t then some middle
      else if s < t then search starts t (middle + 1) high
      else search starts t low middle
  else none
termination_by high - low

/-- The bucket that starts at a timestamp. -/
def index? (g : Grid) (t : Timestamp) : Option Nat :=
  search g.starts t 0 g.size

variable {ν : Type} [Arithmetic ν]

/-- Add a value to its bucket, if the grid has that bucket; `none` if the start of
the bucket cannot be represented. -/
def collect? (g : Grid) (buckets : Array (Accumulator ν)) (o : Observation ν) :
    Option (Array (Accumulator ν)) :=
  (o.time.roundDown? g.frequency).map fun start =>
    match g.index? start with
    | some index => buckets.modify index (·.add o)
    | none => buckets

/-- The reduced value of every bucket. -/
def reduce? (g : Grid) (reduction : Reduction) (raw : List (Observation ν)) :
    Option (Array (Option ν)) :=
  (raw.foldlM g.collect? (Array.replicate g.size Accumulator.empty)).map fun buckets =>
    buckets.map (·.finish reduction)

/-- The last whole second of every bucket. -/
def ends? (g : Grid) : Option (List Timestamp) :=
  g.starts.toList.mapM (·.roundUp? g.frequency)

end Grid

end Scorecard.Consolidation
