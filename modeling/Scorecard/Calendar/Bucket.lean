import Scorecard.Calendar.Frequency
import Scorecard.Calendar.Timestamp

/-! Buckets of the time line. A bucket of a frequency starts at a multiple of its
length, counted in seconds or in months from the origin, and runs up to the start
of the next. Shifting by months keeps the day of the month as far as the month is
long enough. -/
namespace Scorecard.Calendar.Timestamp

/-- The day in the month `months` later, with the day of the month cut down to
the length of that month. -/
def shiftDay (day months : Int) : Int :=
  let month := monthOf day
  let ahead := month + months
  monthStart ahead + min (day - monthStart month) (monthLength ahead - 1)

/-- The timestamp `count` lengths of a bucket later, if it can be represented. -/
def shift? (t : Timestamp) (frequency : Frequency) (count : Int) : Option Timestamp :=
  match frequency.span with
  | .seconds length => at? (t.second + length * count) t.nano
  | .months length => at? (86400 * shiftDay t.day (length * count) + t.secondOfDay) t.nano

/-- The start of the bucket around a timestamp. -/
def roundDown? (t : Timestamp) (frequency : Frequency) : Option Timestamp :=
  match frequency.span with
  | .seconds length => at? (t.second - t.second % length) 0
  | .months length =>
    let month := monthOf t.day
    at? (86400 * monthStart (month - month % length)) 0

/-- The last whole second of the bucket around a timestamp. -/
def roundUp? (t : Timestamp) (frequency : Frequency) : Option Timestamp := do
  let start ← t.roundDown? frequency
  let next ← start.shift? frequency 1
  at? (next.second - 1) next.nano

end Scorecard.Calendar.Timestamp
