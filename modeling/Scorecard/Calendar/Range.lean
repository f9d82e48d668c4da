import Scorecard.Calendar.Bucket

/-! Ranges of dates in equal steps. Every item is counted from the start of the
range, so that a day of the month that was cut down once does not stay so. The
count is a 32-bit number, which bounds the items of a range. -/
namespace Scorecard.Calendar

/-- The dates from `start` to `last`, one bucket length apart. -/
structure Range where
  start : Timestamp
  last : Timestamp
  frequency : Frequency

/-- The number of counts there are. -/
def countBound : Nat := 2147483648

namespace Range

/-- The item at a count, if there is one. -/
def item? (r : Range) (index : Nat) : Option Timestamp :=
  match r.start.shift? r.frequency index with
  | some t => if t ≤ r.last then some t else none
  | none => none

/-- The items from `index` on, at most `count` of them, behind those found before. -/
def itemsFrom (r : Range) (found : List Timestamp) (index : Nat) : (count : Nat) → List Timestamp
  | 0 => found.reverse
  | count + 1 =>
    match r.item? index with
    | some t => r.itemsFrom (t :: found) (index + 1) count
    | none => found.reverse

/-- All items in ascending order. -/
def items (r : Range) : List Timestamp :=
  r.itemsFrom [] 0 countBound

end Range

end Scorecard.Calendar
