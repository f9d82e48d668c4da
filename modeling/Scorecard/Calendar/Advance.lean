import Scorecard.Calendar.Bucket
import Scorecard.Calendar.Notation

/-! Moving along the time line in numbers of a fixed width. Counts have 32 bits, durations are
counted in seconds of 64 bits, and months are counted without a sign. A product of months that
does not fit leads nowhere; a product of seconds that does not fit, or a duration beyond the
bounds of durations, is a fault of the calculation. On a time line there is no leap second but
the one that a reading is in. -/
namespace Scorecard.Calendar

/-- What breaks off a calculation in numbers of a fixed width. -/
inductive WidthFault where
  | product
  | duration
  deriving DecidableEq, Repr

/-- A number of 32 bits, if it fits. -/
def narrow? (n : Int) : Option Int32 :=
  if -2147483648 ≤ n ∧ n ≤ 2147483647 then some (Int32.ofInt n) else none

/-- A product of 64 bits, which has to fit. -/
def product (a b : Int64) : Except WidthFault Int64 :=
  let n := a.toInt * b.toInt
  if -9223372036854775808 ≤ n ∧ n ≤ 9223372036854775807 then .ok (Int64.ofInt n)
  else .error .product

/-- The size of a number without its sign; the smallest number has one too. -/
def magnitude (n : Int32) : UInt32 :=
  UInt32.ofNat n.toInt.natAbs

/-- A duration in whole seconds. Its milliseconds fit into 64 bits. -/
structure Duration where
  seconds : Int64
  bounded : seconds.toInt.natAbs * 1000 ≤ 9223372036854775807

namespace Duration

def ofSeconds (seconds : Int64) : Except WidthFault Duration :=
  if h : seconds.toInt.natAbs * 1000 ≤ 9223372036854775807 then .ok ⟨seconds, h⟩
  else .error .duration

/-- As many times a number of seconds. -/
def ofUnits (unit count : Int64) : Except WidthFault Duration := do
  ofSeconds (← product count unit)

end Duration

namespace Reading

/-- The reading some seconds later, or earlier, if it can be represented. Forwards a leap second
is left like the second before it, and backwards like the one behind it. -/
def addSeconds? (r : Reading) (seconds : Int) : Option Reading :=
  if r.leap ∧ seconds = 0 then some r
  else
    let second := r.time.second + if r.leap ∧ seconds < 0 then 1 else 0
    (Timestamp.at? (second + seconds) r.time.nano).map fun time => ⟨time, false⟩

/-- The reading some months later, or earlier, at the same time of the day, if it can be
represented. -/
def addMonths? (r : Reading) (months : Int) : Option Reading :=
  (Timestamp.at? (86400 * Timestamp.shiftDay r.time.day months + r.time.secondOfDay)
    r.time.nano).map fun time => ⟨time, r.leap⟩

/-- Months are added or taken away by their number without a sign. -/
def moveMonths? (r : Reading) (months : Int32) : Option Reading :=
  if 0 ≤ months then r.addMonths? (magnitude months).toNat
  else r.addMonths? (-(magnitude months).toNat)

/-- The reading `count` lengths of a bucket later, if it can be represented. -/
def advance (r : Reading) (frequency : Frequency) (count : Int32) :
    Except WidthFault (Option Reading) :=
  let wide := count.toInt64
  match frequency with
  | .year => .ok ((narrow? (count.toInt * 12)).bind r.moveMonths?)
  | .semester => .ok ((narrow? (count.toInt * 6)).bind r.moveMonths?)
  | .month => .ok (r.moveMonths? count)
  | .week => do return r.addSeconds? (← Duration.ofUnits 86400 (← product wide 7)).seconds.toInt
  | .day => do return r.addSeconds? (← Duration.ofUnits 86400 wide).seconds.toInt
  | .hour => do return r.addSeconds? (← Duration.ofUnits 3600 wide).seconds.toInt
  | .minute => do return r.addSeconds? (← Duration.ofUnits 60 wide).seconds.toInt
  | .second => do return r.addSeconds? (← Duration.ofSeconds wide).seconds.toInt

end Reading

/-- The dates from `start` to `last`, one bucket length apart, as they are read one by one: the
count of the next date is kept, or `none` after the end. -/
structure Walk where
  start : Reading
  last : Reading
  frequency : Frequency
  index? : Option Int32

namespace Walk

def begin (start last : Reading) (frequency : Frequency) : Walk :=
  ⟨start, last, frequency, some 0⟩

/-- The next date, counted from the start, and the walk behind it. -/
def next (w : Walk) : Except WidthFault (Option Reading × Walk) :=
  match w.index? with
  | none => .ok (none, w)
  | some index => do
    let found ← w.start.advance w.frequency index
    match found.filter (· ≤ w.last) with
    | some r => return (some r, { w with index? := narrow? (index.toInt + 1) })
    | none => return (none, { w with index? := none })

end Walk

end Scorecard.Calendar
