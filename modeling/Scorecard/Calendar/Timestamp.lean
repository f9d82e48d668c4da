import Scorecard.Calendar.Day

/-! Timestamps without a zone: a whole second counted from the start of Monday,
3 January of the year 0, and the nanoseconds past it. The years -262143 to 262142
can be represented. -/
namespace Scorecard.Calendar

/-- The first second that can be represented. -/
def firstSecond : Int := 86400 * yearStart (-262143)

/-- The first second past those that can be represented. -/
def endSecond : Int := 86400 * yearStart 262143

/-- What is said of a date that cannot be represented. -/
def outOfRangeMessage : String := "Date out of range"

structure Timestamp where
  second : Int
  nano : Nat
  first_le : firstSecond ≤ second
  lt_end : second < endSecond
  nano_lt : nano < 1000000000
  deriving DecidableEq

namespace Timestamp

/-- The timestamp at a second, if it can be represented. -/
def at? (second : Int) (nano : Nat) : Option Timestamp :=
  if h : firstSecond ≤ second ∧ second < endSecond ∧ nano < 1000000000 then
    some ⟨second, nano, h.1, h.2.1, h.2.2⟩
  else none

def day (t : Timestamp) : Int := t.second / 86400

def secondOfDay (t : Timestamp) : Int := t.second % 86400

instance : LT Timestamp where
  lt a b := a.second < b.second ∨ (a.second = b.second ∧ a.nano < b.nano)

instance : LE Timestamp where
  le a b := a.second < b.second ∨ (a.second = b.second ∧ a.nano ≤ b.nano)

instance (a b : Timestamp) : Decidable (a < b) :=
  inferInstanceAs (Decidable (a.second < b.second ∨ (a.second = b.second ∧ a.nano < b.nano)))

instance (a b : Timestamp) : Decidable (a ≤ b) :=
  inferInstanceAs (Decidable (a.second < b.second ∨ (a.second = b.second ∧ a.nano ≤ b.nano)))

end Timestamp

end Scorecard.Calendar
