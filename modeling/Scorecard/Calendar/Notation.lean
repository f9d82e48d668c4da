import Scorecard.Calendar.Timestamp
import Scorecard.Decimal.Reading
import Scorecard.Text.Blank

/-! Written dates. Years 0 to 9999 have four digits, other years a sign and at
least four. A date is read by a pattern of fields; every number may follow blanks
and may be shorter than usual, and a year without a sign has four digits at most. -/
namespace Scorecard.Calendar

/-- Digits with zeros in front up to a width. -/
def padded (width n : Nat) : String :=
  let digits := toString n
  String.ofList (List.replicate (width - digits.length) '0') ++ digits

def yearText (year : Int) : String :=
  if 0 ≤ year ∧ year ≤ 9999 then padded 4 year.toNat
  else (if year < 0 then "-" else "+") ++ padded 4 year.natAbs

/-- The last digits of nanoseconds that are needed, as 3, 6 or 9 digits behind a point. -/
def fractionText (nano : Nat) : String :=
  if nano == 0 then ""
  else if nano % 1000000 == 0 then "." ++ padded 3 (nano / 1000000)
  else if nano % 1000 == 0 then "." ++ padded 6 (nano / 1000)
  else "." ++ padded 9 nano

def dateText (day : Int) : String :=
  let month := monthOf day
  yearText (month / 12) ++ "-" ++ padded 2 ((month % 12).toNat + 1) ++ "-" ++
    padded 2 ((day - monthStart month).toNat + 1)

/-- Hour, minute and second of a second of the day; a leap second repeats the
second before it with the number raised by one. -/
def clockText (secondOfDay : Nat) (leap : Bool) : String :=
  padded 2 (secondOfDay / 3600) ++ ":" ++ padded 2 (secondOfDay / 60 % 60) ++ ":" ++
    padded 2 (secondOfDay % 60 + if leap then 1 else 0)

namespace Timestamp

/-- The timestamp to the second. -/
def secondText (t : Timestamp) : String :=
  dateText t.day ++ "T" ++ clockText t.secondOfDay.toNat false

/-- The timestamp with its fraction of a second. -/
def text (t : Timestamp) : String :=
  t.secondText ++ fractionText t.nano

end Timestamp

/-- A timestamp as it was written; a leap second is the same instant as the
second before it, but comes after it. -/
structure Reading where
  time : Timestamp
  leap : Bool

namespace Reading

/-- The nanoseconds past the whole second, which for a leap second has already gone by. -/
def nano (r : Reading) : Nat :=
  r.time.nano + if r.leap then 1000000000 else 0

instance : LT Reading where
  lt a b := a.time.second < b.time.second ∨ (a.time.second = b.time.second ∧ a.nano < b.nano)

instance : LE Reading where
  le a b := a.time.second < b.time.second ∨ (a.time.second = b.time.second ∧ a.nano ≤ b.nano)

instance (a b : Reading) : Decidable (a ≤ b) :=
  inferInstanceAs (Decidable (a.time.second < b.time.second ∨
    (a.time.second = b.time.second ∧ a.nano ≤ b.nano)))

def isAfter (a b : Reading) : Bool :=
  b.time < a.time || (a.time = b.time && a.leap && !b.leap)

def text (r : Reading) : String :=
  dateText r.time.day ++ " " ++ clockText r.time.secondOfDay.toNat r.leap ++
    fractionText r.time.nano

end Reading

/-- The parts of a pattern. -/
inductive Field where
  | year
  | month
  | day
  | hour
  | minute
  | second
  /-- A point and digits, of which nine count; may be missing. -/
  | fraction
  | literal (c : Char)
  /-- Any number of blanks, none included. -/
  | blanks
  deriving DecidableEq, Repr

/-- The numbers read by a pattern; those without a field keep their defaults. -/
structure Parts where
  year : Int
  month : Nat
  day : Nat
  hour : Nat
  minute : Nat
  second : Nat
  nano : Nat

namespace Parts

def midnight : Parts := ⟨0, 1, 1, 0, 0, 0, 0⟩

def isValid (p : Parts) : Bool :=
  1 ≤ p.month && p.month ≤ 12 && 1 ≤ p.day &&
    p.day ≤ monthLength (12 * p.year + (p.month - 1 : Nat)) &&
    p.hour ≤ 23 && p.minute ≤ 59 && p.second ≤ 60

def secondCount (p : Parts) : Int :=
  86400 * (monthStart (12 * p.year + (p.month - 1 : Nat)) + (p.day - 1 : Nat)) +
    (3600 * p.hour + 60 * p.minute + min p.second 59 : Nat)

/-- The reading that the parts stand for, if there is such a date. -/
def reading? (p : Parts) : Option Reading :=
  if p.isValid then
    (Timestamp.at? p.secondCount p.nano).map fun time => ⟨time, p.second == 60⟩
  else none

end Parts

/-- A number of at least one and at most `width` digits; no bound without a width. -/
def readNumber (width : Option Nat) (text : List Char) : Option (Nat × List Char) :=
  let run := text.takeWhile Char.isDigit
  let digits := match width with
    | some width => run.take width
    | none => run
  if digits.isEmpty then none
  else some (Decimal.digitsValue digits, text.drop digits.length)

/-- A year; with a sign it may have any number of digits. -/
def readYear (text : List Char) : Option (Int × List Char) :=
  match text with
  | '-' :: rest => (readNumber none rest).map fun (n, rest) => (-(n : Int), rest)
  | '+' :: rest => (readNumber none rest).map fun (n, rest) => ((n : Int), rest)
  | _ => (readNumber (some 4) text).map fun (n, rest) => ((n : Int), rest)

/-- The nanoseconds of a fraction's digits. -/
def fractionNanos (digits : List Char) : Nat :=
  let counted := digits.take 9
  Decimal.digitsValue counted * Nat.pow 10 (9 - counted.length)

def Field.read (p : Parts) (text : List Char) : Field → Option (Parts × List Char)
  | year => (readYear (Text.dropBlanks text)).map fun (n, rest) => ({ p with year := n }, rest)
  | month => (twoDigits text).map fun (n, rest) => ({ p with month := n }, rest)
  | day => (twoDigits text).map fun (n, rest) => ({ p with day := n }, rest)
  | hour => (twoDigits text).map fun (n, rest) => ({ p with hour := n }, rest)
  | minute => (twoDigits text).map fun (n, rest) => ({ p with minute := n }, rest)
  | second => (twoDigits text).map fun (n, rest) => ({ p with second := n }, rest)
  | fraction =>
    match text with
    | '.' :: rest =>
      let digits := rest.takeWhile Char.isDigit
      if digits.isEmpty then none
      else some ({ p with nano := fractionNanos digits }, rest.dropWhile Char.isDigit)
    | _ => some (p, text)
  | literal c =>
    match text with
    | first :: rest => if first = c then some (p, rest) else none
    | [] => none
  | blanks => some (p, Text.dropBlanks text)
where
  twoDigits (text : List Char) : Option (Nat × List Char) :=
    readNumber (some 2) (Text.dropBlanks text)

abbrev Pattern := List Field

namespace Pattern

/-- Read a whole text; nothing may be left over. -/
def read? (pattern : Pattern) (text : String) : Option Reading :=
  go Parts.midnight pattern text.toList
where
  go (p : Parts) : Pattern → List Char → Option Reading
    | [], [] => p.reading?
    | [], _ :: _ => none
    | field :: fields, text =>
      match field.read p text with
      | some (p, rest) => go p fields rest
      | none => none

def date : Pattern := [.year, .literal '-', .month, .literal '-', .day]

def clock : Pattern := [.hour, .literal ':', .minute, .literal ':', .second]

/-- The form in data files: blanks may stand before every separator and at the
end, and the second may have a fraction. -/
def dataFile : Pattern :=
  [.year, .blanks, .literal '-', .month, .blanks, .literal '-', .day, .blanks, .literal 'T',
    .hour, .blanks, .literal ':', .minute, .blanks, .literal ':', .second, .fraction, .blanks]

/-- The forms in which a date may be given by hand, tried in this order. -/
def byHand : List Pattern :=
  [date ++ [.literal 'T'] ++ clock, date ++ [.blanks] ++ clock,
    date ++ [.literal 'T', .hour, .literal ':', .minute], date]

end Pattern

/-- A date given by hand. -/
def readDate? (text : String) : Option Reading :=
  Pattern.byHand.findSome? (·.read? text)

example : dateText (monthStart (12 * 2024 + 1) + 28) = "2024-02-29" := by cbv
example : yearText (-1) = "-0001" := by cbv
example : (readDate? "2024-02-30").isNone := by cbv

/-- A date of a data file; a leap second counts as the second before it. -/
def Timestamp.read? (text : String) : Option Timestamp :=
  (Pattern.dataFile.read? text).map Reading.time

end Scorecard.Calendar
