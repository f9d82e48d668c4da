/-! Frequencies of a series: how long its buckets are. Five of them have a fixed
length in seconds; the other three are whole numbers of months. -/
namespace Scorecard.Calendar

inductive Frequency where
  | year
  /-- Half a year, from January or from July. -/
  | semester
  | month
  /-- Seven days from a Monday. -/
  | week
  | day
  | hour
  | minute
  | second
  deriving DecidableEq, Repr

/-- The length of a bucket. -/
inductive Span where
  | seconds (count : Int)
  | months (count : Int)
  deriving DecidableEq, Repr

def Frequency.span : Frequency → Span
  | year => .months 12
  | semester => .months 6
  | month => .months 1
  | week => .seconds 604800
  | day => .seconds 86400
  | hour => .seconds 3600
  | minute => .seconds 60
  | second => .seconds 1

end Scorecard.Calendar
