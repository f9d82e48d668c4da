import Scorecard.Calendar.Notation
import Scorecard.Decimal.Reading
import Scorecard.Kpi.Vocabulary

/-! Values given on the command line, and what is said of texts that are none. -/
namespace Scorecard.CommandLine

open Calendar (Frequency)

inductive Value where
  | text (text : String)
  /-- A value for a reference; the name has no quotes. -/
  | reference (name : String) (value : Float)
  | date (date : Calendar.Reading)
  | frequency (frequency : Frequency)
  | count (count : Nat)

/-- A text without the quotes at either end. -/
def stripQuotes (text : String) : String :=
  let front := text.toList.dropWhile (· == '"')
  String.ofList (front.reverse.dropWhile (· == '"')).reverse

/-- A reference is written as a name, quoted or not, an equals sign and a number.
The first equals sign is the one that counts. -/
def readReference (text : String) : Except String (String × Float) :=
  let name := text.toList.takeWhile (· != '=')
  match text.toList.dropWhile (· != '=') with
  | [] => .error s!"expected NAME=VALUE, got '{text}'"
  | _ :: rest =>
    let number := String.ofList rest
    match Decimal.read? (Text.trim number) with
    | some value => .ok (stripQuotes (Text.trim (String.ofList name)), value)
    | none => .error s!"invalid number '{number}'"

def readDate (text : String) : Except String Calendar.Reading :=
  match Calendar.readDate? text with
  | some date => .ok date
  | none => .error s!"invalid date '{text}'"

def readFrequency (text : String) : Except String Frequency :=
  (Kpi.frequencies.ofWord text).mapError (·.message)

/-- The digits of a count from the first on; a count has to fit into 64 bits. -/
def readDigits (n : Nat) : List Char → Except String Nat
  | [] => .ok n
  | c :: rest =>
    if !c.isDigit then .error "invalid digit found in string"
    else
      let next := 10 * n + (c.toNat - '0'.toNat)
      if next < Decimal.wordBound then readDigits next rest
      else .error "number too large to fit in target type"

/-- A count may have a plus sign. -/
def readCount (text : String) : Except String Nat :=
  match text.toList with
  | [] => .error "cannot parse integer from empty string"
  | ['+'] => .error "invalid digit found in string"
  | '+' :: digits => readDigits 0 digits
  | digits => readDigits 0 digits

end Scorecard.CommandLine
