import Scorecard.Decimal.Layout
import Scorecard.Decimal.Reading

/-! JSON values and the numbers written in them. Numbers are kept as written and
get a value only when one is asked for. The value takes the digits that fit into
64 bits and scales them by a power of ten in floating point, which can be a last
place away from the nearest number. -/
namespace Scorecard

inductive Json where
  | null
  | bool (value : Bool)
  | number (literal : String)
  /-- `none` if an escape in the string is half of a surrogate pair. -/
  | string (text : Option String)
  | array (items : List Json)
  | object (fields : List (Option String × Json))

namespace Json

/-- The parts of a number as written. -/
structure Numeral where
  negative : Bool
  whole : List Char
  fraction : List Char
  power : Int

/-- Split digits off the front; there has to be one. -/
def takeDigits? (text : List Char) : Option (List Char × List Char) :=
  match text.takeWhile Char.isDigit with
  | [] => none
  | digits => some (digits, text.dropWhile Char.isDigit)

/-- The part behind the point, if there is a point. -/
def takeFraction? : List Char → Option (List Char × List Char)
  | '.' :: rest => takeDigits? rest
  | rest => some ([], rest)

/-- The power of ten behind an `e`, if there is one. -/
def takePower? (text : List Char) : Option (Int × List Char) :=
  match text with
  | [] => some (0, [])
  | c :: rest =>
    if c == 'e' || c == 'E' then do
      let (negative, rest) := Decimal.takeSign rest
      let (digits, rest) ← takeDigits? rest
      let power : Int := Decimal.digitsValue digits
      return (if negative then -power else power, rest)
    else some (0, text)

/-- A number at the front of a text. Zero is the only one to start with a zero. -/
def takeNumeral? (text : List Char) : Option (Numeral × List Char) := do
  let (negative, text) := match text with
    | '-' :: rest => (true, rest)
    | _ => (false, text)
  let (whole, rest) ← takeDigits? text
  if whole.head? == some '0' && whole.length != 1 then none
  else do
    let (fraction, rest) ← takeFraction? rest
    let (power, rest) ← takePower? rest
    return (⟨negative, whole, fraction, power⟩, rest)

/-- Append digits to a number until one no longer fits into 64 bits; the digits
from that one on are left. -/
def fitDigits (n : Nat) : List Char → Nat × List Char
  | [] => (n, [])
  | c :: rest =>
    let next := 10 * n + (c.toNat - '0'.toNat)
    if next < Decimal.wordBound then fitDigits next rest else (n, c :: rest)

/-- Divide by a power of ten too large to be a number itself, in steps of `10 ^ 308`. -/
def scaleDown (x : Float) (rest : Nat) : (steps : Nat) → Float
  | 0 => x / Float.ofScientific 1 false rest
  | steps + 1 =>
    if x == 0 then x else scaleDown (x / Float.ofScientific 1 false 308) rest steps

/-- `x * 10 ^ power`; `none` if that is out of range. -/
def scale? (x : Float) (power : Int) : Option Float :=
  if power < 0 then
    let size := power.natAbs
    let steps := (size - 1) / 308
    some (scaleDown x (size - 308 * steps) steps)
  else if power ≤ 308 then
    let scaled := x * Float.ofScientific 1 false power.toNat
    if scaled.isInf then none else some scaled
  else if x == 0 then some x
  else none

namespace Numeral

/-- The value of a number, unless it is out of range. -/
def value? (n : Numeral) : Option Float :=
  let (significand, dropped) := fitDigits 0 n.whole
  let (significand, ignored) := fitDigits significand n.fraction
  let power : Int := dropped.length - (n.fraction.length - ignored.length : Nat) + n.power
  let magnitude :=
    if 2147483647 < n.power.natAbs then
      if significand == 0 || n.power < 0 then some 0 else none
    else scale? (Float.ofNat significand) power
  magnitude.map fun x => if n.negative then -x else x

end Numeral

/-- The value of a number. -/
def float? : Json → Option Float
  | number literal => (takeNumeral? literal.toList).bind (·.1.value?)
  | _ => none

def text? : Json → Option String
  | string text => text
  | _ => none

def items? : Json → Option (List Json)
  | array items => some items
  | _ => none

/-- A number in the form of data files; what is not finite is null. -/
def ofFloat (x : Float) : Json :=
  if x.isFinite then .number (Decimal.Layout.data.render x) else .null

def ofText (text : String) : Json :=
  .string (some text)

end Json

end Scorecard
