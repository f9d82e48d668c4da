import Scorecard.Number.Binary

/-! Reading decimal text. A number is an optional sign, digits with at most one
point among or around them, and an optional exponent; `inf`, `infinity` and
`nan` are read in any case. The value is the nearest floating-point number. -/
namespace Scorecard.Decimal

/-- The value of a run of digits. -/
def digitsValue (digits : List Char) : Nat :=
  digits.foldl (fun n c => 10 * n + (c.toNat - '0'.toNat)) 0

/-- The first number that does not fit into 64 bits. -/
def wordBound : Nat := 18446744073709551616

/-- A sign, if one is there, and what follows it. -/
def takeSign : List Char → Bool × List Char
  | '-' :: rest => (true, rest)
  | '+' :: rest => (false, rest)
  | rest => (false, rest)

/-- The power of ten of an exponent part, which may be missing. -/
def exponent? : List Char → Option Int
  | [] => some 0
  | c :: rest =>
    if c == 'e' || c == 'E' then
      let (negative, digits) := takeSign rest
      if digits.isEmpty || !digits.all Char.isDigit then none
      else
        let power : Int := digitsValue digits
        some (if negative then -power else power)
    else none

/-- A number without its sign. -/
def magnitude? (text : List Char) : Option Float :=
  let whole := text.takeWhile Char.isDigit
  let rest := text.dropWhile Char.isDigit
  let (fraction, tail) := match rest with
    | '.' :: after => (after.takeWhile Char.isDigit, after.dropWhile Char.isDigit)
    | other => ([], other)
  if whole.isEmpty && fraction.isEmpty then
    let word := String.ofList (text.map Char.toLower)
    if word == "inf" || word == "infinity" then some (1 / 0)
    else if word == "nan" then some (0 / 0)
    else none
  else
    (exponent? tail).map fun power =>
      Binary.nearest (digitsValue (whole ++ fraction)) (power - fraction.length)

/-- The number that a text denotes, if it denotes one. -/
def read? (text : String) : Option Float :=
  let (negative, rest) := takeSign text.toList
  (magnitude? rest).map fun x => if negative then -x else x

end Scorecard.Decimal
