import Scorecard.Json.Value

/-! Reading JSON text. The whole text has to be one value with nothing but spaces
around it. -/
namespace Scorecard.Json

def skipSpaces (text : List Char) : List Char :=
  text.dropWhile fun c => c == ' ' || c == '\n' || c == '\t' || c == '\r'

def hexDigit? (c : Char) : Option Nat :=
  if c.isDigit then some (c.toNat - '0'.toNat)
  else if 'a' ≤ c ∧ c ≤ 'f' then some (c.toNat - 'a'.toNat + 10)
  else if 'A' ≤ c ∧ c ≤ 'F' then some (c.toNat - 'A'.toNat + 10)
  else none

/-- The number of four hexadecimal digits. -/
def hexUnit? (a b c d : Char) : Option Nat := do
  return 4096 * (← hexDigit? a) + 256 * (← hexDigit? b) + 16 * (← hexDigit? c) +
    (← hexDigit? d)

def isHighSurrogate (unit : Nat) : Bool := 0xD800 ≤ unit && unit < 0xDC00

def isLowSurrogate (unit : Nat) : Bool := 0xDC00 ≤ unit && unit < 0xE000

def escaped? (c : Char) : Option Char :=
  match c with
  | '"' | '\\' | '/' => some c
  | 'b' => some '\x08'
  | 'f' => some '\x0c'
  | 'n' => some '\n'
  | 'r' => some '\r'
  | 't' => some '\t'
  | _ => none

/-- The low half that an escape at the front of a text gives to a high half before it. -/
def lowHalf? : List Char → Option Nat
  | '\\' :: 'u' :: a :: b :: c :: d :: _ => (hexUnit? a b c d).filter isLowSurrogate
  | _ => none

/-- A string behind its opening quote. `done` holds the characters so far, latest
first, and `sound` tells whether they are all there. -/
def takeString? (done : List Char) (sound : Bool) :
    List Char → Option (Option String × List Char)
  | [] => none
  | '"' :: rest => some (if sound then some (String.ofList done.reverse) else none, rest)
  | '\\' :: 'u' :: a :: b :: c :: d :: rest =>
    match hexUnit? a b c d with
    | none => none
    | some unit =>
      if isHighSurrogate unit then
        match lowHalf? rest with
        | some low =>
          let code := 0x10000 + 0x400 * (unit - 0xD800) + (low - 0xDC00)
          takeString? (Char.ofNat code :: done) sound (rest.drop 6)
        | none => takeString? done false rest
      else if isLowSurrogate unit then takeString? done false rest
      else takeString? (Char.ofNat unit :: done) sound rest
  | '\\' :: c :: rest =>
    match escaped? c with
    | some c => takeString? (c :: done) sound rest
    | none => none
  | c :: rest => if c.toNat < 0x20 then none else takeString? (c :: done) sound rest
termination_by text => text.length

/-- The characters that numbers are written with. -/
def isNumeralPart (c : Char) : Bool :=
  c.isDigit || c == '-' || c == '+' || c == '.' || c == 'e' || c == 'E'

mutual

/-- A value at the front of a text; every value and every item takes one unit of
`fuel` and at least one character. -/
def takeValue? (fuel : Nat) (text : List Char) : Option (Json × List Char) :=
  match fuel with
  | 0 => none
  | fuel + 1 =>
    match skipSpaces text with
    | 'n' :: 'u' :: 'l' :: 'l' :: rest => some (.null, rest)
    | 't' :: 'r' :: 'u' :: 'e' :: rest => some (.bool true, rest)
    | 'f' :: 'a' :: 'l' :: 's' :: 'e' :: rest => some (.bool false, rest)
    | '"' :: rest => (takeString? [] true rest).map fun (text, rest) => (.string text, rest)
    | '[' :: rest =>
      match skipSpaces rest with
      | ']' :: rest => some (.array [], rest)
      | rest => takeItems? fuel [] rest
    | '\x7b' :: rest =>
      match skipSpaces rest with
      | '\x7d' :: rest => some (.object [], rest)
      | rest => takeFields? fuel [] rest
    | text =>
      let literal := text.takeWhile isNumeralPart
      match takeNumeral? literal with
      | some (_, []) => some (.number (String.ofList literal), text.dropWhile isNumeralPart)
      | _ => none

/-- The items of an array from one of them on. -/
def takeItems? (fuel : Nat) (done : List Json) (text : List Char) : Option (Json × List Char) :=
  match fuel with
  | 0 => none
  | fuel + 1 =>
    match takeValue? fuel text with
    | none => none
    | some (item, rest) =>
      match skipSpaces rest with
      | ',' :: rest => takeItems? fuel (item :: done) rest
      | ']' :: rest => some (.array (item :: done).reverse, rest)
      | _ => none

/-- The fields of an object from one of them on. -/
def takeFields? (fuel : Nat) (done : List (Option String × Json)) (text : List Char) :
    Option (Json × List Char) :=
  match fuel with
  | 0 => none
  | fuel + 1 =>
    match skipSpaces text with
    | '"' :: rest =>
      match takeString? [] true rest with
      | none => none
      | some (name, rest) =>
        match skipSpaces rest with
        | ':' :: rest =>
          match takeValue? fuel rest with
          | none => none
          | some (value, rest) =>
            match skipSpaces rest with
            | ',' :: rest => takeFields? fuel ((name, value) :: done) rest
            | '\x7d' :: rest => some (.object ((name, value) :: done).reverse, rest)
            | _ => none
        | _ => none
    | _ => none

end

/-- The value of a whole text. -/
def read? (text : String) : Option Json :=
  let characters := text.toList
  match takeValue? (2 * characters.length + 1) characters with
  | some (value, rest) => if (skipSpaces rest).isEmpty then some value else none
  | none => none

end Scorecard.Json
