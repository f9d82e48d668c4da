import Scorecard.Decimal.Reading
import Scorecard.Formula.Token
import Scorecard.Text.Blank
import Scorecard.Text.Width

/-! Scanning formula text into tokens. Each lexeme is the longest run of its
class, blanks between lexemes are skipped, and the first lexeme at fault ends
the scan. A lexeme leaves less text than it found, so the scan ends. -/
namespace Scorecard.Formula

/-- Digits and points; a run of them is one number. -/
def isNumeral (c : Char) : Bool :=
  c.isDigit || c == '.'

/-- What may follow the first letter of a name. -/
def continuesName (c : Char) : Bool :=
  c.isAlphanum || c == '_'

/-- At most one point, and a digit behind it. -/
def isDecimal (run : List Char) : Bool :=
  run.count '.' ≤ 1 && run.getLast? != some '.'

/-- The decimal written by a run: its digits, and how many stand behind the point. -/
def decimalParts (run : List Char) : Nat × Nat :=
  (Decimal.digitsValue (run.filter Char.isDigit), (run.dropWhile Char.isDigit).length - 1)

/-- A lexeme read at the front of `first :: rest`: its token, the bytes it
takes, and the text behind it. -/
structure Lexeme (ν : Type) (rest : List Char) where
  kind : TokenKind ν
  width : Nat
  after : List Char
  after_le : after.length ≤ rest.length

namespace Lexeme

variable {ν : Type} [Arithmetic ν]

theorem length_dropWhile_le (p : Char → Bool) (text : List Char) :
    (text.dropWhile p).length ≤ text.length :=
  (List.dropWhile_sublist p).length_le

/-- A lexeme of one character. -/
def single (kind : TokenKind ν) (rest : List Char) : Lexeme ν rest :=
  ⟨kind, 1, rest, Nat.le_refl _⟩

/-- The numeral that starts with `first`. -/
def numeral (position : Nat) (first : Char) (rest : List Char) :
    Except ScanError (Lexeme ν rest) :=
  let run := first :: rest.takeWhile isNumeral
  if isDecimal run then
    let (digits, places) := decimalParts run
    .ok ⟨.number (Arithmetic.ofDecimal digits places), Text.width run, rest.dropWhile isNumeral,
      length_dropWhile_le _ _⟩
  else .error (.malformedNumber (String.ofList run) position)

/-- The reference key that an opening quote starts; the next quote ends it. -/
def quoted (position : Nat) (rest : List Char) : Except ScanError (Lexeme ν rest) :=
  let body := rest.takeWhile (· != '"')
  match h : rest.dropWhile (· != '"') with
  | [] => .error (.unterminatedString position)
  | _ :: after =>
    .ok ⟨.quoted (String.ofList ('"' :: body ++ ['"'])), Text.width body + 2, after, by
      have := length_dropWhile_le (· != '"') rest
      rw [h, List.length_cons] at this
      omega⟩

/-- The name that starts with `first`; a `(` has to follow at once. -/
def name (position : Nat) (first : Char) (rest : List Char) :
    Except ScanError (Lexeme ν rest) :=
  let run := first :: rest.takeWhile continuesName
  let after := rest.dropWhile continuesName
  if after.head? == some '(' then
    .ok ⟨.identifier (String.ofList run), Text.width run, after, length_dropWhile_le _ _⟩
  else .error (.bareIdentifier (String.ofList run) position)

/-- The lexeme at the front of a text that starts with no blank. -/
def read (position : Nat) (first : Char) (rest : List Char) :
    Except ScanError (Lexeme ν rest) :=
  if first == '(' then .ok (single .leftParen rest)
  else if first == ')' then .ok (single .rightParen rest)
  else if first == ',' then .ok (single .comma rest)
  else if first == '"' then quoted position rest
  else if isNumeral first then numeral position first rest
  else if first.isAlpha then name position first rest
  else match BinaryOperator.ofSymbol? first with
    | some op => .ok (single (.operator op) rest)
    | none => .error (.unexpectedCharacter first position)

end Lexeme

/-- Scan from a position on; `found` holds the tokens so far, latest first. -/
def scanFrom {ν : Type} [Arithmetic ν] (found : List (Token ν)) (position : Nat) :
    List Char → Except ScanError (List (Token ν))
  | [] => .ok found.reverse
  | first :: rest =>
    if Text.isBlank first then scanFrom found (position + first.utf8Size) rest
    else match Lexeme.read position first rest with
      | .error fault => .error fault
      | .ok lexeme =>
        scanFrom (⟨lexeme.kind, position⟩ :: found) (position + lexeme.width) lexeme.after
termination_by text => text.length
decreasing_by
  · exact Nat.lt_succ_self _
  · exact Nat.lt_succ_of_le lexeme.after_le

/-- The tokens of a formula text. -/
def tokenize {ν : Type} [Arithmetic ν] (text : String) : Except ScanError (List (Token ν)) :=
  scanFrom [] 0 text.toList

end Scorecard.Formula
