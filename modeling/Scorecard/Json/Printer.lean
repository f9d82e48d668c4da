import Scorecard.Json.Value

/-! Printing JSON with one item to a line, two spaces further in at every level.
Only what has to be escaped is. -/
namespace Scorecard.Json

def hexText (n : Nat) : String :=
  String.ofList (Nat.toDigits 16 n)

/-- A character as it stands in a string. -/
def escape (c : Char) : String :=
  match c with
  | '"' => "\\\""
  | '\\' => "\\\\"
  | '\x08' => "\\b"
  | '\x0c' => "\\f"
  | '\n' => "\\n"
  | '\r' => "\\r"
  | '\t' => "\\t"
  | c =>
    if c.toNat < 0x10 then "\\u000" ++ hexText c.toNat
    else if c.toNat < 0x20 then "\\u00" ++ hexText c.toNat
    else c.toString

def quote (text : String) : String :=
  "\"" ++ text.toList.foldl (fun out c => out ++ escape c) "" ++ "\""

/-- Text for a string; one that is not sound is a replacement character. -/
def stringText (text : Option String) : String :=
  quote (text.getD "\uFFFD")

def newLine (depth : Nat) : String :=
  "\n" ++ String.ofList (List.replicate (2 * depth) ' ')

mutual

/-- Append a value that stands `depth` levels in. -/
def write (depth : Nat) (out : String) : Json → String
  | null => out ++ "null"
  | bool value => out ++ if value then "true" else "false"
  | number literal => out ++ literal
  | string text => out ++ stringText text
  | array [] => out ++ "[]"
  | array (item :: items) =>
    let out := write (depth + 1) (out ++ "[" ++ newLine (depth + 1)) item
    writeItems depth out items
  | object [] => out ++ "\x7b\x7d"
  | object ((name, value) :: fields) =>
    let out := out ++ "\x7b" ++ newLine (depth + 1) ++ stringText name ++ ": "
    writeFields depth (write (depth + 1) out value) fields

/-- Append the items behind the first one, and the end of the array. -/
def writeItems (depth : Nat) (out : String) : List Json → String
  | [] => out ++ newLine depth ++ "]"
  | item :: items =>
    writeItems depth (write (depth + 1) (out ++ "," ++ newLine (depth + 1)) item) items

/-- Append the fields behind the first one, and the end of the object. -/
def writeFields (depth : Nat) (out : String) : List (Option String × Json) → String
  | [] => out ++ newLine depth ++ "\x7d"
  | (name, value) :: fields =>
    let out := out ++ "," ++ newLine (depth + 1) ++ stringText name ++ ": "
    writeFields depth (write (depth + 1) out value) fields

end

/-- The text of a value. -/
def pretty (value : Json) : String :=
  write 0 "" value

end Scorecard.Json
