import Scorecard.CommandLine.Arguments
import Scorecard.Text.Control

/-! Outcomes of a command: an exit code and what is written to the two outputs. A
failure is reported with its context and the chain of causes behind it. -/
namespace Scorecard.CommandLine

structure Outcome where
  code : Nat
  output : String
  errors : String
  deriving DecidableEq, Repr

/-- Every line but the first moved in. -/
def indentLines (indent text : String) : String :=
  ("\n" ++ indent).intercalate (text.splitOn "\n")

/-- The number of a cause, flush right in five columns. -/
def causeNumber (index : Nat) : String :=
  let digits := toString index
  String.ofList (List.replicate (5 - digits.length) ' ') ++ digits ++ ": "

/-- One cause stands alone; several are numbered from the outermost inwards. -/
def causeLines : List String → List String
  | [] => []
  | [cause] => ["    " ++ indentLines "    " cause]
  | causes => causes.mapIdx fun index cause => causeNumber index ++ indentLines "       " cause

def failureText (context : String) (causes : List String) : String :=
  let report := "Error: " ++ context ++ "\n"
  if causes.isEmpty then report
  else report ++ "\nCaused by:\n" ++ "\n".intercalate (causeLines causes) ++ "\n"

/-- A text that stands out on a terminal. -/
def emphasised (rendition text : String) : String :=
  "\x1b[" ++ rendition ++ "m" ++ text ++ "\x1b[0m"

/-- What is said about refused arguments, if they are refused for a value. -/
def UsageError.message : UsageError → String
  | invalidValue text label reason =>
    emphasised "1;31" "error:" ++ " invalid value '" ++ emphasised "33" text ++ "' for '" ++
      emphasised "1" label ++ "': " ++ reason ++ "\n\nFor more information, try '" ++
      emphasised "1" "--help" ++ "'.\n"
  | misuse => ""

/-- A text up to its first line end, which is a line feed or a carriage return
and a line feed. -/
def firstLine : List Char → List Char
  | [] => []
  | '\n' :: _ => []
  | '\r' :: '\n' :: _ => []
  | c :: rest => c :: firstLine rest

/-- The first line of the message as it reads without a terminal. -/
def UsageError.line (e : UsageError) : String :=
  String.ofList (firstLine (Text.visible e.message).toList)

namespace Outcome

def succeeded (output : String) (errors : String) : Outcome := ⟨0, output, errors⟩

def failed (context : String) (causes : List String) : Outcome :=
  ⟨1, "", failureText context causes⟩

def refused (e : UsageError) : Outcome := ⟨2, "", e.line⟩

end Outcome

end Scorecard.CommandLine
