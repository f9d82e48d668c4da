import Scorecard.CommandLine.Arguments

/-! The commands and their arguments. -/
namespace Scorecard.CommandLine

open Calendar (Frequency)

inductive Command where
  /-- Print the program of a formula. -/
  | compile (expression : String)
  /-- Print the value of a formula; a name given twice has the later value. -/
  | evaluate (expression : String) (references : List (String × Float))
  /-- List the bucket starts of a range. -/
  | range (start last : Calendar.Reading) (frequency : Frequency)
  /-- Consolidate a data file. -/
  | consolidate (path : String) (start last : Calendar.Reading) (frequency : Frequency)
      (strict : Bool)

/-- A slot for values that `read` understands; others are reported under the label. -/
def valueSlot (name : String) (short? : Option Char) (label : String)
    (read : String → Except String Value) : Slot :=
  ⟨name, short?, false, .value fun text => (read text).mapError (.invalidValue text label)⟩

def verboseSlot : Slot := ⟨"verbose", some 'v', false, .flag⟩

def expressionSlot : Slot := ⟨"", none, false, .value fun text => .ok (.text text)⟩

/-- A path has to have a name. -/
def pathSlot : Slot :=
  ⟨"", none, false, .value fun text => if text.isEmpty then .error .misuse else .ok (.text text)⟩

def referenceSlot : Slot :=
  { valueSlot "ref" (some 'r') "--ref <REFS>"
      (fun text => (readReference text).map fun (name, value) => .reference name value)
    with repeats := true }

def startSlot : Slot :=
  valueSlot "start" none "--start <START>" fun text => (readDate text).map .date

def endSlot : Slot :=
  valueSlot "end" none "--end <END>" fun text => (readDate text).map .date

def frequencySlot : Slot :=
  valueSlot "frequency" (some 'f') "--frequency <FREQUENCY>" fun text =>
    (readFrequency text).map .frequency

/-- How many workers may be used; any number gives the same result. -/
def threadsSlot : Slot :=
  valueSlot "threads" (some 't') "--threads <THREADS>" fun text => (readCount text).map .count

def strictSlot : Slot := ⟨"strict", none, false, .flag⟩

namespace Command

/-- The expression or path of a command. -/
def text (a : Arguments) : Except UsageError String :=
  match a.valueOf? "" with
  | some (.text text) => .ok text
  | _ => .error .misuse

def date (a : Arguments) (name : String) : Except UsageError Calendar.Reading :=
  match a.valueOf? name with
  | some (.date date) => .ok date
  | _ => .error .misuse

def frequency (a : Arguments) : Except UsageError Frequency :=
  match a.valueOf? "frequency" with
  | some (.frequency frequency) => .ok frequency
  | _ => .error .misuse

/-- The references given, in order. -/
def references (a : Arguments) : List (String × Float) :=
  (a.valuesOf "ref").filterMap fun
    | .reference name value => some (name, value)
    | _ => none

def readCompile (arguments : List String) : Except UsageError Command := do
  let a ← Grammar.read ⟨[verboseSlot], some expressionSlot⟩ arguments
  return .compile (← text a)

def readEvaluate (arguments : List String) : Except UsageError Command := do
  let a ← Grammar.read ⟨[verboseSlot, referenceSlot], some expressionSlot⟩ arguments
  return .evaluate (← text a) (references a)

def readRange (arguments : List String) : Except UsageError Command := do
  let a ← Grammar.read ⟨[verboseSlot, startSlot, endSlot, frequencySlot], none⟩ arguments
  return .range (← date a "start") (← date a "end") (← frequency a)

def readConsolidate (arguments : List String) : Except UsageError Command := do
  let a ← Grammar.read
    ⟨[verboseSlot, startSlot, endSlot, frequencySlot, threadsSlot, strictSlot], some pathSlot⟩
    arguments
  return .consolidate (← text a) (← date a "start") (← date a "end") (← frequency a)
    (a.has "strict")

/-- Read a whole command line. The verbose flag may also stand before the command. -/
def read (verbose : Bool) : List String → Except UsageError Command
  | [] => .error .misuse
  | word :: rest =>
    match word with
    | "postfix" => readCompile rest
    | "eval" => readEvaluate rest
    | "range" => readRange rest
    | "consolidate" => readConsolidate rest
    | "-v" | "--verbose" => if verbose then .error .misuse else read true rest
    | _ => .error .misuse

end Command

end Scorecard.CommandLine
