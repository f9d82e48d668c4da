import Scorecard.CommandLine.Value

/-! Arguments of a command. Long options stand behind two dashes, short ones may
be joined behind one; a value follows as the next argument or is attached, with
or without an equals sign. After a lone `--` nothing is an option. A value is
looked at when the next argument begins or the last one has ended, so the first
thing wrong from left to right is reported. -/
namespace Scorecard.CommandLine

/-- Why arguments are refused. -/
inductive UsageError where
  /-- A value that its option cannot read. -/
  | invalidValue (text label reason : String)
  /-- Arguments that do not make up a command. -/
  | misuse
  deriving DecidableEq, Repr

/-- What an option takes. -/
inductive Intake where
  | flag
  /-- A value, read from its text. -/
  | value (read : String → Except UsageError Value)

/-- An option, or the argument that is no option if it has no long name. -/
structure Slot where
  name : String
  short? : Option Char
  /-- Whether it may be given more than once. -/
  repeats : Bool
  intake : Intake

/-- What a command takes. -/
structure Grammar where
  options : List Slot
  positional? : Option Slot

/-- Arguments taken in so far. -/
structure Arguments where
  /-- The values given, latest first; a flag has no value. -/
  given : List (String × Option Value)
  /-- A slot whose value is yet to come or to be looked at. -/
  pending : Option (Slot × Option String)
  positional? : Option Slot

namespace Arguments

def has (a : Arguments) (name : String) : Bool :=
  a.given.any (·.1 == name)

/-- Take in what a slot was given, unless it was given before and may not be again. -/
def accept (a : Arguments) (slot : Slot) (value : Except UsageError (Option Value)) :
    Except UsageError Arguments :=
  if a.has slot.name && !slot.repeats then .error .misuse
  else do return { a with given := (slot.name, ← value) :: a.given, pending := none }

/-- Look at the pending value. -/
def settle (a : Arguments) : Except UsageError Arguments :=
  match a.pending with
  | none => .ok a
  | some (slot, some text) =>
    match slot.intake with
    | .value read => a.accept slot ((read text).map some)
    | .flag => .error .misuse
  | some (_, none) => .error .misuse

/-- Begin an option, with the text attached to it if there is one. -/
def begin (a : Arguments) (slot : Slot) (attached : Option String) :
    Except UsageError Arguments :=
  match slot.intake, attached with
  | .flag, some _ => .error .misuse
  | .flag, none => do (← a.settle).accept slot (.ok none)
  | .value _, some text => do
    let a ← a.settle
    { a with pending := some (slot, some text) }.settle
  | .value _, none => do
    let a ← a.settle
    return { a with pending := some (slot, none) }

/-- Options joined behind one dash. The first that takes a value takes all the
text behind it. -/
def cluster (grammar : Grammar) (a : Arguments) : List Char → Except UsageError Arguments
  | [] => .ok a
  | c :: rest =>
    match grammar.options.find? (·.short? == some c) with
    | none => .error .misuse
    | some slot =>
      match slot.intake, rest with
      | .flag, _ => do (← a.begin slot none).cluster grammar rest
      | .value _, [] => a.begin slot none
      | .value _, '=' :: text | .value _, text => a.begin slot (some (String.ofList text))

/-- A long option, without its dashes. -/
def long (grammar : Grammar) (a : Arguments) (text : List Char) : Except UsageError Arguments :=
  let name := String.ofList (text.takeWhile (· != '='))
  let attached := match text.dropWhile (· != '=') with
    | [] => none
    | _ :: value => some (String.ofList value)
  match grammar.options.find? (·.name == name) with
  | none => .error .misuse
  | some slot => a.begin slot attached

/-- An argument that is no option. -/
def plain (a : Arguments) (text : String) : Except UsageError Arguments :=
  match a.positional? with
  | none => .error .misuse
  | some slot => do
    let a ← a.settle
    return { a with pending := some (slot, some text), positional? := none }

/-- Take in arguments one by one. -/
def take (grammar : Grammar) (a : Arguments) : List String → Except UsageError Arguments
  | [] => a.settle
  | text :: rest =>
    match text.toList with
    | ['-', '-'] => do (← rest.foldlM plain a).settle
    | '-' :: '-' :: option => do (← a.long grammar option).take grammar rest
    | '-' :: c :: options => do (← a.cluster grammar (c :: options)).take grammar rest
    | _ =>
      match a.pending with
      | some (slot, none) => { a with pending := some (slot, some text) }.take grammar rest
      | _ => do (← a.plain text).take grammar rest

/-- The values given to a slot, in the order given. -/
def valuesOf (a : Arguments) (name : String) : List Value :=
  (a.given.filterMap fun (given, value) => if given == name then value else none).reverse

def valueOf? (a : Arguments) (name : String) : Option Value :=
  (a.valuesOf name).head?

end Arguments

/-- Read the arguments of a command. -/
def Grammar.read (grammar : Grammar) (arguments : List String) : Except UsageError Arguments :=
  Arguments.take grammar ⟨[], none, grammar.positional?⟩ arguments

end Scorecard.CommandLine
