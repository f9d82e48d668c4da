/-! What can be wrong with a formula, by stage: scanning its text, parsing its
tokens, evaluating its program. Positions are byte offsets into the text. -/
namespace Scorecard.Formula

inductive ScanError where
  | unexpectedCharacter (character : Char) (position : Nat)
  | unterminatedString (position : Nat)
  | malformedNumber (text : String) (position : Nat)
  | bareIdentifier (name : String) (position : Nat)
  deriving DecidableEq, Repr

def ScanError.message : ScanError → String
  | unexpectedCharacter character position =>
    s!"unexpected character '{character}' at {position}"
  | unterminatedString position => s!"unterminated string literal starting at {position}"
  | malformedNumber text position => s!"malformed number '{text}' at {position}"
  | bareIdentifier name position =>
    s!"identifier '{name}' at {position} must be followed by '('"

inductive ParseError where
  | emptyInput
  | emptyExpression
  | tooLong (length limit : Nat)
  | unmatchedLeftParen (position : Nat)
  | unmatchedRightParen (position : Nat)
  | emptyArgumentList (name : String) (position : Nat)
  | missingCallParen (name : String) (position : Nat)
  | missingOperand (position : Nat)
  | unexpectedOperand (position : Nat)
  | misplacedComma (position : Nat)
  | nestingTooDeep (limit position : Nat)
  deriving DecidableEq, Repr

def ParseError.message : ParseError → String
  | emptyInput => "formula text is empty"
  | emptyExpression => "expression is empty"
  | tooLong length limit => s!"formula is {length} bytes long, limit is {limit}"
  | unmatchedLeftParen position => s!"unmatched '(' at {position}"
  | unmatchedRightParen position => s!"unmatched ')' at {position}"
  | emptyArgumentList name position => s!"function {name} called without arguments at {position}"
  | missingCallParen name position => s!"function {name} at {position} is not followed by '('"
  | missingOperand position => s!"missing operand at {position}"
  | unexpectedOperand position => s!"unexpected operand at {position}"
  | misplacedComma position => s!"',' outside of a function call at {position}"
  | nestingTooDeep limit position => s!"nesting deeper than {limit} at {position}"

/-- How a program can fail to be the postfix form of any formula. -/
inductive Malformation where
  | stackUnderflow
  | noArgumentCount (function : String)
  | unusedArgumentCounts
  | emptyProgram
  | valuesLeft (count : Nat)
  deriving DecidableEq, Repr

def Malformation.message : Malformation → String
  | stackUnderflow => "stack underflow"
  | noArgumentCount function => s!"no argument count for {function}"
  | unusedArgumentCounts => "unused argument counts"
  | emptyProgram => "empty program"
  | valuesLeft count => s!"{count} values left on the stack"

inductive EvaluationError where
  | unresolvedReference (key : String)
  | divisionByZero
  | unknownFunction (name : String)
  | malformedProgram (malformation : Malformation)
  | argumentCount (function : String) (expected actual : Nat)
  | invalidArgument (function reason : String)
  deriving DecidableEq, Repr

def EvaluationError.message : EvaluationError → String
  | unresolvedReference key => s!"unresolved reference {key}"
  | divisionByZero => "division by zero"
  | unknownFunction name => s!"unknown function {name}"
  | malformedProgram malformation => s!"malformed program: {malformation.message}"
  | argumentCount function expected actual =>
    s!"wrong number of arguments for {function}: expected {expected}, got {actual}"
  | invalidArgument function reason => s!"invalid argument for {function}: {reason}"

/-- A value that was not there may be there later; every other failure is a
defect of the formula or of the functions it calls. -/
def EvaluationError.isRecoverable : EvaluationError → Bool
  | unresolvedReference _ => true
  | _ => false

inductive FormulaError where
  | scan (cause : ScanError)
  | parse (cause : ParseError)
  | evaluation (cause : EvaluationError)
  deriving DecidableEq, Repr

namespace FormulaError

/-- The message of the stage's own error. -/
def cause : FormulaError → String
  | scan cause => cause.message
  | parse cause => cause.message
  | evaluation cause => cause.message

def stage : FormulaError → String
  | scan _ => "Lex error"
  | parse _ => "Parse error"
  | evaluation _ => "Evaluation error"

def message (e : FormulaError) : String :=
  e.stage ++ ": " ++ e.cause

def isRecoverable : FormulaError → Bool
  | evaluation cause => cause.isRecoverable
  | _ => false

end FormulaError

end Scorecard.Formula
