import Scorecard.Formula.Program
import Scorecard.Formula.Token

/-! From tokens to a program. Operands go straight to the output. Operators,
signs, parentheses and calls wait on a stack until what follows them shows that
their operands are complete: an operator releases whatever binds tighter, a
comma or `)` releases everything back to its `(`. A call is also remembered in
a list of open calls that counts its arguments. -/
namespace Scorecard.Formula

/-- The bounds on a formula: how deep parentheses may nest, and how many bytes
the text may have. -/
structure Limits where
  nesting : Nat
  length : Nat
  deriving DecidableEq, Repr

def Limits.standard : Limits := ⟨256, 65536⟩

/-- What waits on the stack. -/
inductive Pending where
  | binary (op : BinaryOperator)
  | sign (sign : Sign)
  /-- An open `(` and where it stands. -/
  | paren (position : Nat)
  /-- The function whose `(` lies right above. -/
  | call (name : String)
  deriving DecidableEq, Repr

/-- A call whose `)` has not come yet, with the arguments begun so far. -/
structure OpenCall where
  name : String
  arguments : Nat
  deriving DecidableEq, Repr

/-- A conversion under way. The lists `output` and `arities` hold the latest
entry first; `stack` and `calls` hold the innermost first. -/
structure Conversion (ν : Type) where
  output : List (Instruction ν)
  stack : List Pending
  calls : List OpenCall
  arities : List Nat
  previous : Option (TokenKind ν)
  /-- How many `(` are open. -/
  depth : Nat

namespace Pending

/-- How tightly an operator or sign binds; parentheses and calls bound a
segment of the stack and have no precedence. -/
def precedence? : Pending → Option Nat
  | binary op => some op.precedence
  | sign _ => some Sign.precedence
  | paren _ | call _ => none

/-- What an operator or sign adds to the output; a plus adds nothing. -/
def release {ν : Type} (output : List (Instruction ν)) : Pending → List (Instruction ν)
  | binary op => .operator op :: output
  | sign .negate => .negate :: output
  | sign .plus | paren _ | call _ => output

/-- Whether a waiting entry goes to the output before `incoming` takes its
place. Equals go first when they group to the left. -/
def yieldsTo (incoming : BinaryOperator) (entry : Pending) : Bool :=
  match entry.precedence? with
  | none => false
  | some waiting =>
    match incoming.associativity with
    | .left => incoming.precedence ≤ waiting
    | .right => incoming.precedence < waiting

/-- An operator or sign, as opposed to a parenthesis or a call. -/
def isOperator (entry : Pending) : Bool :=
  entry.precedence?.isSome

end Pending

/-- The call whose `(` is on top of the stack. -/
def opensCall : List Pending → Bool
  | _ :: .call _ :: _ => true
  | _ => false

namespace Conversion

variable {ν : Type}

def empty : Conversion ν := ⟨[], [], [], [], none, 0⟩

/-- Release waiting entries from the top as long as they satisfy `p`. -/
def releaseWhile (p : Pending → Bool) (s : Conversion ν) : Conversion ν :=
  { s with
    output := (s.stack.takeWhile p).foldl Pending.release s.output
    stack := s.stack.dropWhile p }

/-- An operand, or what begins one, has to stand where one is due. -/
def requireOperand (s : Conversion ν) (position : Nat) : Except ParseError Unit :=
  if expectsOperand s.previous then .ok () else .error (.unexpectedOperand position)

/-- Open one more `(`. -/
def enter (limits : Limits) (s : Conversion ν) (position : Nat) :
    Except ParseError (Conversion ν) :=
  if s.depth + 1 ≤ limits.nesting then
    .ok { s with stack := .paren position :: s.stack, depth := s.depth + 1 }
  else .error (.nestingTooDeep limits.nesting position)

def emit (s : Conversion ν) (position : Nat) (operand : Instruction ν) :
    Except ParseError (Conversion ν) := do
  s.requireOperand position
  return { s with output := operand :: s.output }

/-- An operator where an operand is due can only be a sign. -/
def operator (s : Conversion ν) (position : Nat) (op : BinaryOperator) :
    Except ParseError (Conversion ν) :=
  if expectsOperand s.previous then
    match op.sign? with
    | some sign => .ok { s with stack := .sign sign :: s.stack }
    | none => .error (.missingOperand position)
  else
    let released := s.releaseWhile (Pending.yieldsTo op)
    .ok { released with stack := .binary op :: released.stack }

/-- A comma ends an argument of the innermost open call and begins another. -/
def comma (s : Conversion ν) (position : Nat) : Except ParseError (Conversion ν) :=
  if expectsOperand s.previous then .error (.missingOperand position)
  else
    let unwound := s.releaseWhile Pending.isOperator
    match unwound.stack, unwound.calls with
    | .paren _ :: .call _ :: _, call :: outer =>
      .ok { unwound with calls := { call with arguments := call.arguments + 1 } :: outer }
    | _, _ => .error (.misplacedComma position)

/-- What is wrong with a `)` that stands where an operand is due. -/
def emptyClose (s : Conversion ν) (position : Nat) : ParseError :=
  match s.previous, s.calls with
  | some .leftParen, call :: _ =>
    if opensCall s.stack then .emptyArgumentList call.name position
    else .missingOperand position
  | _, _ => .missingOperand position

/-- A `)` ends a group, or the innermost open call. -/
def close (s : Conversion ν) (position : Nat) : Except ParseError (Conversion ν) :=
  if expectsOperand s.previous then .error (s.emptyClose position)
  else
    let unwound := s.releaseWhile Pending.isOperator
    match unwound.stack with
    | .paren _ :: .call name :: below =>
      match unwound.calls with
      | call :: outer =>
        .ok { unwound with
          output := .call name :: unwound.output
          stack := below
          calls := outer
          arities := call.arguments :: unwound.arities
          depth := unwound.depth - 1 }
      | [] => .ok { unwound with stack := below, depth := unwound.depth - 1 }
    | .paren _ :: below => .ok { unwound with stack := below, depth := unwound.depth - 1 }
    | _ => .error (.unmatchedRightParen position)

/-- One token that is not a name. -/
def push (limits : Limits) (s : Conversion ν) (token : Token ν) :
    Except ParseError (Conversion ν) := do
  let position := token.position
  let next ← match token.kind with
    | .number value => s.emit position (.number value)
    | .quoted key => s.emit position (.reference key)
    | .operator op => s.operator position op
    | .negation => do
      s.requireOperand position
      pure { s with stack := .sign .negate :: s.stack }
    | .leftParen => do
      s.requireOperand position
      s.enter limits position
    | .comma => s.comma position
    | .rightParen => s.close position
    | .identifier name => .error (.missingCallParen name position)
  return { next with previous := some token.kind }

/-- A name together with the `(` behind it. -/
def openCall (limits : Limits) (s : Conversion ν) (name : String)
    (position parenPosition : Nat) : Except ParseError (Conversion ν) := do
  s.requireOperand position
  let next ← { s with stack := .call name :: s.stack }.enter limits parenPosition
  return { next with calls := ⟨name, 1⟩ :: next.calls, previous := some .leftParen }

/-- Take in a list of tokens; a name takes the token behind it along. -/
def run (limits : Limits) (s : Conversion ν) : List (Token ν) → Except ParseError (Conversion ν)
  | [] => .ok s
  | ⟨.identifier name, position⟩ :: ⟨.leftParen, parenPosition⟩ :: rest => do
    (← s.openCall limits name position parenPosition).run limits rest
  | ⟨.identifier name, position⟩ :: _ => .error (.missingCallParen name position)
  | token :: rest => do (← s.push limits token).run limits rest

/-- The program, once the tokens have ended just before the position `ending`. -/
def finish (s : Conversion ν) (ending : Nat) : Except ParseError (Program ν) :=
  if s.previous.isNone then .error .emptyExpression
  else if expectsOperand s.previous then .error (.missingOperand ending)
  else
    let unwound := s.releaseWhile Pending.isOperator
    match unwound.stack with
    | .paren position :: _ => .error (.unmatchedLeftParen position)
    | _ :: _ => .error (.unmatchedLeftParen ending)
    | [] =>
      if !unwound.calls.isEmpty then .error (.unmatchedLeftParen ending)
      else if unwound.output.isEmpty then .error .emptyExpression
      else .ok ⟨unwound.output.reverse, unwound.arities.reverse⟩

end Conversion

/-- The position just behind the first byte of the last token. -/
def endOf {ν : Type} (tokens : List (Token ν)) : Nat :=
  match tokens.getLast? with
  | some last => last.position + 1
  | none => 0

/-- The program of an infix token list. -/
def convert {ν : Type} (limits : Limits) (tokens : List (Token ν)) :
    Except ParseError (Program ν) := do
  (← Conversion.empty.run limits tokens).finish (endOf tokens)

end Scorecard.Formula
