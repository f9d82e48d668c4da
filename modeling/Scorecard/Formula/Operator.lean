import Scorecard.Number.Arithmetic
import Scorecard.Formula.Error

/-! Operators of formulas. Binary operators have a precedence and a side on
which equals group; the signs stand before an operand and bind tighter than any
of them. -/
namespace Scorecard.Formula

inductive BinaryOperator where
  | add
  | subtract
  | multiply
  | divide
  | modulo
  | power
  deriving DecidableEq, Repr

/-- The signs that may stand before an operand. -/
inductive Sign where
  | negate
  | plus
  deriving DecidableEq, Repr

inductive Associativity where
  | left
  | right
  deriving DecidableEq, Repr

/-- What is fixed about an operator; `arity` is its number of operands. -/
structure OperatorShape where
  symbol : Char
  precedence : Nat
  associativity : Associativity
  arity : Nat
  deriving DecidableEq, Repr

namespace BinaryOperator

/-- Every binary operator, in order of precedence. -/
def all : List BinaryOperator := [add, subtract, multiply, divide, modulo, power]

def symbol : BinaryOperator → Char
  | add => '+'
  | subtract => '-'
  | multiply => '*'
  | divide => '/'
  | modulo => '%'
  | power => '^'

def ofSymbol? (symbol : Char) : Option BinaryOperator :=
  all.find? (·.symbol == symbol)

def precedence : BinaryOperator → Nat
  | add | subtract => 1
  | multiply | divide | modulo => 2
  | power => 4

def associativity : BinaryOperator → Associativity
  | power => .right
  | _ => .left

def shape (op : BinaryOperator) : OperatorShape :=
  ⟨op.symbol, op.precedence, op.associativity, 2⟩

/-- The sign that is written like the operator. -/
def sign? : BinaryOperator → Option Sign
  | add => some .plus
  | subtract => some .negate
  | _ => none

/-- Division and remainder refuse a zero on the right; nothing else fails. -/
def apply {ν : Type} [Arithmetic ν] (op : BinaryOperator) (left right : ν) :
    Except EvaluationError ν :=
  match op with
  | add => .ok (Arithmetic.add left right)
  | subtract => .ok (Arithmetic.sub left right)
  | multiply => .ok (Arithmetic.mul left right)
  | divide =>
    if Arithmetic.isZero right then .error .divisionByZero else .ok (Arithmetic.div left right)
  | modulo =>
    if Arithmetic.isZero right then .error .divisionByZero else .ok (Arithmetic.rem left right)
  | power => .ok (Arithmetic.pow left right)

theorem ofSymbol?_symbol (op : BinaryOperator) : ofSymbol? op.symbol = some op := by
  cases op <;> rfl

end BinaryOperator

namespace Sign

/-- All signs share one precedence, above that of every binary operator. -/
def precedence : Nat := 5

def symbol : Sign → Char
  | negate => '-'
  | plus => '+'

def shape (sign : Sign) : OperatorShape :=
  ⟨sign.symbol, precedence, .right, 1⟩

end Sign

theorem BinaryOperator.precedence_lt_sign (op : BinaryOperator) :
    op.precedence < Sign.precedence := by
  cases op <;> decide

end Scorecard.Formula
