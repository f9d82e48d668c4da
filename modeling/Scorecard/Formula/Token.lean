import Scorecard.Formula.Operator

/-! Tokens of a formula. `+` and `-` are one kind of token whether they stand
between operands or before one; what precedes them decides. -/
namespace Scorecard.Formula

inductive TokenKind (ν : Type) where
  | number (value : ν)
  /-- A quoted reference key, quotes included. -/
  | quoted (key : String)
  | identifier (name : String)
  | operator (op : BinaryOperator)
  /-- A minus already known to stand before an operand; never read from text. -/
  | negation
  | leftParen
  | rightParen
  | comma
  deriving DecidableEq, Repr

/-- A token and the byte offset of its first character. -/
structure Token (ν : Type) where
  kind : TokenKind ν
  position : Nat
  deriving DecidableEq, Repr

/-- Whether an operand is due after `previous`: at the start, and after an
operator, a sign, a `(` or a comma. A `+` or `-` in such a place is a sign. -/
def expectsOperand {ν : Type} : (previous : Option (TokenKind ν)) → Bool
  | none => true
  | some (.operator _) | some .negation | some .leftParen | some .comma => true
  | some (.number _) | some (.quoted _) | some (.identifier _) | some .rightParen => false

end Scorecard.Formula
