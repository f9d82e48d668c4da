import Scorecard.Formula.Program

/-! Expressions: what a formula says, apart from how it is written down. The
program of an expression is its post-order, and the argument counts of its calls
in the order in which the calls end. -/
namespace Scorecard.Formula

/-- A group stands for the expression in it, so parentheses have no node. -/
inductive Expression (ν : Type) where
  | number (value : ν)
  /-- A reference key, quotes included. -/
  | reference (key : String)
  | binary (op : BinaryOperator) (left right : Expression ν)
  | sign (sign : Sign) (operand : Expression ν)
  | call (name : String) (arguments : List (Expression ν))

namespace Expression

variable {ν : Type}

mutual

/-- Operands before what applies to them; a plus leaves no trace. -/
def postorder : Expression ν → List (Instruction ν)
  | number value => [.number value]
  | reference key => [.reference key]
  | binary op left right => left.postorder ++ right.postorder ++ [.operator op]
  | sign .negate operand => operand.postorder ++ [.negate]
  | sign .plus operand => operand.postorder
  | call name arguments => postorderAll arguments ++ [.call name]

def postorderAll : List (Expression ν) → List (Instruction ν)
  | [] => []
  | e :: rest => e.postorder ++ postorderAll rest

end

mutual

/-- How many arguments each call has, a call after those in its arguments. -/
def arities : Expression ν → List Nat
  | number _ | reference _ => []
  | binary _ left right => left.arities ++ right.arities
  | sign _ operand => operand.arities
  | call _ arguments => aritiesAll arguments ++ [arguments.length]

def aritiesAll : List (Expression ν) → List Nat
  | [] => []
  | e :: rest => e.arities ++ aritiesAll rest

end

def program (e : Expression ν) : Program ν :=
  ⟨e.postorder, e.arities⟩

theorem postorderAll_append (xs ys : List (Expression ν)) :
    postorderAll (xs ++ ys) = postorderAll xs ++ postorderAll ys := by
  induction xs with
  | nil => rfl
  | cons e rest ih => simp only [List.cons_append, postorderAll, ih, List.append_assoc]

theorem aritiesAll_append (xs ys : List (Expression ν)) :
    aritiesAll (xs ++ ys) = aritiesAll xs ++ aritiesAll ys := by
  induction xs with
  | nil => rfl
  | cons e rest ih => simp only [List.cons_append, aritiesAll, ih, List.append_assoc]

theorem postorder_ne_nil : (e : Expression ν) → e.postorder ≠ []
  | number _ | reference _ | binary .. | sign .negate _ | call .. => by simp [postorder]
  | sign .plus operand => by simpa only [postorder] using operand.postorder_ne_nil

end Expression

end Scorecard.Formula
