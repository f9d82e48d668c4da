import Scorecard.Decimal.Layout
import Scorecard.Formula.Operator

/-! Programs in postfix form. Operands come before what applies to them, so a
program needs no parentheses; how many arguments each call takes is kept in a
list beside the instructions, in the order of the calls. -/
namespace Scorecard.Formula

inductive Instruction (ν : Type) where
  | number (value : ν)
  /-- A reference key as written in the formula, quotes included. -/
  | reference (key : String)
  | operator (op : BinaryOperator)
  | negate
  /-- A call; its argument count is the next one of the program. -/
  | call (name : String)
  deriving DecidableEq, Repr

namespace Instruction

variable {ν : Type}

def key? : Instruction ν → Option String
  | reference key => some key
  | _ => none

def callee? : Instruction ν → Option String
  | call name => some name
  | _ => none

def text : Instruction Float → String
  | number value => Decimal.plainText value
  | reference key => key
  | operator op => op.symbol.toString
  | negate => "_"
  | call name => name

end Instruction

structure Program (ν : Type) where
  instructions : List (Instruction ν)
  /-- The argument count of every call, in the order of the calls. -/
  arities : List Nat
  deriving DecidableEq, Repr

/-- The members of a list without repeats, each where it first appears. -/
def distinct (keys : List String) : List String :=
  (keys.foldl (fun seen key => if seen.contains key then seen else key :: seen) []).reverse

namespace Program

variable {ν : Type}

/-- The distinct reference keys, in order of first appearance. -/
def references (p : Program ν) : List String :=
  distinct (p.instructions.filterMap Instruction.key?)

/-- The names of the called functions, in call order. -/
def functions (p : Program ν) : List String :=
  p.instructions.filterMap Instruction.callee?

/-- The instructions separated by spaces. -/
def text (p : Program Float) : String :=
  " ".intercalate (p.instructions.map Instruction.text)

end Program

/-- The key without its quotes; a key that is not quoted on both sides is a
name already. -/
def referenceName (key : String) : String :=
  match key.toList with
  | '"' :: rest =>
    match rest.reverse with
    | '"' :: name => String.ofList name.reverse
    | _ => key
  | _ => key

end Scorecard.Formula
