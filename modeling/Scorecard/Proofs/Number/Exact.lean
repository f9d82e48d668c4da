import Mathlib.Algebra.Order.Ring.Rat
import Scorecard.Number.Arithmetic

/-! Exact numbers. The rational numbers are computed with as they are, without rounding and
without bounds to their size. Below and above all of them there is one more number, which takes
part in comparisons only; where there is no rational result, an operation is undefined. -/
namespace Scorecard

inductive Exact where
  /-- Below every rational number. -/
  | bottom
  | rational (value : Rat)
  /-- Above every rational number. -/
  | top
  | undefined
  deriving DecidableEq, Repr

namespace Exact

/-- An operation on a rational number. -/
def lift (f : Rat → Rat) : Exact → Exact
  | rational a => rational (f a)
  | _ => undefined

/-- An operation on two rational numbers, which may have no result. -/
def lift₂ (f : Rat → Rat → Option Rat) : Exact → Exact → Exact
  | rational a, rational b => (f a b).elim undefined rational
  | _, _ => undefined

def quotient (a b : Rat) : Option Rat :=
  if b = 0 then none else some (a / b)

/-- What is left of a division towards zero. -/
def remainder (a b : Rat) : Option Rat :=
  (quotient a b).map fun q => a - b * (q.num.tdiv q.den : Int)

/-- A power with a whole exponent. -/
def power (a b : Rat) : Option Rat :=
  if b.den = 1 ∧ (a ≠ 0 ∨ 0 ≤ b) then some (a ^ b.num) else none

def atMost : Exact → Exact → Bool
  | undefined, _ | _, undefined => false
  | bottom, _ | _, top => true
  | rational a, rational b => a ≤ b
  | _, _ => false

/-- The one of two numbers that is at most the other. -/
def least (x y : Exact) : Exact :=
  if x = undefined then y else if y = undefined then x else if atMost y x then y else x

/-- The one of two numbers that the other is at most. -/
def greatest (x y : Exact) : Exact :=
  if x = undefined then y else if y = undefined then x else if atMost x y then y else x

instance : Arithmetic Exact where
  ofCount n := rational n
  ofDecimal digits places := rational (digits / 10 ^ places)
  add := lift₂ fun a b => some (a + b)
  sub := lift₂ fun a b => some (a - b)
  mul := lift₂ fun a b => some (a * b)
  div := lift₂ quotient
  rem := lift₂ remainder
  pow := lift₂ power
  neg := lift fun a => -a
  abs := lift fun a => |a|
  least := least
  greatest := greatest
  isZero x := x = rational 0
  atMost := atMost
  emptySum := rational 0
  top := top
  bottom := bottom

/-! ### Rational numbers among themselves -/

theorem zero_eq : (Arithmetic.zero : Exact) = rational 0 := rfl

theorem ofCount_eq (n : Nat) : (Arithmetic.ofCount n : Exact) = rational n := rfl

variable (a b : Rat)

@[simp] theorem add_rational :
    Arithmetic.add (rational a) (rational b) = rational (a + b) := rfl

@[simp] theorem mul_rational :
    Arithmetic.mul (rational a) (rational b) = rational (a * b) := rfl

@[simp] theorem isZero_rational : Arithmetic.isZero (rational a) = decide (a = 0) := by
  simp [Arithmetic.isZero]

theorem div_rational (h : b ≠ 0) :
    Arithmetic.div (rational a) (rational b) = rational (a / b) := by
  show (quotient a b).elim undefined rational = rational (a / b)
  rw [quotient, if_neg h, Option.elim_some]

@[simp] theorem least_rational :
    Arithmetic.least (rational a) (rational b) = rational (min a b) := by
  simp [Arithmetic.least, least, atMost, min_def', apply_ite rational]

@[simp] theorem greatest_rational :
    Arithmetic.greatest (rational a) (rational b) = rational (max a b) := by
  simp [Arithmetic.greatest, greatest, atMost, max_def, apply_ite rational]

@[simp] theorem least_top : Arithmetic.least Arithmetic.top (rational a) = rational a := by
  simp [Arithmetic.least, Arithmetic.top, least, atMost]

@[simp] theorem greatest_bottom :
    Arithmetic.greatest Arithmetic.bottom (rational a) = rational a := by
  simp [Arithmetic.greatest, Arithmetic.bottom, greatest, atMost]

/-! ### Lists of rational numbers -/

variable (values : List Rat)

theorem foldl_add_rational :
    (values.map rational).foldl Arithmetic.add (rational a) = rational (a + values.sum) := by
  induction values generalizing a with
  | nil => simp
  | cons value rest ih => simp [ih, add_assoc]

theorem foldl_least_rational :
    (values.map rational).foldl Arithmetic.least (rational a) = rational (values.foldl min a) := by
  induction values generalizing a with
  | nil => rfl
  | cons value rest ih => simp [ih]

theorem foldl_greatest_rational :
    (values.map rational).foldl Arithmetic.greatest (rational a) =
      rational (values.foldl max a) := by
  induction values generalizing a with
  | nil => rfl
  | cons value rest ih => simp [ih]

end Exact

end Scorecard
