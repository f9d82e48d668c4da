import Scorecard.Formula.Aggregate
import Scorecard.Formula.Program

/-! Evaluating a program on a stack of values. References are asked for one at a
time as the program meets them, and the outcome lists the keys that were asked
for along with the value or the first failure. -/
namespace Scorecard.Formula

/-- Where the values of references come from; an absent key has no value. -/
abbrev Context (ν : Type) := String → Option ν

/-- The values waiting for use, latest first, and the argument counts not yet used. -/
structure Machine (ν : Type) where
  stack : List ν
  arities : List Nat

/-- What an evaluation came to, and the keys it asked for on the way. -/
structure Outcome (ν : Type) where
  result : Except EvaluationError ν
  lookups : List String

namespace Machine

variable {ν : Type} [Arithmetic ν]

def push (m : Machine ν) (value : ν) : Machine ν :=
  { m with stack := value :: m.stack }

/-- Apply the next call to its arguments, the first of which lies deepest. -/
def call (registry : Registry ν) (m : Machine ν) (name : String) :
    Except EvaluationError (Machine ν) :=
  match m.arities with
  | [] => .error (.malformedProgram (.noArgumentCount name))
  | count :: arities =>
    if m.stack.length < count then .error (.malformedProgram .stackUnderflow)
    else
      let arguments := (m.stack.take count).reverse
      match registry.get? name with
      | none => .error (.unknownFunction name)
      | some f => do
        let value ← f.call name arguments
        return ⟨value :: m.stack.drop count, arities⟩

/-- One instruction. -/
def step (context : Context ν) (registry : Registry ν) (m : Machine ν) :
    Instruction ν → Except EvaluationError (Machine ν)
  | .number value => .ok (m.push value)
  | .reference key =>
    match context key with
    | some value => .ok (m.push value)
    | none => .error (.unresolvedReference key)
  | .operator op =>
    match m.stack with
    | right :: left :: below => do
      let value ← op.apply left right
      return { m with stack := value :: below }
    | _ => .error (.malformedProgram .stackUnderflow)
  | .negate =>
    match m.stack with
    | value :: below => .ok { m with stack := Arithmetic.neg value :: below }
    | [] => .error (.malformedProgram .stackUnderflow)
  | .call name => m.call registry name

/-- The value left by a program that has ended. -/
def value (m : Machine ν) : Except EvaluationError ν :=
  if !m.arities.isEmpty then .error (.malformedProgram .unusedArgumentCounts)
  else match m.stack with
    | [value] => .ok value
    | [] => .error (.malformedProgram .emptyProgram)
    | values => .error (.malformedProgram (.valuesLeft values.length))

/-- Run instructions; `asked` holds the keys asked for so far, latest first. -/
def run (context : Context ν) (registry : Registry ν) (asked : List String) (m : Machine ν) :
    List (Instruction ν) → Outcome ν
  | [] => ⟨m.value, asked.reverse⟩
  | instruction :: rest =>
    let asked := instruction.key?.toList ++ asked
    match m.step context registry instruction with
    | .ok next => next.run context registry asked rest
    | .error e => ⟨.error e, asked.reverse⟩

end Machine

namespace Program

variable {ν : Type} [Arithmetic ν]

/-- Evaluate with the trace of the keys asked for. -/
def trace (p : Program ν) (context : Context ν) (registry : Registry ν) : Outcome ν :=
  Machine.run context registry [] ⟨[], p.arities⟩ p.instructions

def evaluate (p : Program ν) (context : Context ν) (registry : Registry ν) :
    Except EvaluationError ν :=
  (p.trace context registry).result

end Program

/-- The context in which nothing has a value. -/
def Context.none {ν : Type} : Context ν := fun _ => Option.none

end Scorecard.Formula
