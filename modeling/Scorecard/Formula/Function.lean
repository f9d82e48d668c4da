import Std.Data.TreeMap
import Scorecard.Formula.Error
import Scorecard.Text.Uppercase

/-! Functions that formulas may call, and the registry that names them. Names
do not depend on case: a registry knows a function by the upper case form. -/
namespace Scorecard.Formula

/-- How many arguments a function takes. -/
inductive Arity where
  | fixed (count : Nat)
  | variadic
  deriving DecidableEq, Repr

/-- A function; `run` gets the values of the arguments in the order written. -/
structure Function (ν : Type) where
  arity : Arity
  run : List ν → Except EvaluationError ν

/-- Call a function under a name, which is used in messages only. -/
def Function.call {ν : Type} (f : Function ν) (name : String) (arguments : List ν) :
    Except EvaluationError ν :=
  match f.arity with
  | .variadic => f.run arguments
  | .fixed count =>
    if arguments.length = count then f.run arguments
    else .error (.argumentCount name count arguments.length)

/-- Functions by the upper case form of their names. -/
structure Registry (ν : Type) where
  entries : Std.TreeMap String (Function ν)

namespace Registry

variable {ν : Type}

def empty : Registry ν := ⟨∅⟩

def get? (r : Registry ν) (name : String) : Option (Function ν) :=
  r.entries.get? (Text.uppercase name)

def contains (r : Registry ν) (name : String) : Bool :=
  (r.get? name).isSome

/-- Add a function; one already known by that name gives way. -/
def register (r : Registry ν) (name : String) (f : Function ν) : Registry ν :=
  ⟨r.entries.insert (Text.uppercase name) f⟩

/-- The registered names in ascending order. -/
def names (r : Registry ν) : List String :=
  r.entries.keys

theorem get?_empty (name : String) : (empty : Registry ν).get? name = none := by
  simp [get?, empty]

/-- The last function registered under a name is the one found; names that differ
in upper case do not touch each other. -/
theorem get?_register (r : Registry ν) (name other : String) (f : Function ν) :
    (r.register name f).get? other =
      if Text.uppercase name = Text.uppercase other then some f else r.get? other := by
  simp [get?, register, Std.TreeMap.getElem?_insert]

end Registry

end Scorecard.Formula
