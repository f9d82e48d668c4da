import Scorecard.Consolidation.Accumulator

/-! What the values of one bucket are reduced to, said without an accumulator, and that
the accumulator comes to the same whatever the arithmetic is. -/
namespace Scorecard.Kpi

variable {ν : Type} [Arithmetic ν]

/-- The weight of a value; without one it counts once. -/
def Observation.mass (o : Observation ν) : ν :=
  o.weight.getD Arithmetic.one

/-- The numbers added up from zero, from left to right. -/
def total (numbers : List ν) : ν :=
  numbers.foldl Arithmetic.add Arithmetic.zero

/-- What observations come to, in the order given. There is nothing without observations,
nor where the weights are zero in total; a formula reduces nothing. -/
def Reduction.of? (reduction : Reduction) : List (Observation ν) → Option ν
  | [] => none
  | first :: rest =>
    let values := (first :: rest).map Observation.value
    match reduction with
    | .mean => some (Arithmetic.div (total values) (Arithmetic.ofCount values.length))
    | .weighted =>
      let weights := total ((first :: rest).map Observation.mass)
      if Arithmetic.isZero weights then none
      else some (Arithmetic.div
        (total ((first :: rest).map fun o => Arithmetic.mul o.value o.mass)) weights)
    | .sum => some (total values)
    | .min => some ((rest.map Observation.value).foldl Arithmetic.least first.value)
    | .max => some ((rest.map Observation.value).foldl Arithmetic.greatest first.value)
    | .formula => none

/-- A reduction comes to nothing for two reasons only. -/
theorem Reduction.of?_eq_none_iff {reduction : Reduction} (hr : reduction ≠ .formula)
    (observations : List (Observation ν)) : reduction.of? observations = none ↔
      observations = [] ∨ (reduction = .weighted ∧
        Arithmetic.isZero (total (observations.map Observation.mass))) := by
  cases observations with
  | nil => simp [of?]
  | cons first rest =>
    cases reduction with
    | formula => contradiction
    | weighted => simp [of?]
    | mean | sum | min | max => simp [of?]

end Scorecard.Kpi

namespace Scorecard.Consolidation.Accumulator

open Kpi (Observation Reduction)

variable {ν : Type} [Arithmetic ν]

/-- Once there is a value, each field is a fold of its own. -/
theorem foldl_add (observations : List (Observation ν)) {a : Accumulator ν} (h : a.count ≠ 0) :
    observations.foldl add a =
      { count := a.count + observations.length
        sum := (observations.map Observation.value).foldl Arithmetic.add a.sum
        weightedSum := (observations.map fun o => Arithmetic.mul o.value o.mass).foldl
          Arithmetic.add a.weightedSum
        weights := (observations.map Observation.mass).foldl Arithmetic.add a.weights
        least := (observations.map Observation.value).foldl Arithmetic.least a.least
        greatest := (observations.map Observation.value).foldl
          Arithmetic.greatest a.greatest } := by
  induction observations generalizing a with
  | nil => rfl
  | cons o rest ih =>
    have hn : (a.add o).count ≠ 0 := Nat.succ_ne_zero _
    rw [List.foldl_cons, ih hn]
    simp only [add, if_neg h, List.map_cons, List.foldl_cons, List.length_cons, Observation.mass]
    congr 1
    omega

theorem finish_foldl_add (reduction : Reduction) (observations : List (Observation ν)) :
    (observations.foldl add empty).finish reduction = reduction.of? observations := by
  cases observations with
  | nil => rfl
  | cons first rest =>
    have hn : (empty.add first).count ≠ 0 := Nat.succ_ne_zero _
    have hcount : (empty.add first).count + rest.length = (first :: rest).length :=
      Nat.add_comm ..
    rw [List.foldl_cons, foldl_add rest hn, hcount]
    cases reduction with
    | mean =>
      simp only [finish, Reduction.of?, Kpi.total, List.length_map]
      rfl
    | weighted | sum | min | max | formula => rfl

end Scorecard.Consolidation.Accumulator
