import Mathlib.Algebra.BigOperators.Group.List.Defs
import Scorecard.Formula.Aggregate
import Scorecard.Proofs.Consolidation.Reduction
import Scorecard.Proofs.Number.Exact

/-! Values reduced in two ways. A series reduces the raw values of a bucket with a running
accumulator, and a formula reduces its arguments with an aggregate. In exact arithmetic both
come to the sum, the mean, the extremes and the weighted mean of the values, and neither has a
weighted mean where the weights are zero in total. -/
namespace Scorecard.Kpi

/-! ### Rational values -/

/-- A rational value among the exact numbers. -/
def Observation.exact (o : Observation Rat) : Observation Exact :=
  ⟨o.time, .rational o.value, o.weight.map .rational⟩

/-- The weight of a rational value; without one it counts once. -/
def Observation.share (o : Observation Rat) : Rat :=
  o.weight.getD 1

/-- What rational values come to. -/
def Reduction.rational? (reduction : Reduction) (observations : List (Observation Rat)) :
    Option Rat :=
  let values := observations.map Observation.value
  let weights := observations.map Observation.share
  match reduction with
  | .mean => some (values.sum / values.length)
  | .weighted =>
    if weights.sum = 0 then none
    else some ((observations.map fun o => o.value * o.share).sum / weights.sum)
  | .sum => some values.sum
  | .min => values.min?
  | .max => values.max?
  | .formula => none

theorem Observation.mass_exact (o : Observation Rat) : o.exact.mass = .rational o.share := by
  obtain ⟨time, value, weight⟩ := o
  cases weight with
  | none => rfl
  | some weight => rfl

section Maps
variable (observations : List (Observation Rat))

theorem map_value_exact : (observations.map Observation.exact).map Observation.value =
    (observations.map Observation.value).map Exact.rational := by
  rw [List.map_map, List.map_map]
  rfl

theorem map_mass_exact : (observations.map Observation.exact).map Observation.mass =
    (observations.map Observation.share).map Exact.rational := by
  rw [List.map_map, List.map_map]
  congr 1
  funext o
  exact o.mass_exact

theorem map_product_exact :
    (observations.map Observation.exact).map (fun o => Arithmetic.mul o.value o.mass) =
      (observations.map fun o => o.value * o.share).map Exact.rational := by
  rw [List.map_map, List.map_map]
  congr 1
  funext o
  show Arithmetic.mul (.rational o.value) o.exact.mass = .rational (o.value * o.share)
  rw [o.mass_exact, Exact.mul_rational]

end Maps

theorem total_rational (values : List Rat) :
    total (values.map Exact.rational) = .rational values.sum := by
  rw [total, Exact.zero_eq, Exact.foldl_add_rational, zero_add]

/-- In exact arithmetic a reduction is worked out as in the rational numbers. -/
theorem Reduction.of?_exact (reduction : Reduction) (first : Observation Rat)
    (rest : List (Observation Rat)) :
    reduction.of? ((first :: rest).map Observation.exact) =
      (reduction.rational? (first :: rest)).map .rational := by
  have hvalues := map_value_exact (first :: rest)
  have hweights := map_mass_exact (first :: rest)
  have hproducts := map_product_exact (first :: rest)
  rw [List.map_cons] at hvalues hweights hproducts
  rw [List.map_cons]
  cases reduction with
  | mean =>
    have hlength : ((first :: rest).length : Rat) ≠ 0 := by
      simp [Nat.cast_add_one_ne_zero]
    simp only [of?, rational?, hvalues, total_rational, List.length_map, Exact.ofCount_eq,
      Exact.div_rational _ _ hlength, Option.map_some]
  | weighted =>
    simp only [of?, rational?, hweights, hproducts, total_rational, Exact.isZero_rational]
    generalize ((first :: rest).map Observation.share).sum = weights
    by_cases h : weights = 0
    · simp [h]
    · simp [h, Exact.div_rational]
  | sum => simp only [of?, rational?, hvalues, total_rational, Option.map_some]
  | min =>
    simp only [of?, rational?, map_value_exact]
    exact congrArg some (Exact.foldl_least_rational _ _)
  | max =>
    simp only [of?, rational?, map_value_exact]
    exact congrArg some (Exact.foldl_greatest_rational _ _)
  | formula => rfl

end Scorecard.Kpi

namespace Scorecard.Formula.Aggregate

open Kpi (Observation Reduction)

/-! ### Rational arguments -/

/-- What an aggregate answers that has a result unless it divides by zero. -/
def answer (result : Option Rat) : Except EvaluationError Exact :=
  result.elim (.error .divisionByZero) fun value => .ok (.rational value)

theorem answer_eq_ok_iff {result : Option Rat} {x : Exact} :
    answer result = .ok x ↔ result.map .rational = some x := by
  cases result <;> simp [answer]

theorem answer_eq_error_iff {result : Option Rat} :
    answer result = .error .divisionByZero ↔ result.map Exact.rational = none := by
  cases result <;> simp [answer]

theorem total_rational (values : List Rat) :
    Arithmetic.total (values.map Exact.rational) = .rational values.sum := by
  have h := Exact.foldl_add_rational 0 values
  rwa [zero_add] at h

/-- The values and their weights in turn. -/
def pairs (observations : List (Observation Rat)) : List Exact :=
  observations.flatMap fun o => [.rational o.value, .rational o.share]

theorem weigh_pairs (observations : List (Observation Rat)) (total weights : Rat) :
    weigh (.rational total, .rational weights) (pairs observations) =
      (.rational (total + (observations.map fun o => o.value * o.share).sum),
        .rational (weights + (observations.map Observation.share).sum)) := by
  induction observations generalizing total weights with
  | nil => simp [pairs, weigh]
  | cons o rest ih =>
    have hpairs : pairs (o :: rest) = .rational o.value :: .rational o.share :: pairs rest := rfl
    rw [hpairs, weigh, Exact.mul_rational, Exact.add_rational, Exact.add_rational, ih]
    simp [add_assoc]

theorem length_pairs (observations : List (Observation Rat)) :
    (pairs observations).length = 2 * observations.length := by
  induction observations with
  | nil => rfl
  | cons o rest ih =>
    have hpairs : pairs (o :: rest) = .rational o.value :: .rational o.share :: pairs rest := rfl
    rw [hpairs, List.length_cons, List.length_cons, List.length_cons, ih]
    omega

variable (first : Observation Rat) (rest : List (Observation Rat))

theorem sum_exact :
    sum (((first :: rest).map Observation.value).map Exact.rational) =
      answer (Reduction.sum.rational? (first :: rest)) := by
  rw [sum, total_rational]
  rfl

theorem mean_exact :
    mean (((first :: rest).map Observation.value).map Exact.rational) =
      answer (Reduction.mean.rational? (first :: rest)) := by
  have hlength : (((first :: rest).map Observation.value).length : Rat) ≠ 0 := by
    simp [Nat.cast_add_one_ne_zero]
  show Except.ok (Arithmetic.div (Arithmetic.total _) (Arithmetic.ofCount _)) = _
  rw [total_rational, Exact.ofCount_eq, List.length_map, Exact.div_rational _ _ hlength]
  rfl

theorem minimum_exact :
    minimum (((first :: rest).map Observation.value).map Exact.rational) =
      answer (Reduction.min.rational? (first :: rest)) := by
  show Except.ok (((rest.map Observation.value).map Exact.rational).foldl Arithmetic.least
    (Arithmetic.least Arithmetic.top (.rational first.value))) = _
  rw [Exact.least_top, Exact.foldl_least_rational]
  rfl

theorem maximum_exact :
    maximum (((first :: rest).map Observation.value).map Exact.rational) =
      answer (Reduction.max.rational? (first :: rest)) := by
  show Except.ok (((rest.map Observation.value).map Exact.rational).foldl Arithmetic.greatest
    (Arithmetic.greatest Arithmetic.bottom (.rational first.value))) = _
  rw [Exact.greatest_bottom, Exact.foldl_greatest_rational]
  rfl

theorem weighted_exact :
    weighted (pairs (first :: rest)) = answer (Reduction.weighted.rational? (first :: rest)) := by
  have heven : ((pairs (first :: rest)).length % 2 != 0) = false := by
    rw [length_pairs]
    simp
  have hrequired : requireArguments "WEIGHTED" (pairs (first :: rest)) = .ok () := rfl
  simp only [weighted, hrequired, heven, Exact.zero_eq, weigh_pairs, zero_add,
    Exact.isZero_rational, Reduction.rational?]
  generalize ((first :: rest).map Observation.share).sum = weights
  by_cases h : weights = 0
  · simp [h, answer, bind, Except.bind]
  · simp [h, answer, bind, Except.bind, Exact.div_rational]

end Scorecard.Formula.Aggregate

namespace Scorecard.Consolidation.Accumulator

open Formula
open Kpi (Observation Reduction)

/-- The accumulator that rational values are taken into, one after another. -/
def collect (observations : List (Observation Rat)) : Accumulator Exact :=
  (observations.map Observation.exact).foldl add empty

theorem finish_collect (reduction : Reduction) (first : Observation Rat)
    (rest : List (Observation Rat)) :
    (collect (first :: rest)).finish reduction =
      (reduction.rational? (first :: rest)).map .rational := by
  rw [collect, finish_foldl_add, Reduction.of?_exact]

/-- Values without weights have their mean for a weighted mean. -/
theorem rational?_weighted {observations : List (Observation Rat)} (hne : observations ≠ [])
    (h : ∀ o ∈ observations, o.weight = none) :
    Reduction.weighted.rational? observations = Reduction.mean.rational? observations := by
  have hlength : (observations.length : Rat) ≠ 0 := by
    simpa using hne
  have hone : ∀ o ∈ observations, o.share = 1 := by
    intro o ho
    rw [Observation.share, h o ho, Option.getD_none]
  have hshares : observations.map Observation.share = List.replicate observations.length 1 :=
    List.map_eq_replicate_iff.mpr hone
  have hweights : (observations.map Observation.share).sum = observations.length := by
    rw [hshares, List.sum_replicate, nsmul_one]
  have hproducts : observations.map (fun o => o.value * o.share) =
      observations.map Observation.value := by
    apply List.map_congr_left
    intro o ho
    rw [hone o ho, mul_one]
  simp only [Reduction.rational?, hweights, hproducts, List.length_map, if_neg hlength]

theorem add_weighed (a : Accumulator Exact) (o : Observation Rat) :
    a.add (Observation.exact { o with weight := some (o.weight.getD 1) }) = a.add o.exact := by
  obtain ⟨time, value, weight⟩ := o
  cases weight with
  | none => rfl
  | some weight => rfl

theorem collect_weighed (observations : List (Observation Rat)) :
    collect (observations.map fun o => { o with weight := some (o.weight.getD 1) }) =
      collect observations := by
  rw [collect, collect, List.map_map, List.foldl_map, List.foldl_map]
  congr 1
  funext a o
  exact a.add_weighed o

/-- Rational values, at least one of them, are reduced by the aggregates as by the accumulator, and
by both as among the rational numbers. The weighted aggregate takes the values and their weights in
turn, and divides by zero where the accumulator has nothing. A missing weight is as good as the
weight one, and without any weights the weighted mean is the mean. -/
theorem finish_meets_aggregates (first : Observation Rat) (rest : List (Observation Rat)) :
    let observations := first :: rest
    let values := (observations.map Observation.value).map Exact.rational
    let a := collect observations
    (∀ x, Aggregate.sum values = .ok x ↔ a.finish .sum = some x) ∧
    (∀ x, Aggregate.mean values = .ok x ↔ a.finish .mean = some x) ∧
    (∀ x, Aggregate.minimum values = .ok x ↔ a.finish .min = some x) ∧
    (∀ x, Aggregate.maximum values = .ok x ↔ a.finish .max = some x) ∧
    (∀ x, Aggregate.weighted (Aggregate.pairs observations) = .ok x ↔
      a.finish .weighted = some x) ∧
    (Aggregate.weighted (Aggregate.pairs observations) = .error .divisionByZero ↔
      a.finish .weighted = none) ∧
    (∀ reduction, a.finish reduction = (reduction.rational? observations).map .rational) ∧
    collect (observations.map fun o => { o with weight := some (o.weight.getD 1) }) = a ∧
    ((∀ o ∈ observations, o.weight = none) → a.finish .weighted = a.finish .mean) := by
  intro observations values a
  have hfinish (reduction : Reduction) :
      a.finish reduction = (reduction.rational? observations).map .rational :=
    finish_collect reduction first rest
  have hok (reduction : Reduction) {result : Except EvaluationError Exact}
      (hresult : result = Aggregate.answer (reduction.rational? observations)) (x : Exact) :
      result = .ok x ↔ a.finish reduction = some x := by
    rw [hresult, hfinish, Aggregate.answer_eq_ok_iff]
  have hweighted := Aggregate.weighted_exact first rest
  refine ⟨hok .sum (Aggregate.sum_exact first rest), hok .mean (Aggregate.mean_exact first rest),
    hok .min (Aggregate.minimum_exact first rest), hok .max (Aggregate.maximum_exact first rest),
    hok .weighted hweighted, ?_, hfinish, collect_weighed observations, ?_⟩
  · rw [hweighted, hfinish, Aggregate.answer_eq_error_iff]
  · intro h
    rw [hfinish, hfinish, rational?_weighted (List.cons_ne_nil first rest) h]

end Scorecard.Consolidation.Accumulator
