import Scorecard.Consolidation.Grid
import Scorecard.Proofs.Calendar.Range
import Scorecard.Proofs.Consolidation.Reduction
import Scorecard.Proofs.Fallible

/-! Raw values on a grid. The starts of a grid are those of successive buckets, so halving
finds each of them, and each bucket is reduced from just the values that lie in it. -/
namespace Scorecard.Consolidation.Grid

open Calendar (Frequency Timestamp)
open Calendar.Timestamp (IsStart)
open Kpi (Observation Reduction)

/-- The starts are those of successive buckets, the first of them that of bucket `first`. -/
def Aligned (g : Grid) (first : Int) : Prop :=
  ∀ (i : Nat) (t : Timestamp), g.starts[i]? = some t → IsStart g.frequency (first + i) t

variable {g : Grid} {first bucket : Int} {t : Timestamp} {i : Nat}

theorem aligned_of_covering? {start last : Timestamp} {frequency : Frequency}
    (h : covering? start last frequency = some g) :
    g.frequency = frequency ∧ g.Aligned (frequency.bucketOf start.second) := by
  obtain ⟨s, hs, rfl⟩ := Option.map_eq_some_iff.mp h
  refine ⟨rfl, fun i t hi => ?_⟩
  rw [List.getElem?_toArray] at hi
  exact Calendar.Range.isStart_of_item? (Timestamp.roundDown?_eq_some_iff.mp hs)
    (Calendar.Range.item?_of_getElem?_items hi)

/-- A bucket before another one ends where that one starts, so only the last may lack an
end. -/
theorem Aligned.exists_ends?_iff (hg : g.Aligned first) : (∃ ends, g.ends? = some ends) ↔
    ∀ s ∈ g.starts.toList.getLast?, ∃ last, s.roundUp? g.frequency = some last := by
  rw [ends?, exists_mapM_eq_some_iff]
  constructor
  · intro h s hs
    exact h s (List.mem_of_getLast? hs)
  · intro h s hs
    obtain ⟨i, hi⟩ := List.mem_iff_getElem?.mp hs
    cases hnext : g.starts.toList[i + 1]? with
    | none =>
      refine h s ?_
      have hlast : i = g.starts.toList.length - 1 := by
        have hlt := (List.getElem?_eq_some_iff.mp hi).1
        have hge := List.getElem?_eq_none_iff.mp hnext
        omega
      rwa [List.getLast?_eq_getElem?, ← hlast]
    | some next =>
      rw [Array.getElem?_toList] at hi hnext
      have hstart := hg (i + 1) next hnext
      rw [Int.natCast_succ, ← Int.add_assoc] at hstart
      exact (hg i s hi).exists_roundUp?_iff.mpr
        ⟨next, (hg i s hi).shift?_eq_some_iff.mpr hstart⟩

/-! ### Finding a bucket -/

/-- Each half that is left out lies before or behind the start that is looked for. -/
theorem Aligned.search_eq_some_iff (hg : g.Aligned first) (ht : IsStart g.frequency bucket t)
    {low high : Nat} (hhigh : high ≤ g.size) :
    search g.starts t low high = some i ↔ low ≤ i ∧ i < high ∧ first + i = bucket := by
  fun_induction search g.starts t low high with
  | case1 low high hlt middle hnone =>
    have hmiddle := Array.getElem?_eq_none_iff.mp hnone
    unfold size at hhigh
    omega
  | case2 low high hlt middle hsome =>
    have hb : first + middle = bucket := (hg middle t hsome).bucketOf.symm.trans ht.bucketOf
    rw [Option.some.injEq]
    omega
  | case3 low high hlt middle s hsome hne hless ih =>
    have hb : first + middle < bucket := by
      rw [← (hg middle s hsome).bucketOf]
      exact ht.lt_iff.mp hless
    rw [ih hhigh]
    omega
  | case4 low high hlt middle s hsome hne hless ih =>
    have hs := hg middle s hsome
    have hle : bucket ≤ first + middle := by
      rw [← hs.bucketOf, ← not_lt, ← ht.lt_iff]
      exact hless
    have hb : first + middle ≠ bucket := by
      rintro rfl
      exact hne (hs.eq ht)
    rw [ih (by omega)]
    omega
  | case5 low high hlt =>
    simp only [reduceCtorEq, false_iff]
    omega

theorem Aligned.index?_eq_some_iff (hg : g.Aligned first) (ht : IsStart g.frequency bucket t) :
    g.index? t = some i ↔ i < g.size ∧ first + i = bucket := by
  rw [index?, hg.search_eq_some_iff ht le_rfl]
  simp only [Nat.zero_le, true_and]

/-! ### Reducing values -/

variable {ν : Type} [Arithmetic ν]

theorem size_collect? {buckets next : Array (Accumulator ν)} {o : Observation ν}
    (h : g.collect? buckets o = some next) : next.size = buckets.size := by
  obtain ⟨t, -, rfl⟩ := Option.map_eq_some_iff.mp h
  split
  · exact Array.size_modify
  · rfl

theorem size_of_reduce? {reduction : Reduction} {raw : List (Observation ν)}
    {series : Array (Option ν)} (h : g.reduce? reduction raw = some series) :
    series.size = g.size := by
  obtain ⟨result, hr, rfl⟩ := Option.map_eq_some_iff.mp h
  have hsize : ∀ start : Array (Accumulator ν), raw.foldlM g.collect? start = some result →
      result.size = start.size := by
    clear h hr
    induction raw with
    | nil =>
      intro start hf
      cases hf
      rfl
    | cons o rest ih =>
      intro start hf
      obtain ⟨next, hn, hf⟩ := Option.bind_eq_some_iff.mp hf
      rw [ih next hf, size_collect? hn]
  rw [Array.size_map, hsize _ hr, Array.size_replicate]

/-- Values can be reduced where the bucket of each of them has a start. -/
theorem exists_reduce?_iff {reduction : Reduction} {raw : List (Observation ν)} :
    (∃ series, g.reduce? reduction raw = some series) ↔
      ∀ o ∈ raw, ∃ start, o.time.roundDown? g.frequency = some start := by
  have hfold (buckets : Array (Accumulator ν)) : (raw.foldlM g.collect? buckets).isSome ↔
      ∀ o ∈ raw, ∃ start, o.time.roundDown? g.frequency = some start := by
    induction raw generalizing buckets with
    | nil => simp
    | cons o rest ih =>
      rw [List.foldlM_cons, List.forall_mem_cons]
      cases h : o.time.roundDown? g.frequency with
      | none => simp [collect?, h]
      | some start => simp [collect?, h, ih]
  rw [← hfold (Array.replicate g.size Accumulator.empty), reduce?, ← Option.isSome_iff_exists,
    Option.isSome_map]

/-- The values of a bucket, in the order given. -/
def inBucket (g : Grid) (bucket : Int) (raw : List (Observation ν)) : List (Observation ν) :=
  raw.filter fun o => g.frequency.bucketOf o.time.second = bucket

/-- A value is added in its own bucket only. -/
theorem Aligned.getElem?_collect? (hg : g.Aligned first) {buckets next : Array (Accumulator ν)}
    {o : Observation ν} (hsize : buckets.size = g.size) (h : g.collect? buckets o = some next) :
    next[i]? = (buckets[i]?).map (List.foldl Accumulator.add · (g.inBucket (first + i) [o])) := by
  obtain ⟨t, ht, rfl⟩ := Option.map_eq_some_iff.mp h
  have hstart := Timestamp.roundDown?_eq_some_iff.mp ht
  split
  case h_1 index hi =>
    obtain ⟨-, hb⟩ := (hg.index?_eq_some_iff hstart).mp hi
    rw [Array.getElem?_modify, inBucket]
    split
    case isTrue heq => simp [← hb, heq]
    case isFalse hne =>
      have hother : first + index ≠ first + i := by omega
      simp [← hb, hother]
  case h_2 hi =>
    cases hs : buckets[i]? with
    | none => rfl
    | some a =>
      have hlt := (Array.getElem?_eq_some_iff.mp hs).1
      have hother : g.frequency.bucketOf o.time.second ≠ first + i := fun hb =>
        Option.eq_none_iff_forall_ne_some.mp hi i
          ((hg.index?_eq_some_iff hstart).mpr ⟨hsize ▸ hlt, hb.symm⟩)
      simp [inBucket, hother]

theorem Aligned.getElem?_foldlM_collect? (hg : g.Aligned first) {raw : List (Observation ν)}
    {buckets result : Array (Accumulator ν)} (hsize : buckets.size = g.size)
    (h : raw.foldlM g.collect? buckets = some result) :
    result[i]? = (buckets[i]?).map (List.foldl Accumulator.add · (g.inBucket (first + i) raw)) := by
  induction raw generalizing buckets with
  | nil =>
    cases h
    exact Option.map_id'.symm
  | cons o rest ih =>
    obtain ⟨next, hn, h⟩ := Option.bind_eq_some_iff.mp h
    have happ : g.inBucket (first + i) (o :: rest) =
        g.inBucket (first + i) [o] ++ g.inBucket (first + i) rest :=
      List.filter_append [o] rest
    rw [ih ((size_collect? hn).trans hsize) h, hg.getElem?_collect? hsize hn, Option.map_map, happ]
    simp only [Function.comp_def, List.foldl_append]

/-- The series has for each bucket what the values in it are reduced to. -/
theorem Aligned.getElem?_reduce? (hg : g.Aligned first) {reduction : Reduction}
    {raw : List (Observation ν)} {series : Array (Option ν)}
    (h : g.reduce? reduction raw = some series) (hi : i < g.size) :
    series[i]? = some (reduction.of? (g.inBucket (first + i) raw)) := by
  obtain ⟨result, hr, rfl⟩ := Option.map_eq_some_iff.mp h
  rw [Array.getElem?_map, hg.getElem?_foldlM_collect? Array.size_replicate hr,
    Array.getElem?_replicate, if_pos hi, Option.map_some, Option.map_some,
    Accumulator.finish_foldl_add]

end Scorecard.Consolidation.Grid
