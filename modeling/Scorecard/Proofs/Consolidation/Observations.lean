import Scorecard.Proofs.Consolidation.Report

/-! What a report says of the raw values. Each bucket has what the values in it are reduced
to; each value is in at most one bucket, and none is lost between the first bucket and the
last. -/
namespace Scorecard.Consolidation

open Calendar (Frequency Timestamp monthStart)
open Calendar.Timestamp (IsStart)
open Kpi (Definition Observation Reduction)

variable {ν : Type}

/-- Whether a time is in a bucket, which reaches from its start up to the next start. -/
def Bucket.holds (frequency : Frequency) (bucket : Bucket ν) (t : Timestamp) : Bool :=
  (bucket.start.shift? frequency 1).any fun next => bucket.start ≤ t ∧ t < next

/-- The raw values of a name that are in a bucket, in the order in which they are added. -/
def Request.observed (r : Request ν) (name : String) (bucket : Bucket ν) :
    List (Observation ν) :=
  (r.values name).filter fun o => bucket.holds r.frequency o.time

/-! ### Times in buckets -/

/-- The buckets follow each other from bucket `first` on, and each has a next start. -/
def Successive (frequency : Frequency) (first : Int) (buckets : List (Bucket ν)) : Prop :=
  ∀ (i : Nat) (bucket : Bucket ν), buckets[i]? = some bucket →
    IsStart frequency (first + i) bucket.start ∧
      ∃ next, bucket.start.shift? frequency 1 = some next

namespace Successive

variable {frequency : Frequency} {first : Int} {buckets : List (Bucket ν)}
  (hb : Successive frequency first buckets)
include hb

theorem holds_iff {i : Nat} {bucket : Bucket ν} (hi : buckets[i]? = some bucket) (t : Timestamp) :
    bucket.holds frequency t ↔ frequency.bucketOf t.second = first + i := by
  obtain ⟨hs, next, hnext⟩ := hb i bucket hi
  have hn := hs.shift?_eq_some_iff.mp hnext
  simp only [Bucket.holds, hnext, Option.any_some, decide_eq_true_eq, hs.le_iff, hn.lt_iff]
  omega

/-- A time has one place only. -/
theorem existsUnique {t : Timestamp} (h : ∃ bucket ∈ buckets, bucket.holds frequency t) :
    ∃! i : Nat, ∃ bucket, buckets[i]? = some bucket ∧ bucket.holds frequency t := by
  obtain ⟨bucket, hm, hholds⟩ := h
  obtain ⟨i, hi⟩ := List.mem_iff_getElem?.mp hm
  refine ⟨i, ⟨bucket, hi, hholds⟩, ?_⟩
  rintro j ⟨other, hj, hother⟩
  have hplace := (hb.holds_iff hi t).mp hholds
  have hsame := (hb.holds_iff hj t).mp hother
  omega

/-- There is no gap between two buckets. -/
theorem exists_holds {earlier later : Bucket ν} (he : earlier ∈ buckets) (hl : later ∈ buckets)
    {t last : Timestamp} (hle : earlier.start ≤ t)
    (hlast : later.start.shift? frequency 1 = some last) (hlt : t < last) :
    ∃ bucket ∈ buckets, bucket.holds frequency t := by
  obtain ⟨i, hi⟩ := List.mem_iff_getElem?.mp he
  obtain ⟨j, hj⟩ := List.mem_iff_getElem?.mp hl
  have hfrom := (hb i earlier hi).1.le_iff.mp hle
  have hto := ((hb j later hj).1.shift?_eq_some_iff.mp hlast).lt_iff.mp hlt
  have hsize := (List.getElem?_eq_some_iff.mp hj).1
  -- The number of the bucket around `t` lies between those of the two buckets.
  obtain ⟨k, hk⟩ := Int.eq_ofNat_of_zero_le (a := frequency.bucketOf t.second - first) (by omega)
  have hlength : k < buckets.length := by omega
  have hget := List.getElem?_eq_getElem hlength
  exact ⟨buckets[k], List.getElem_mem hlength, (hb.holds_iff hget t).mpr (by omega)⟩

end Successive

/-! ### The report of a run -/

theorem Grid.Aligned.exists_next {grid : Grid} {first : Int} {ends : List Timestamp} {i : Nat}
    {t : Timestamp} (hg : grid.Aligned first) (he : grid.ends? = some ends)
    (ht : grid.starts[i]? = some t) : ∃ next, t.shift? grid.frequency 1 = some next := by
  have hm := List.mem_of_getElem? (Array.getElem?_toList.trans ht)
  exact (hg i t ht).exists_roundUp?_iff.mp (exists_mapM_eq_some_iff.mp ⟨ends, he⟩ t hm)

variable [Arithmetic ν]

namespace Stages

variable {r : Request ν} {report : Report ν} (s : Stages r report)

theorem exists_ends {name : String} {values : Array (Option ν)}
    (h : s.table.get? name = some values) : ∃ ends, s.grid.ends? = some ends := by
  obtain ⟨spans, -, hends, -⟩ := s.exists_spans
  exact ⟨_, hends (Table.isEmpty_eq_false h)⟩

theorem start_of_lookup {name : String} {buckets : List (Bucket ν)}
    (h : report.series.lookup name = some buckets) :
    buckets.map Bucket.start = s.grid.starts.toList :=
  s.start_of_mem_series (mem_of_lookup_eq_some h)

theorem successive {name : String} {values : Array (Option ν)} {buckets : List (Bucket ν)}
    (h : s.table.get? name = some values) (hb : report.series.lookup name = some buckets) :
    Successive r.frequency (r.frequency.bucketOf r.start.second) buckets := by
  obtain ⟨hf, hg⟩ := Grid.aligned_of_covering? s.covering
  obtain ⟨ends, he⟩ := s.exists_ends h
  intro i bucket hi
  have ht : s.grid.starts[i]? = some bucket.start := by
    rw [← Array.getElem?_toList, ← s.start_of_lookup hb, List.getElem?_map, hi, Option.map_some]
  rw [← hf] at hg ⊢
  exact ⟨hg i _ ht, hg.exists_next he ht⟩

/-- A bucket holds the values at its place on the grid. -/
theorem inBucket_eq {name : String} {values : Array (Option ν)} {buckets : List (Bucket ν)}
    {i : Nat} {bucket : Bucket ν} (h : s.table.get? name = some values)
    (hb : report.series.lookup name = some buckets) (hi : buckets[i]? = some bucket)
    (raw : List (Observation ν)) :
    s.grid.inBucket (r.frequency.bucketOf r.start.second + i) raw =
      raw.filter fun o => bucket.holds r.frequency o.time := by
  refine List.filter_congr fun o _ => ?_
  rw [Bool.eq_iff_iff, decide_eq_true_eq, (s.successive h hb).holds_iff hi,
    (Grid.aligned_of_covering? s.covering).1]

/-- A bucket has what the values that it holds are reduced to. -/
theorem value_reduced {name : String} {reduction : Reduction} {values : Array (Option ν)}
    {buckets : List (Bucket ν)} (hr : s.grid.reduce? reduction (r.values name) = some values)
    (h : s.table.get? name = some values) (hb : report.series.lookup name = some buckets) :
    ∀ bucket ∈ buckets, bucket.value = reduction.of? (r.observed name bucket) := by
  intro bucket hm
  obtain ⟨i, hi⟩ := List.mem_iff_getElem?.mp hm
  obtain ⟨-, hg⟩ := Grid.aligned_of_covering? s.covering
  obtain ⟨hlt, hvalue⟩ := s.getElem?_series h hb hi
  rw [hg.getElem?_reduce? hr hlt, s.inBucket_eq h hb hi] at hvalue
  exact (Option.some.inj hvalue).symm

end Stages

/-- The buckets of a series that is reduced from raw values. They are those of the grid of
the request. Each has what the values in it are reduced to, in the order in which they are
added; there is nothing where there are no values or no weight. A time is in one bucket at
most, and in one if it lies between the start of a bucket and the end of another. -/
structure Reduces (r : Request ν) (d : Definition ν) (buckets : List (Bucket ν)) : Prop where
  starts : ∃ grid, Grid.covering? r.start r.last r.frequency = some grid ∧
    buckets.map Bucket.start = grid.starts.toList
  next : ∀ bucket ∈ buckets, ∃ next, bucket.start.shift? r.frequency 1 = some next
  value : ∀ bucket ∈ buckets, bucket.value = d.reduction.of? (r.observed d.name bucket)
  value_eq_none_iff : ∀ bucket ∈ buckets, bucket.value = none ↔ r.observed d.name bucket = [] ∨
    (d.reduction = .weighted ∧
      Arithmetic.isZero (Kpi.total ((r.observed d.name bucket).map Observation.mass)))
  unique (t : Timestamp) : (∃ bucket ∈ buckets, bucket.holds r.frequency t) →
    ∃! i : Nat, ∃ bucket, buckets[i]? = some bucket ∧ bucket.holds r.frequency t
  gapless : ∀ earlier ∈ buckets, ∀ later ∈ buckets, ∀ t last : Timestamp, earlier.start ≤ t →
    later.start.shift? r.frequency 1 = some last → t < last →
      ∃ bucket ∈ buckets, bucket.holds r.frequency t

theorem run_reduces {r : Request ν} {report : Report ν} (h : run r = .ok report)
    {d : Definition ν} (hd : d ∈ r.definitions) (hf : d.isFormula = false) :
    ∃ buckets, report.series.lookup d.name = some buckets ∧ Reduces r d buckets := by
  obtain ⟨s⟩ := exists_stages h
  obtain ⟨values, hreduce, hvalues⟩ := s.get?_of_not_formula hd hf
  obtain ⟨buckets, hb, -⟩ := s.lookup_series hvalues
  have hsuccessive := s.successive hvalues hb
  have hvalue := s.value_reduced hreduce hvalues hb
  have hreduction : d.reduction ≠ .formula := by simpa [Definition.isFormula] using hf
  refine ⟨buckets, hb, ⟨s.grid, s.covering, s.start_of_lookup hb⟩, ?_, hvalue, ?_, ?_, ?_⟩
  · intro bucket hm
    obtain ⟨i, hi⟩ := List.mem_iff_getElem?.mp hm
    exact (hsuccessive i bucket hi).2
  · intro bucket hm
    rw [hvalue bucket hm, Reduction.of?_eq_none_iff hreduction]
  · intro t
    exact hsuccessive.existsUnique
  · intro earlier he later hl t last
    exact hsuccessive.exists_holds he hl

/-- A rate that is weighted by what it counts for. -/
def rate : Definition Float := ⟨"rate", none, .weighted, none, none, none⟩

/-- Values of the last hour of February and the first of March, the later one first. -/
def leapYear : Request Float where
  definitions := [rate]
  values _ := [
    ⟨⟨86400 * monthStart (12 * 2024 + 2), 0, by decide, by decide, Nat.succ_pos _⟩, 4, none⟩,
    ⟨⟨86400 * monthStart (12 * 2024 + 2) - 1, 999999999, by decide, by decide, by decide⟩, 2,
      some 0.5⟩]
  start := ⟨86400 * (monthStart (12 * 2024 + 1) + 13), 0, by decide, by decide, Nat.succ_pos _⟩
  last := ⟨86400 * (monthStart (12 * 2024 + 2) + 13), 0, by decide, by decide, Nat.succ_pos _⟩
  frequency := .month
  strict := true

theorem run_reduces_leapYear : ∃ report, run leapYear = .ok report ∧
    ∃ buckets, report.series.lookup "rate" = some buckets ∧ Reduces leapYear rate buckets := by
  have hok : (run leapYear).isOk = true := by decide +kernel
  cases h : run leapYear with
  | ok report => exact ⟨report, rfl, run_reduces h List.mem_cons_self rfl⟩
  | error fault =>
    rw [h] at hok
    contradiction

end Scorecard.Consolidation
