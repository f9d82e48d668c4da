import Mathlib.Data.List.Chain
import Scorecard.Proofs.Calendar.Cutting
import Scorecard.Proofs.Calendar.Rounding
import Scorecard.Proofs.Consolidation.Observations

/-! The buckets of a report on the time line. All series have the same buckets, which start
with the one around the start of the run and follow each other up to its end. A bucket ends
with the last whole second before the next one starts. -/
namespace Scorecard.Consolidation

open Calendar (Frequency Range Reading Timestamp countBound)
open Calendar.Timestamp (IsStart)

variable {ν : Type}

/-- The starts of successive buckets from the one around the start of a run on. None of them is
after its end, and the one that would come next is, unless the counts run out. If the run does not
start after its end, there is a bucket, and the first one holds the start of the run, which may be
a leap second. -/
structure IsGrid (r : Request ν) (starts : List Timestamp) : Prop where
  first : ∀ s ∈ starts.head?, r.start.roundDown? r.frequency = some s
  isStart : ∀ s ∈ starts, s.roundDown? r.frequency = some s
  le_last : ∀ s ∈ starts, s ≤ r.last
  next : starts.IsChain fun s next => s.shift? r.frequency 1 = some next
  reaches : starts.length < countBound → ∀ s ∈ starts.getLast?, ∀ next,
    s.shift? r.frequency 1 = some next → r.last < next
  holds (earliest latest : Reading) : earliest.time = r.start → latest.time = r.last →
    earliest ≤ latest → ∃ s ∈ starts.head?, s.reading ≤ earliest ∧
      ∀ next, s.shift? r.frequency 1 = some next → earliest < next.reading

/-- Each bucket ends one second before the start that comes next. So the buckets ascend and
do not overlap, and there is no whole second between one and the next. -/
structure Tiles (frequency : Frequency) (buckets : List (Bucket ν)) : Prop where
  last : ∀ bucket ∈ buckets, ∃ next, bucket.start.shift? frequency 1 = some next ∧
    bucket.last.second + 1 = next.second ∧ bucket.last.nano = next.nano
  start_le_last : ∀ bucket ∈ buckets, bucket.start ≤ bucket.last
  disjoint : buckets.Pairwise fun earlier later => earlier.last < later.start
  gapless : buckets.IsChain fun earlier later =>
    ∀ t : Timestamp, t.nano = 0 → ¬ (earlier.last < t ∧ t < later.start)

/-! ### The starts of a grid -/

theorem isGrid_of_covering? {r : Request ν} {grid : Grid}
    (h : Grid.covering? r.start r.last r.frequency = some grid) :
    IsGrid r grid.starts.toList := by
  obtain ⟨first, hfirst, rfl⟩ := Option.map_eq_some_iff.mp h
  have hstart : IsStart r.frequency (r.frequency.bucketOf r.start.second) first :=
    Timestamp.roundDown?_eq_some_iff.mp hfirst
  show IsGrid r (Range.mk first r.last r.frequency).items
  have hitem {i : Nat} {t : Timestamp}
      (hi : (Range.mk first r.last r.frequency).items[i]? = some t) :
      t ≤ r.last ∧ IsStart r.frequency (r.frequency.bucketOf r.start.second + i) t :=
    ⟨Range.le_last_of_item? (Range.item?_of_getElem?_items hi),
      Range.isStart_of_item? hstart (Range.item?_of_getElem?_items hi)⟩
  refine ⟨?_, ?_, ?_, ?_, ?_, ?_⟩
  · intro s hs
    rw [List.head?_eq_getElem?] at hs
    rw [Timestamp.roundDown?_eq_some_iff]
    simpa using (hitem hs).2
  · intro s hs
    obtain ⟨i, hi⟩ := List.mem_iff_getElem?.mp hs
    exact (hitem hi).2.roundDown?_eq_iff.mpr (hitem hi).2.bucketOf
  · intro s hs
    obtain ⟨i, hi⟩ := List.mem_iff_getElem?.mp hs
    exact (hitem hi).1
  · refine List.isChain_iff_getElem.mpr fun i hi => ?_
    have hthis := (hitem (List.getElem?_eq_getElem (Nat.lt_of_succ_lt hi))).2
    have hnext := (hitem (List.getElem?_eq_getElem hi)).2
    rw [Int.natCast_succ, ← Int.add_assoc] at hnext
    exact hthis.shift?_eq_some_iff.mpr hnext
  · intro hcount s hs next hnext
    rw [List.getLast?_eq_getElem?] at hs
    obtain ⟨count, hlength⟩ :
        ∃ count, (Range.mk first r.last r.frequency).items.length = count + 1 :=
      Nat.exists_eq_add_one.mpr (Nat.zero_lt_of_lt (List.getElem?_eq_some_iff.mp hs).1)
    have hn := (hitem hs).2.shift?_eq_some_iff.mp hnext
    rw [hlength, Nat.add_sub_cancel, Int.add_assoc, ← Int.natCast_succ] at hn
    rw [hn.lt_iff]
    by_contra hge
    -- If it were not after the end, it would be an item behind the last one.
    have hlast : (Range.mk first r.last r.frequency).item? (count + 1) = some next :=
      (Range.item?_iff_isStart hstart).mpr ⟨hn, hn.le_iff.mpr (Int.not_lt.mp hge)⟩
    have hget := (Range.getElem?_items_iff hcount).mpr hlast
    exact (List.getElem?_eq_some_iff.mp hget).1.ne hlength.symm
  · intro earliest latest he hl hle
    have hseconds := Reading.second_le hle
    rw [he, hl] at hseconds
    have hboundary := (r.frequency.bucketOf_spec r.start.second).1.trans hseconds
    have hfirst_le : first ≤ r.last := hstart.le_iff.mpr (Frequency.boundary_le_iff.mp hboundary)
    refine ⟨first, ?_, hstart.reading_le_iff.mpr (by rw [he]), fun next hnext => ?_⟩
    · rw [Range.head?_items]
      exact Range.item?_zero_of_isStart hstart hfirst_le
    · rw [(hstart.shift?_eq_some_iff.mp hnext).lt_reading_iff, he]
      omega

/-! ### The ends of buckets -/

theorem Successive.tiles {frequency : Frequency} {first : Int} {buckets : List (Bucket ν)}
    (hb : Successive frequency first buckets)
    (hlast : ∀ bucket ∈ buckets, bucket.start.roundUp? frequency = some bucket.last) :
    Tiles frequency buckets := by
  -- A bucket ends on the second before the boundary behind it.
  have hat {i : Nat} {bucket : Bucket ν} (hi : buckets[i]? = some bucket) :
      bucket.start.second = frequency.boundary (first + i) ∧ bucket.start.nano = 0 ∧
        bucket.last.second + 1 = frequency.boundary (first + i + 1) ∧ bucket.last.nano = 0 := by
    have hs := (hb i bucket hi).1
    obtain ⟨next, hnext, hsecond, hnano⟩ :=
      hs.last_of_roundUp? (hlast bucket (List.mem_of_getElem? hi))
    have hn := hs.shift?_eq_some_iff.mp hnext
    exact ⟨hs.second, hs.nano, hsecond.trans hn.second, hnano.trans hn.nano⟩
  refine ⟨?_, ?_, ?_, ?_⟩
  · intro bucket hm
    obtain ⟨i, hi⟩ := List.mem_iff_getElem?.mp hm
    exact (hb i bucket hi).1.last_of_roundUp? (hlast bucket hm)
  · intro bucket hm
    obtain ⟨i, hi⟩ := List.mem_iff_getElem?.mp hm
    obtain ⟨hstart, hnano, hend, -⟩ := hat hi
    have hlt := frequency.boundary_lt_succ (first + i)
    rw [Timestamp.le_iff_of_nano hnano]
    omega
  · refine List.pairwise_iff_getElem.mpr fun i j hi hj hij => ?_
    obtain ⟨-, -, hend, -⟩ := hat (List.getElem?_eq_getElem hi)
    obtain ⟨hstart, hnano, -, -⟩ := hat (List.getElem?_eq_getElem hj)
    have hmono : frequency.boundary (first + i + 1) ≤ frequency.boundary (first + j) :=
      frequency.boundary_strictMono.monotone (by omega)
    rw [Timestamp.lt_iff_of_nano hnano]
    omega
  · refine List.isChain_iff_getElem.mpr fun i hi t ht => ?_
    obtain ⟨-, -, hend, hlastNano⟩ := hat (List.getElem?_eq_getElem (Nat.lt_of_succ_lt hi))
    obtain ⟨hstart, hnano, -, -⟩ := hat (List.getElem?_eq_getElem hi)
    rw [Int.natCast_succ, ← Int.add_assoc] at hstart
    rw [Timestamp.lt_iff_of_nano ht, Timestamp.lt_iff_of_nano hnano]
    omega

variable [Arithmetic ν]

theorem Stages.roundUp?_of_mem_series {r : Request ν} {report : Report ν} (s : Stages r report)
    {name : String} {buckets : List (Bucket ν)} (h : (name, buckets) ∈ report.series) :
    ∀ bucket ∈ buckets, bucket.start.roundUp? r.frequency = some bucket.last := by
  obtain ⟨spans, hspans, hall⟩ := s.exists_spans_series
  obtain ⟨hbuckets, hends⟩ := hall name buckets h
  have hmap := mapM_eq_some hends
  rw [← hspans, List.map_map, List.map_map, (Grid.aligned_of_covering? s.covering).1] at hmap
  intro bucket hm
  have hspan : bucket.span ∈ spans := hbuckets ▸ List.mem_map_of_mem hm
  exact List.map_inj_left.mp hmap bucket.span hspan

/-- Each definition has a series, and all series have the same buckets. They start on a grid that
begins around the start of the run, and they tile the time from there on. -/
theorem run_tiles {r : Request ν} {report : Report ν} (h : run r = .ok report) :
    ∃ spans : List (Timestamp × Timestamp), IsGrid r (spans.map Prod.fst) ∧
      (∀ d ∈ r.definitions, ∃ buckets, (d.name, buckets) ∈ report.series) ∧
      ∀ name buckets, (name, buckets) ∈ report.series →
        buckets.map Bucket.span = spans ∧ Tiles r.frequency buckets := by
  obtain ⟨s⟩ := exists_stages h
  obtain ⟨spans, hspans, hall⟩ := s.exists_spans_series
  refine ⟨spans, hspans ▸ isGrid_of_covering? s.covering, fun d hd => s.exists_mem_series hd,
    fun name buckets hm => ?_⟩
  obtain ⟨hl, values, hvalues⟩ := s.lookup_of_mem_series hm
  exact ⟨(hall name buckets hm).1, (s.successive hvalues hl).tiles (s.roundUp?_of_mem_series hm)⟩

theorem run_tiles_leapYear : ∃ report, run leapYear = .ok report ∧
    ∃ spans : List (Timestamp × Timestamp), IsGrid leapYear (spans.map Prod.fst) ∧
      (∀ d ∈ leapYear.definitions, ∃ buckets, (d.name, buckets) ∈ report.series) ∧
      ∀ name buckets, (name, buckets) ∈ report.series →
        buckets.map Bucket.span = spans ∧ Tiles leapYear.frequency buckets := by
  obtain ⟨report, h⟩ : ∃ report, run leapYear = .ok report := exists_eq_ok (by decide +kernel)
  exact ⟨report, h, run_tiles h⟩

end Scorecard.Consolidation
