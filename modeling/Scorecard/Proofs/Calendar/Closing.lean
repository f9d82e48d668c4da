import Scorecard.Proofs.Calendar.Walking

/-! The ends of buckets. A bucket ends a second before the next one starts, so its last whole
second is found by a step to the next start and a second back. That second is still in the
bucket, since a bucket is a second long at least, and it is the start only where a bucket is no
longer than that. There is no end without a next start that can be represented. -/
namespace Scorecard.Calendar

open Frequency

/-- Only the buckets of seconds are one second long. -/
theorem Frequency.boundary_succ_eq_iff (f : Frequency) (bucket : Int) :
    f.boundary (bucket + 1) = f.boundary bucket + 1 ↔ f = .second := by
  cases h : f.span with
  | seconds length =>
    rw [boundary_of_seconds h, boundary_of_seconds h, Int.mul_add]
    cases f <;> cases h <;> simp
  | months length =>
    rw [boundary_of_months h, boundary_of_months h]
    have hne : f ≠ .second := by
      rintro rfl
      contradiction
    simp only [hne, iff_false]
    omega

namespace Timestamp

variable {f : Frequency} {bucket : Int} {t last : Timestamp}

/-- The last second of a bucket is in the bucket. -/
theorem IsLast.bucketOf (h : IsLast f bucket last) : f.bucketOf last.second = bucket := by
  have hlt := f.boundary_lt_succ bucket
  have hsecond := h.second
  refine le_antisymm ?_ ?_
  · exact Int.lt_add_one_iff.mp (lt_boundary_iff.mp (by omega))
  · exact boundary_le_iff.mp (by omega)

/-- Whole seconds of a bucket are not after its last one. -/
theorem IsLast.second_le (h : IsLast f bucket last) (ht : f.bucketOf t.second = bucket) :
    t.second ≤ last.second := by
  have hlt : t.second < f.boundary (bucket + 1) := lt_boundary_iff.mpr (by omega)
  have hsecond := h.second
  omega

/-- Every whole second starts a bucket of its own. -/
theorem isStart_second (h : t.nano = 0) : IsStart .second t.second t :=
  ⟨(Int.one_mul t.second).symm, h⟩

end Timestamp

namespace Reading

open Timestamp (IsStart IsLast)

variable {f : Frequency} {r : Reading}

/-- The last whole second of the bucket around a reading. -/
def roundUp? (r : Reading) (f : Frequency) : Option Reading :=
  (r.time.roundUp? f).map Timestamp.reading

theorem roundUp?_eq_some_iff {last : Reading} : r.roundUp? f = some last ↔
    ∃ s next t, IsStart f (f.bucketOf r.time.second) s ∧
      IsStart f (f.bucketOf r.time.second + 1) next ∧
      IsLast f (f.bucketOf r.time.second) t ∧ t.reading = last := by
  unfold roundUp?
  rw [Option.map_eq_some_iff]
  simp only [Timestamp.roundUp?_eq_some_iff]
  constructor
  · rintro ⟨t, ⟨⟨s, hs⟩, ⟨next, hn⟩, ht⟩, rfl⟩
    exact ⟨s, next, t, hs, hn, ht, rfl⟩
  · rintro ⟨s, next, t, hs, hn, ht, rfl⟩
    exact ⟨t, ⟨⟨s, hs⟩, ⟨next, hn⟩, ht⟩, rfl⟩

/-- A bucket has an end if it has a start, and a step from there leads somewhere. -/
theorem exists_roundUp?_iff : (∃ last, r.roundUp? f = some last) ↔
    ∃ s next, r.roundDown? f = some s ∧ s.advance f 1 = .ok (some next) := by
  constructor
  · rintro ⟨last, h⟩
    obtain ⟨s, next, -, hs, hn, -⟩ := roundUp?_eq_some_iff.mp h
    exact ⟨s.reading, next.reading, roundDown?_eq_some_iff.mpr ⟨s, hs, rfl⟩,
      hs.advance_one_eq_ok_iff.mpr ⟨next, hn, rfl⟩⟩
  · rintro ⟨start, next, hstart, hnext⟩
    obtain ⟨s, hs, rfl⟩ := roundDown?_eq_some_iff.mp hstart
    obtain ⟨n, hn, rfl⟩ := hs.advance_one_eq_ok_iff.mp hnext
    obtain ⟨t, ht⟩ := hs.exists_isLast hn
    exact ⟨t.reading, roundUp?_eq_some_iff.mpr ⟨s, n, t, hs, hn, ht, rfl⟩⟩

theorem roundUp?_eq_none_iff : r.roundUp? f = none ↔
    r.roundDown? f = none ∨ ∃ s, r.roundDown? f = some s ∧ s.advance f 1 = .ok none := by
  rw [← Option.not_isSome_iff_eq_none, Option.isSome_iff_exists, exists_roundUp?_iff]
  cases r.roundDown? f with
  | none => simp
  | some s =>
    simp only [advance_one, Except.ok.injEq, Option.some.injEq]
    cases hs : s.shift? f 1 <;> simp [hs]

/-- Rounding up fails where rounding down does, and where the next bucket cannot start any more.
Otherwise it leads to a whole second of the bucket, a second before the next start and not before
any other whole second of the bucket, which is rounded up to itself. It is the start only where
buckets are seconds. -/
theorem roundUp?_closes (r : Reading) (f : Frequency) :
    (r.roundUp? f = none ↔
      r.roundDown? f = none ∨ ∃ s, r.roundDown? f = some s ∧ s.advance f 1 = .ok none) ∧
    ∀ last, r.roundUp? f = some last → ∃ s next,
      r.roundDown? f = some s ∧ s.advance f 1 = .ok (some next) ∧
      last.nano = 0 ∧ last.roundDown? f = some s ∧ last.advance .second 1 = .ok (some next) ∧
      (∀ other : Reading, other.nano = 0 → other.roundDown? f = some s → other ≤ last) ∧
      last.roundUp? f = some last ∧ s ≤ last ∧ (s = last ↔ f = .second) := by
  refine ⟨roundUp?_eq_none_iff, fun last h => ?_⟩
  obtain ⟨s, next, t, hs, hn, ht, rfl⟩ := roundUp?_eq_some_iff.mp h
  -- The end is in the bucket of the reading, so both have the same start and the same end.
  have hbucket : f.bucketOf t.reading.time.second = f.bucketOf r.time.second := ht.bucketOf
  have hstep : IsStart .second (t.second + 1) next := by
    have hsecond : t.second + 1 = next.second := ht.second.trans hn.second.symm
    exact hsecond ▸ Timestamp.isStart_second hn.nano
  refine ⟨s.reading, next.reading, roundDown?_eq_some_iff.mpr ⟨s, hs, rfl⟩,
    hs.advance_one_eq_ok_iff.mpr ⟨next, hn, rfl⟩, ht.nano,
    roundDown?_eq_some_iff.mpr ⟨s, hbucket ▸ hs, rfl⟩,
    (Timestamp.isStart_second ht.nano).advance_one_eq_ok_iff.mpr ⟨next, hstep, rfl⟩, ?_,
    roundUp?_eq_some_iff.mpr ⟨s, next, t, hbucket ▸ hs, hbucket ▸ hn, hbucket ▸ ht, rfl⟩, ?_, ?_⟩
  · intro other hnano hother
    obtain ⟨s', hs', hreading⟩ := roundDown?_eq_some_iff.mp hother
    obtain rfl : s' = s := congrArg Reading.time hreading
    have hle : other.time.second ≤ t.second := ht.second_le (hs'.bucketOf.symm.trans hs.bucketOf)
    show other.time.second < t.second ∨ (other.time.second = t.second ∧ other.nano ≤ t.reading.nano)
    omega
  · exact hs.reading_le_iff.mpr hbucket.ge
  · have hstart := hs.second
    have hend := ht.second
    rw [← boundary_succ_eq_iff f (f.bucketOf r.time.second)]
    constructor
    · intro heq
      have hsecond : s.second = t.second := congrArg (fun r => r.time.second) heq
      omega
    · intro hlength
      exact congrArg Timestamp.reading (Timestamp.ext (by omega) (hs.nano.trans ht.nano.symm))

end Reading

end Scorecard.Calendar
