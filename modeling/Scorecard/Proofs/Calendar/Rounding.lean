import Scorecard.Calendar.Notation
import Scorecard.Proofs.Calendar.Boundary

/-! Buckets as a partition of the time line. Rounding down sends each timestamp to the
start of its bucket, leaves starts as they are and keeps the order. It fails for nothing
but the week whose Monday comes before the first day that can be represented. Leap seconds
have their own place on the time line and round as the seconds before them. -/
namespace Scorecard.Calendar

open Frequency

namespace Timestamp

variable {f : Frequency} {t s : Timestamp}

/-- The Monday of the week around a timestamp. -/
def monday (t : Timestamp) : Int :=
  t.day - t.day % 7

theorem boundary_bucketOf_week (t : Timestamp) :
    Frequency.week.boundary (Frequency.week.bucketOf t.second) = 86400 * t.monday := by
  show 604800 * (t.second / 604800) = 86400 * (t.second / 86400 - t.second / 86400 % 7)
  omega

/-- The first second that can be represented starts a bucket, but for weeks. -/
theorem boundary_bucketOf_firstSecond (h : f ≠ .week) :
    f.boundary (f.bucketOf firstSecond) = firstSecond := by
  cases f with
  | week => contradiction
  | year | semester | month | day | hour | minute | second => rfl

theorem roundDown?_eq_none_iff :
    t.roundDown? f = none ↔ f.boundary (f.bucketOf t.second) < firstSecond := by
  have hlt := (f.bucketOf_spec t.second).1.trans_lt t.lt_end
  rw [roundDown?_eq, at?_eq_none_iff (by decide)]
  omega

theorem roundDown?_eq_none_iff_monday :
    t.roundDown? f = none ↔ f = .week ∧ t.monday < yearStart (-262143) := by
  rw [roundDown?_eq_none_iff]
  by_cases h : f = .week
  · subst h
    rw [boundary_bucketOf_week, firstSecond]
    simp only [true_and]
    omega
  · have hfirst : firstSecond ≤ f.boundary (f.bucketOf t.second) := by
      have hle := boundary_le_iff.mp ((boundary_bucketOf_firstSecond h).le.trans t.first_le)
      exact (boundary_bucketOf_firstSecond h).ge.trans (f.boundary_strictMono.monotone hle)
    simp only [h, false_and, iff_false]
    omega

/-- A bucket without a next start is the last one. -/
theorem IsStart.bucketOf_le {bucket : Int} (hs : IsStart f bucket s)
    (h : s.shift? f 1 = none) (t : Timestamp) : f.bucketOf t.second ≤ bucket := by
  have hfirst := s.first_le
  have hsucc := f.boundary_lt_succ bucket
  rw [hs.second] at hfirst
  rw [shift?_boundary hs.second hs.nano, at?_eq_none_iff (by decide)] at h
  have hlt : t.second < f.boundary (bucket + 1) := by
    have hend := t.lt_end
    omega
  exact Int.lt_add_one_iff.mp (lt_boundary_iff.mp hlt)

/-- Later seconds have later buckets, which start at or after the earlier ones. -/
theorem exists_roundDown?_of_second_le {later : Timestamp} (hle : t.second ≤ later.second)
    (h : t.roundDown? f = some s) : ∃ start, later.roundDown? f = some start ∧ s ≤ start := by
  have hs := roundDown?_eq_some_iff.mp h
  have hbucket : f.bucketOf t.second ≤ f.bucketOf later.second :=
    boundary_le_iff.mp ((f.bucketOf_spec t.second).1.trans hle)
  cases hl : later.roundDown? f with
  | none =>
    have hfirst := s.first_le
    have hmono := f.boundary_strictMono.monotone hbucket
    rw [roundDown?_eq_none_iff, ← hs.second] at *
    omega
  | some start =>
    have hstart := roundDown?_eq_some_iff.mp hl
    refine ⟨start, rfl, hs.le_iff.mpr ?_⟩
    rwa [hstart.bucketOf]

end Timestamp

/-! ### The time line with its leap seconds -/

namespace Reading

theorem second_le {a b : Reading} (h : a ≤ b) : a.time.second ≤ b.time.second := by
  rcases h with h | ⟨h, -⟩ <;> omega

end Reading

namespace Timestamp

variable {f : Frequency} {s : Timestamp}

/-- A timestamp that is no leap second. -/
def reading (t : Timestamp) : Reading :=
  ⟨t, false⟩

theorem IsStart.reading_le_iff {bucket : Int} (hs : IsStart f bucket s) {r : Reading} :
    s.reading ≤ r ↔ bucket ≤ f.bucketOf r.time.second := by
  have hnano : s.reading.nano = 0 := hs.nano
  rw [← boundary_le_iff, ← hs.second]
  show s.second < r.time.second ∨ (s.second = r.time.second ∧ s.reading.nano ≤ r.nano) ↔ _
  omega

theorem IsStart.lt_reading_iff {bucket : Int} (hs : IsStart f bucket s) {r : Reading} :
    r < s.reading ↔ f.bucketOf r.time.second < bucket := by
  have hnano : s.reading.nano = 0 := hs.nano
  rw [← lt_boundary_iff, ← hs.second]
  show r.time.second < s.second ∨ (r.time.second = s.second ∧ r.nano < s.reading.nano) ↔ _
  omega

/-- A bucket reaches from its start up to the start of the next, which is in a bucket of
its own; a bucket without a next one holds all that comes later. Starts round down to
themselves, and rounding down keeps the order. It fails only for a week, and only when the
Monday of that week cannot be represented. A leap second is in the bucket of the second
before it. -/
theorem roundDown?_partitions (f : Frequency) :
    (∀ (r : Reading) (s next : Timestamp), r.time.roundDown? f = some s →
      s.shift? f 1 = some next → s.reading ≤ r ∧ r < next.reading ∧
        (∀ other : Reading, s.reading ≤ other → other < next.reading →
          other.time.roundDown? f = some s) ∧
        next.roundDown? f = some next) ∧
    (∀ (r : Reading) (s : Timestamp), r.time.roundDown? f = some s → s.shift? f 1 = none →
      ∀ other : Reading, s.reading ≤ other → other.time.roundDown? f = some s) ∧
    (∀ t s : Timestamp, t.roundDown? f = some s → s.roundDown? f = some s) ∧
    (∀ (r later : Reading) (s : Timestamp), r ≤ later → r.time.roundDown? f = some s →
      ∃ start, later.time.roundDown? f = some start ∧ s ≤ start) ∧
    ∀ t : Timestamp, t.roundDown? f = none ↔ f = .week ∧ t.monday < yearStart (-262143) := by
  refine ⟨?_, ?_, ?_, ?_, fun _ => roundDown?_eq_none_iff_monday⟩
  · intro r s next h hnext
    have hs := roundDown?_eq_some_iff.mp h
    have hn := hs.shift?_eq_some_iff.mp hnext
    refine ⟨hs.reading_le_iff.mpr le_rfl, hn.lt_reading_iff.mpr (Int.lt_add_one_of_le le_rfl),
      ?_, hn.roundDown?_eq_iff.mpr hn.bucketOf⟩
    intro other hle hlt
    have hge := hs.reading_le_iff.mp hle
    have hgt := hn.lt_reading_iff.mp hlt
    exact hs.roundDown?_eq_iff.mpr (by omega)
  · intro r s h hnone other hle
    have hs := roundDown?_eq_some_iff.mp h
    exact hs.roundDown?_eq_iff.mpr
      (le_antisymm (hs.bucketOf_le hnone other.time) (hs.reading_le_iff.mp hle))
  · intro t s h
    have hs := roundDown?_eq_some_iff.mp h
    exact hs.roundDown?_eq_iff.mpr hs.bucketOf
  · intro r later s hle
    exact exists_roundDown?_of_second_le (Reading.second_le hle)

/-- The week of 29 February 2024 starts on the 26th. -/
example :
    let february := monthStart (12 * 2024 + 1)
    let leapDay : Timestamp :=
      ⟨86400 * (february + 28) + 3600, 0, by decide, by decide, by decide⟩
    (leapDay.roundDown? .week).map Timestamp.day = some (february + 25) := by
  decide +kernel

end Timestamp

end Scorecard.Calendar
