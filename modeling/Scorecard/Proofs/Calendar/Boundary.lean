import Scorecard.Calendar.Bucket
import Scorecard.Proofs.Calendar.Month

/-! The boundaries of buckets. For each frequency the boundaries ascend without end over
the whole time line, so each second lies in one bucket. Rounding down goes to the boundary
before, and shifting a boundary goes from boundary to boundary. -/
namespace Scorecard.Calendar

/-! ### Timestamps by their seconds -/

namespace Timestamp

theorem ext {a b : Timestamp} (hs : a.second = b.second) (hn : a.nano = b.nano) : a = b := by
  obtain ⟨_, _, _, _, _⟩ := a
  obtain ⟨_, _, _, _, _⟩ := b
  cases hs
  cases hn
  rfl

theorem at?_eq_some_iff {second : Int} {nano : Nat} {t : Timestamp} :
    at? second nano = some t ↔ t.second = second ∧ t.nano = nano := by
  unfold at?
  split
  case isTrue h =>
    rw [Option.some.injEq]
    constructor
    · rintro rfl
      exact ⟨rfl, rfl⟩
    · rintro ⟨hs, hn⟩
      exact ext hs.symm hn.symm
  case isFalse h =>
    simp only [reduceCtorEq, false_iff]
    rintro ⟨rfl, rfl⟩
    exact h ⟨t.first_le, t.lt_end, t.nano_lt⟩

theorem at?_eq_none_iff {second : Int} {nano : Nat} (h : nano < 1000000000) :
    at? second nano = none ↔ second < firstSecond ∨ endSecond ≤ second := by
  unfold at?
  split <;> simp <;> omega

/-- Only the seconds count against a timestamp on a whole second. -/
theorem le_iff_of_nano {a b : Timestamp} (h : a.nano = 0) : a ≤ b ↔ a.second ≤ b.second := by
  show a.second < b.second ∨ (a.second = b.second ∧ a.nano ≤ b.nano) ↔ _
  omega

theorem lt_iff_of_nano {a b : Timestamp} (h : b.nano = 0) : a < b ↔ a.second < b.second := by
  show a.second < b.second ∨ (a.second = b.second ∧ a.nano < b.nano) ↔ _
  omega

theorem secondOfDay_spec (t : Timestamp) : 0 ≤ t.secondOfDay ∧ t.secondOfDay < 86400 := by
  rw [secondOfDay]
  omega

theorem second_eq (t : Timestamp) : t.second = 86400 * t.day + t.secondOfDay := by
  rw [day, secondOfDay]
  omega

theorem shiftDay_monthStart (month months : Int) :
    shiftDay (monthStart month) months = monthStart (month + months) := by
  have hlt := monthStart_lt_succ (month + months)
  simp only [shiftDay, monthOf_monthStart, monthLength]
  omega

end Timestamp

/-! ### Boundaries -/

namespace Frequency

/-- The first second of a bucket; the buckets are counted from the origin. -/
def boundary (f : Frequency) (bucket : Int) : Int :=
  match f.span with
  | .seconds length => length * bucket
  | .months length => 86400 * monthStart (length * bucket)

/-- The bucket that a second lies in. -/
def bucketOf (f : Frequency) (second : Int) : Int :=
  match f.span with
  | .seconds length => second / length
  | .months length => monthOf (second / 86400) / length

section Seconds
variable {f : Frequency} {length : Int} (h : f.span = .seconds length)
include h

theorem length_pos_of_seconds : 0 < length := by
  cases f <;> cases h <;> decide

theorem boundary_of_seconds (bucket : Int) : f.boundary bucket = length * bucket := by
  rw [boundary, h]

theorem bucketOf_of_seconds (second : Int) : f.bucketOf second = second / length := by
  rw [bucketOf, h]

end Seconds

section Months
variable {f : Frequency} {length : Int} (h : f.span = .months length)
include h

theorem length_pos_of_months : 0 < length := by
  cases f <;> cases h <;> decide

theorem boundary_of_months (bucket : Int) :
    f.boundary bucket = 86400 * monthStart (length * bucket) := by
  rw [boundary, h]

theorem bucketOf_of_months (second : Int) :
    f.bucketOf second = monthOf (second / 86400) / length := by
  rw [bucketOf, h]

end Months

theorem boundary_lt_succ (f : Frequency) (bucket : Int) :
    f.boundary bucket < f.boundary (bucket + 1) := by
  cases h : f.span with
  | seconds length =>
    have hpos := length_pos_of_seconds h
    rw [boundary_of_seconds h, boundary_of_seconds h, Int.mul_add]
    omega
  | months length =>
    have hpos := length_pos_of_months h
    have hlt : monthStart (length * bucket) < monthStart (length * (bucket + 1)) :=
      monthStart_strictMono (by rw [Int.mul_add]; omega)
    rw [boundary_of_months h, boundary_of_months h]
    omega

theorem boundary_strictMono (f : Frequency) : StrictMono f.boundary :=
  strictMono_int_of_lt_succ f.boundary_lt_succ

/-- A second lies in its bucket. -/
theorem bucketOf_spec (f : Frequency) (second : Int) :
    f.boundary (f.bucketOf second) ≤ second ∧ second < f.boundary (f.bucketOf second + 1) := by
  cases h : f.span with
  | seconds length =>
    have hpos := length_pos_of_seconds h
    have hle := Int.mul_ediv_self_le (x := second) hpos.ne'
    have hlt := Int.lt_mul_ediv_self_add (x := second) hpos
    rw [bucketOf_of_seconds h, boundary_of_seconds h, boundary_of_seconds h, Int.mul_add]
    omega
  | months length =>
    have hpos := length_pos_of_months h
    rw [bucketOf_of_months h, boundary_of_months h, boundary_of_months h]
    obtain ⟨hle, hlt⟩ := monthOf_spec (second / 86400)
    generalize monthOf (second / 86400) = month at hle hlt ⊢
    have hfirst : monthStart (length * (month / length)) ≤ monthStart month :=
      monthStart_strictMono.monotone (Int.mul_ediv_self_le hpos.ne')
    have hlast : monthStart (month + 1) ≤ monthStart (length * (month / length + 1)) := by
      have hm := Int.lt_mul_ediv_self_add (x := month) hpos
      exact monthStart_strictMono.monotone (by rw [Int.mul_add]; omega)
    omega

theorem boundary_le_iff {f : Frequency} {bucket second : Int} :
    f.boundary bucket ≤ second ↔ bucket ≤ f.bucketOf second := by
  obtain ⟨hle, hlt⟩ := f.bucketOf_spec second
  constructor
  · intro h
    exact Int.lt_add_one_iff.mp (f.boundary_strictMono.lt_iff_lt.mp (h.trans_lt hlt))
  · intro h
    exact (f.boundary_strictMono.monotone h).trans hle

theorem lt_boundary_iff {f : Frequency} {bucket second : Int} :
    second < f.boundary bucket ↔ f.bucketOf second < bucket := by
  rw [← not_le, boundary_le_iff, not_le]

theorem bucketOf_boundary (f : Frequency) (bucket : Int) :
    f.bucketOf (f.boundary bucket) = bucket := by
  refine le_antisymm ?_ (boundary_le_iff.mp le_rfl)
  exact f.boundary_strictMono.le_iff_le.mp (f.bucketOf_spec _).1

end Frequency

/-! ### Rounding and shifting -/

namespace Timestamp

open Frequency

/-- Rounding down goes to the boundary before. -/
theorem roundDown?_eq (t : Timestamp) (f : Frequency) :
    t.roundDown? f = at? (f.boundary (f.bucketOf t.second)) 0 := by
  have hsub (a length : Int) : a - a % length = length * (a / length) := by
    have h := Int.mul_ediv_add_emod a length
    omega
  unfold roundDown?
  split
  case h_1 length h => rw [bucketOf_of_seconds h, boundary_of_seconds h, hsub]
  case h_2 length h =>
    rw [bucketOf_of_months h, boundary_of_months h, ← hsub]
    rfl

/-- A boundary is shifted to a boundary. -/
theorem shift?_boundary {s : Timestamp} {f : Frequency} {bucket : Int}
    (hs : s.second = f.boundary bucket) (hn : s.nano = 0) (count : Int) :
    s.shift? f count = at? (f.boundary (bucket + count)) 0 := by
  unfold shift?
  split
  case h_1 length h =>
    rw [hs, hn, boundary_of_seconds h, boundary_of_seconds h, Int.mul_add]
  case h_2 length h =>
    rw [boundary_of_months h] at hs
    have hday : s.day = monthStart (length * bucket) := by
      rw [day, hs]
      omega
    have hsecond : s.secondOfDay = 0 := by
      rw [secondOfDay, hs]
      omega
    rw [hday, hsecond, hn, shiftDay_monthStart, boundary_of_months h, Int.mul_add, Int.add_zero]

/-- The timestamp on a boundary. -/
structure IsStart (f : Frequency) (bucket : Int) (s : Timestamp) : Prop where
  second : s.second = f.boundary bucket
  nano : s.nano = 0

variable {f : Frequency} {bucket : Int} {s t : Timestamp}

theorem IsStart.eq (hs : IsStart f bucket s) (ht : IsStart f bucket t) : s = t :=
  ext (hs.second.trans ht.second.symm) (hs.nano.trans ht.nano.symm)

theorem IsStart.bucketOf (hs : IsStart f bucket s) : f.bucketOf s.second = bucket := by
  rw [hs.second, bucketOf_boundary]

theorem IsStart.le_iff (hs : IsStart f bucket s) : s ≤ t ↔ bucket ≤ f.bucketOf t.second := by
  rw [le_iff_of_nano hs.nano, hs.second, boundary_le_iff]

theorem IsStart.lt_iff (hs : IsStart f bucket s) : t < s ↔ f.bucketOf t.second < bucket := by
  rw [lt_iff_of_nano hs.nano, hs.second, lt_boundary_iff]

theorem roundDown?_eq_some_iff :
    t.roundDown? f = some s ↔ IsStart f (f.bucketOf t.second) s := by
  rw [roundDown?_eq, at?_eq_some_iff]
  exact ⟨fun h => ⟨h.1, h.2⟩, fun h => ⟨h.second, h.nano⟩⟩

/-- What rounds down to the start of a bucket is in that bucket. -/
theorem IsStart.roundDown?_eq_iff (hs : IsStart f bucket s) :
    t.roundDown? f = some s ↔ f.bucketOf t.second = bucket := by
  rw [roundDown?_eq_some_iff]
  constructor
  · intro h
    rw [← h.bucketOf, hs.bucketOf]
  · rintro rfl
    exact hs

theorem IsStart.shift?_eq_some_iff (hs : IsStart f bucket s) {count : Int} :
    s.shift? f count = some t ↔ IsStart f (bucket + count) t := by
  rw [shift?_boundary hs.second hs.nano, at?_eq_some_iff]
  exact ⟨fun h => ⟨h.1, h.2⟩, fun h => ⟨h.second, h.nano⟩⟩

/-- The timestamp on the last whole second of a bucket. -/
structure IsLast (f : Frequency) (bucket : Int) (last : Timestamp) : Prop where
  second : last.second + 1 = f.boundary (bucket + 1)
  nano : last.nano = 0

/-- A bucket between two starts that can be represented has an end. -/
theorem IsStart.exists_isLast {next : Timestamp} (hs : IsStart f bucket s)
    (hn : IsStart f (bucket + 1) next) : ∃ last, IsLast f bucket last := by
  have hlt := f.boundary_lt_succ bucket
  rw [← hs.second, ← hn.second] at hlt
  have hfirst := s.first_le
  have hend := next.lt_end
  refine ⟨⟨next.second - 1, 0, by omega, by omega, by decide⟩, ?_, rfl⟩
  rw [← hn.second]
  exact Int.sub_add_cancel next.second 1

/-- A bucket ends one second before the start of the next. -/
theorem roundUp?_eq_some_iff {last : Timestamp} : t.roundUp? f = some last ↔
    (∃ s, IsStart f (f.bucketOf t.second) s) ∧
      (∃ next, IsStart f (f.bucketOf t.second + 1) next) ∧
      IsLast f (f.bucketOf t.second) last := by
  unfold roundUp?
  simp only [Option.bind_eq_bind, Option.bind_eq_some_iff, at?_eq_some_iff]
  constructor
  · rintro ⟨s, hs, next, hnext, hsecond, hnano⟩
    have hstart := roundDown?_eq_some_iff.mp hs
    have hn := hstart.shift?_eq_some_iff.mp hnext
    refine ⟨⟨s, hstart⟩, ⟨next, hn⟩, ?_, hnano.trans hn.nano⟩
    rw [hsecond, ← hn.second]
    omega
  · rintro ⟨⟨s, hs⟩, ⟨next, hn⟩, hlast⟩
    have hsecond := hlast.second
    rw [← hn.second] at hsecond
    exact ⟨s, roundDown?_eq_some_iff.mpr hs, next, hs.shift?_eq_some_iff.mpr hn, by omega,
      hlast.nano.trans hn.nano.symm⟩

theorem IsStart.last_of_roundUp? {last : Timestamp} (hs : IsStart f bucket s)
    (h : s.roundUp? f = some last) : ∃ next, s.shift? f 1 = some next ∧
      last.second + 1 = next.second ∧ last.nano = next.nano := by
  obtain ⟨-, ⟨next, hn⟩, hlast⟩ := roundUp?_eq_some_iff.mp h
  rw [hs.bucketOf] at hn hlast
  exact ⟨next, hs.shift?_eq_some_iff.mpr hn, hlast.second.trans hn.second.symm,
    hlast.nano.trans hn.nano.symm⟩

/-- A bucket has an end if and only if another one starts behind it. -/
theorem IsStart.exists_roundUp?_iff (hs : IsStart f bucket s) :
    (∃ last, s.roundUp? f = some last) ↔ ∃ next, s.shift? f 1 = some next := by
  constructor
  · rintro ⟨last, h⟩
    obtain ⟨next, hnext, -⟩ := hs.last_of_roundUp? h
    exact ⟨next, hnext⟩
  · rintro ⟨next, hnext⟩
    have hn := hs.shift?_eq_some_iff.mp hnext
    obtain ⟨last, hlast⟩ := hs.exists_isLast hn
    refine ⟨last, roundUp?_eq_some_iff.mpr ?_⟩
    rw [hs.bucketOf]
    exact ⟨⟨s, hs⟩, ⟨next, hn⟩, hlast⟩

end Timestamp

end Scorecard.Calendar
