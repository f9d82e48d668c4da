import Mathlib.Data.List.Basic
import Scorecard.Proofs.Calendar.Advancing

/-! Dates read one by one. Each of them is counted from the start and later than those before
it, so the first one past the end is followed by none that is not, and the walk may stop there.
It reaches every date up to its end, unless it runs out of counts first. Single steps may lead
elsewhere, since each cuts down the day of the month anew; but from the start of a bucket they
lead along the starts of the buckets, as the counts do. -/
namespace Scorecard.Calendar

open Timestamp (IsStart)

namespace Reading

variable {r s t : Reading} {f : Frequency}

theorem time_shift? {count : Nat} (h : r.shift? f count = some s) :
    r.time.shift? f count = some s.time := by
  rw [← r.map_time_shift? f (Int.natCast_nonneg count), h, Option.map_some]

theorem second_lt_of_shift? {count more : Nat} (hs : r.shift? f count = some s)
    (ht : r.shift? f more = some t) (h : count < more) : s.time.second < t.time.second := by
  rw [(Timestamp.shift?_eq_some_iff.mp (time_shift? hs)).1,
    (Timestamp.shift?_eq_some_iff.mp (time_shift? ht)).1]
  exact r.time.secondAfter_strictMono f (Int.ofNat_lt.mpr h)

/-- Where a count leads to a reading, so do all counts below it. -/
theorem exists_shift?_of_le {count more : Nat} (ht : r.shift? f more = some t)
    (h : count ≤ more) : ∃ s, r.shift? f count = some s := by
  obtain ⟨time, htime, -⟩ := Timestamp.exists_shift?_of_le (time_shift? ht) h
  rw [← r.map_time_shift? f (Int.natCast_nonneg count)] at htime
  obtain ⟨s, hs, -⟩ := Option.map_eq_some_iff.mp htime
  exact ⟨s, hs⟩

theorem advance_ofNat (r : Reading) (f : Frequency) {count : Nat} (h : count < countBound) :
    r.advance f (Int32.ofNat count) = .ok (r.shift? f count) := by
  rw [advance_eq, Int32.toInt_ofNat_of_lt h]

theorem advance_one (r : Reading) (f : Frequency) : r.advance f 1 = .ok (r.shift? f 1) :=
  r.advance_eq f 1

end Reading

/-! ### Calls -/

namespace Walk

/-- What a call for the next date gives after a number of calls before it. -/
def call (w : Walk) : (calls : Nat) → Except WidthFault (Option Reading)
  | 0 => do return (← w.next).1
  | calls + 1 => do (← w.next).2.call calls

/-- The date at a count, if it is not past the end. -/
def date? (w : Walk) (count : Nat) : Option Reading :=
  if count < countBound then (w.start.shift? w.frequency count).filter (· ≤ w.last) else none

/-- The walk before the date at a count. -/
def before (w : Walk) (count : Nat) : Walk :=
  { w with index? := narrow? count }

/-- The walk behind its end. -/
def ended (w : Walk) : Walk :=
  { w with index? := none }

variable {w : Walk} {s t : Reading}

theorem date?_eq_some_iff {count : Nat} :
    w.date? count = some t ↔
      count < countBound ∧ w.start.shift? w.frequency count = some t ∧ t ≤ w.last := by
  unfold date?
  split
  case isTrue h => simp [h, Option.filter_eq_some_iff]
  case isFalse h => simp [h]

theorem date?_lt {count more : Nat} (hs : w.date? count = some s) (ht : w.date? more = some t)
    (h : count < more) : s < t :=
  .inl (Reading.second_lt_of_shift? (date?_eq_some_iff.mp hs).2.1 (date?_eq_some_iff.mp ht).2.1 h)

/-- Where a count has a date, so have all counts below it. -/
theorem exists_date?_of_le {count more : Nat} (ht : w.date? more = some t) (h : count ≤ more) :
    ∃ s, w.date? count = some s := by
  obtain ⟨hmore, hshift, hlast⟩ := date?_eq_some_iff.mp ht
  rcases h.eq_or_lt with rfl | hlt
  · exact ⟨t, ht⟩
  · obtain ⟨s, hs⟩ := Reading.exists_shift?_of_le hshift h
    have hst := Reading.second_lt_of_shift? hs hshift hlt
    have htl := Reading.second_le hlast
    exact ⟨s, date?_eq_some_iff.mpr ⟨hlt.trans hmore, hs, .inl (hst.trans_le htl)⟩⟩

theorem date?_eq_none_of_le {count more : Nat} (hnone : w.date? count = none)
    (h : count ≤ more) : w.date? more = none := by
  refine Option.eq_none_iff_forall_ne_some.mpr fun t ht => ?_
  obtain ⟨s, hs⟩ := exists_date?_of_le ht h
  rw [hnone] at hs
  contradiction

/-- A call gives the date at its count and goes on to the next count, or else the walk ends. -/
theorem next_before (w : Walk) (count : Nat) :
    (w.before count).next =
      .ok (w.date? count, if (w.date? count).isSome then w.before (count + 1) else w.ended) := by
  cases hindex : narrow? (count : Int) with
  | none =>
    have hwide := narrow?_eq_none_iff.mp hindex
    have hdate : w.date? count = none := if_neg (by rw [countBound]; omega)
    have hended : w.before count = w.ended := by rw [before, hindex, ended]
    rw [hdate, hended]
    rfl
  | some index =>
    have htoInt := narrow?_eq_some_iff.mp hindex
    have hlt := index.toInt_lt
    have hdate : w.date? count = (w.start.shift? w.frequency count).filter (· ≤ w.last) :=
      if_pos (by rw [countBound]; omega)
    rw [hdate]
    simp only [next, before, hindex, Reading.advance_eq, htoInt, bind, Except.bind]
    cases (w.start.shift? w.frequency count).filter (· ≤ w.last) <;> rfl

theorem call_ended (w : Walk) (calls : Nat) : w.ended.call calls = .ok none := by
  induction calls with
  | zero => rfl
  | succ calls ih => exact ih

/-- One call after another gives the dates at successive counts. -/
theorem call_before (w : Walk) (calls count : Nat) :
    (w.before count).call calls = .ok (w.date? (count + calls)) := by
  induction calls generalizing count with
  | zero =>
    rw [call, next_before]
    rfl
  | succ calls ih =>
    rw [call, next_before]
    show Walk.call (if (w.date? count).isSome then w.before (count + 1) else w.ended) calls = _
    cases hdate : w.date? count with
    | none =>
      -- The walk has ended here, and no later count has a date that it would miss.
      rw [date?_eq_none_of_le hdate (Nat.le_add_right count (calls + 1))]
      exact call_ended w calls
    | some r =>
      rw [← Nat.add_assoc, Nat.add_right_comm]
      exact ih (count + 1)

theorem call_begin (start last : Reading) (f : Frequency) (calls : Nat) :
    (begin start last f).call calls = .ok ((begin start last f).date? calls) := by
  have h := call_before (begin start last f) calls 0
  rwa [Nat.zero_add] at h

/-- Without leap seconds, the dates are the items of the range. -/
theorem date?_begin_reading (r : Range) (count : Nat) :
    (begin r.start.reading r.last.reading r.frequency).date? count =
      r.items[count]?.map Timestamp.reading := by
  ext t
  rw [date?_eq_some_iff, Option.map_eq_some_iff]
  constructor
  · rintro ⟨hlt, hshift, hlast⟩
    obtain ⟨time, htime, rfl⟩ := Option.map_eq_some_iff.mp
      ((Reading.shift?_reading _ _ _).symm.trans hshift)
    exact ⟨time, Range.getElem?_items_eq_some_iff.mpr
      ⟨hlt, Range.item?_eq_some_iff.mpr ⟨htime, hlast⟩⟩, rfl⟩
  · rintro ⟨time, htime, rfl⟩
    obtain ⟨hlt, hitem⟩ := Range.getElem?_items_eq_some_iff.mp htime
    obtain ⟨hshift, hlast⟩ := Range.item?_eq_some_iff.mp hitem
    refine ⟨hlt, (Reading.shift?_reading _ _ _).trans ?_, hlast⟩
    exact Option.map_eq_some_iff.mpr ⟨time, hshift, rfl⟩

/-- A call gives the date, and no call before that gives none. -/
def Reaches (w : Walk) (t : Reading) : Prop :=
  ∃ calls, w.call calls = .ok (some t) ∧ ∀ earlier < calls, ∃ s, w.call earlier = .ok (some s)

variable {start last : Reading} {f : Frequency}

theorem reaches_begin_iff :
    (begin start last f).Reaches t ↔ ∃ count, (begin start last f).date? count = some t := by
  constructor
  · rintro ⟨calls, hcall, -⟩
    rw [call_begin] at hcall
    exact ⟨calls, Except.ok.inj hcall⟩
  · rintro ⟨count, hdate⟩
    refine ⟨count, by rw [call_begin, hdate], fun earlier hlt => ?_⟩
    obtain ⟨s, hs⟩ := exists_date?_of_le hdate hlt.le
    exact ⟨s, by rw [call_begin, hs]⟩

theorem reaches_iff_of_shift? {count : Nat} (hshift : start.shift? f count = some t)
    (hlast : t ≤ last) : (begin start last f).Reaches t ↔ count < countBound := by
  rw [reaches_begin_iff]
  constructor
  · rintro ⟨other, hdate⟩
    obtain ⟨hlt, hother, -⟩ := date?_eq_some_iff.mp hdate
    -- No other count leads to the same date.
    rwa [Timestamp.count_eq_of_shift? (Reading.time_shift? hshift) (Reading.time_shift? hother)]
  · intro hlt
    exact ⟨count, date?_eq_some_iff.mpr ⟨hlt, hshift, hlast⟩⟩

/-- A date up to the last one is reached if and only if its count is one of those there are.
Where a bucket takes a day or more, every count that leads to a date is. -/
theorem reaches_iff_lt_countBound (start last : Reading) (f : Frequency) :
    (∀ (count : Nat) (t : Reading), start.shift? f count = some t → t ≤ last →
      ((begin start last f).Reaches t ↔ count < countBound)) ∧
    (f ∉ [.hour, .minute, .second] →
      ∀ (count : Nat) (t : Reading), start.shift? f count = some t → count < countBound) := by
  constructor
  · intro count t
    exact reaches_iff_of_shift?
  · intro hf count t hshift
    exact Timestamp.lt_countBound_of_shift? hf (Reading.time_shift? hshift)

/-- From the start of 1970 there are not enough counts for the seconds up to 2038. -/
theorem last_not_reached :
    let start : Timestamp := ⟨86400 * yearStart 1970, 0, by decide, by decide, by decide⟩
    let last : Timestamp :=
      ⟨86400 * yearStart 1970 + countBound, 0, by decide, by decide, by decide⟩
    start.reading.shift? .second countBound = some last.reading ∧ last.reading ≤ last.reading ∧
      ¬ (begin start.reading last.reading .second).Reaches last.reading := by
  intro start last
  have hshift : start.reading.shift? .second countBound = some last.reading := by
    have htime : start.shift? .second countBound = some last :=
      Timestamp.shift?_eq_some_iff.mpr ⟨by decide, rfl⟩
    rw [Reading.shift?_reading, htime, Option.map_some]
  have hlast : last.reading ≤ last.reading := .inr ⟨rfl, Nat.le_refl _⟩
  refine ⟨hshift, hlast, fun h => ?_⟩
  exact Nat.lt_irrefl _ ((reaches_iff_of_shift? hshift hlast).mp h)

end Walk

namespace Range

variable {r : Range} {t : Timestamp}

/-- The items of a range are what a walk through it reaches. -/
theorem mem_items_iff_reaches :
    t ∈ r.items ↔ (Walk.begin r.start.reading r.last.reading r.frequency).Reaches t.reading := by
  have hinjective : Function.Injective Timestamp.reading := fun _ _ h => congrArg Reading.time h
  simp only [Walk.reaches_begin_iff, Walk.date?_begin_reading, ← List.getElem?_map,
    ← List.mem_iff_getElem?, List.mem_map_of_injective hinjective]

/-- So a range leaves out no date up to its last one that it has a count for. -/
theorem mem_items_iff_lt_countBound {count : Nat}
    (hshift : r.start.shift? r.frequency count = some t) (hlast : t ≤ r.last) :
    t ∈ r.items ↔ count < countBound := by
  rw [mem_items_iff_reaches]
  refine Walk.reaches_iff_of_shift? ?_ hlast
  rw [Reading.shift?_reading, hshift, Option.map_some]

end Range

/-! ### Steps -/

namespace Reading

variable {f : Frequency}

/-- A number of steps, each of one length of a bucket. -/
def steps (f : Frequency) : (count : Nat) → Reading → Except WidthFault (Option Reading)
  | 0, r => .ok (some r)
  | count + 1, r => do
    match ← r.advance f 1 with
    | some next => next.steps f count
    | none => return none

/-- The start of the bucket around a reading. -/
def roundDown? (r : Reading) (f : Frequency) : Option Reading :=
  (r.time.roundDown? f).map Timestamp.reading

theorem roundDown?_eq_some_iff {r s : Reading} :
    r.roundDown? f = some s ↔ ∃ t, IsStart f (f.bucketOf r.time.second) t ∧ t.reading = s := by
  unfold roundDown?
  rw [Option.map_eq_some_iff]
  simp only [Timestamp.roundDown?_eq_some_iff]

theorem roundDown?_eq_self_iff {r : Reading} :
    r.roundDown? f = some r ↔ ∃ bucket s, IsStart f bucket s ∧ s.reading = r := by
  unfold roundDown?
  rw [Option.map_eq_some_iff]
  constructor
  · rintro ⟨s, hs, rfl⟩
    exact ⟨_, s, Timestamp.roundDown?_eq_some_iff.mp hs, rfl⟩
  · rintro ⟨bucket, s, hs, rfl⟩
    exact ⟨s, hs.roundDown?_eq_iff.mpr hs.bucketOf, rfl⟩

end Reading

namespace Timestamp

variable {f : Frequency} {bucket : Int} {s : Timestamp} {r : Reading}

theorem IsStart.shift?_reading_eq_some_iff (hs : IsStart f bucket s) {count : Int} :
    s.reading.shift? f count = some r ↔ ∃ t, IsStart f (bucket + count) t ∧ t.reading = r := by
  rw [Reading.shift?_reading, Option.map_eq_some_iff]
  simp only [hs.shift?_eq_some_iff]

/-- One length of a bucket behind its start, the next one starts. -/
theorem IsStart.advance_one_eq_ok_iff (hs : IsStart f bucket s) :
    s.reading.advance f 1 = .ok (some r) ↔ ∃ t, IsStart f (bucket + 1) t ∧ t.reading = r := by
  rw [Reading.advance_one, Except.ok.injEq, hs.shift?_reading_eq_some_iff]

/-- From the start of a bucket, counting on from a date is counting from the start. -/
theorem IsStart.shift?_shift? (hs : IsStart f bucket s) {count : Int}
    (h : s.reading.shift? f count = some r) (more : Int) :
    r.shift? f more = s.reading.shift? f (count + more) := by
  obtain ⟨t, ht, rfl⟩ := hs.shift?_reading_eq_some_iff.mp h
  ext next
  rw [ht.shift?_reading_eq_some_iff, hs.shift?_reading_eq_some_iff, Int.add_assoc]

theorem IsStart.steps_eq (hs : IsStart f bucket s) (count : Nat) :
    s.reading.steps f count = .ok (s.reading.shift? f count) := by
  induction count generalizing bucket s with
  | zero =>
    have hself : s.reading.shift? f (0 : Nat) = some s.reading :=
      hs.shift?_reading_eq_some_iff.mpr ⟨s, by simpa using hs, rfl⟩
    rw [hself]
    rfl
  | succ count ih =>
    rw [Reading.steps, Reading.advance_one]
    cases h : s.reading.shift? f 1 with
    | none =>
      have hnone : s.reading.shift? f (count + 1 : Nat) = none := by
        refine Option.eq_none_iff_forall_ne_some.mpr fun t ht => ?_
        obtain ⟨next, hnext⟩ := Reading.exists_shift?_of_le ht (Nat.le_add_left 1 count)
        rw [Int.natCast_one, h] at hnext
        contradiction
      rw [hnone]
      rfl
    | some next =>
      have hrest := hs.shift?_shift? h count
      obtain ⟨t, ht, rfl⟩ := hs.shift?_reading_eq_some_iff.mp h
      rw [Int.natCast_add, Int.natCast_one, Int.add_comm, ← hrest]
      exact ih ht

end Timestamp

/-- The dates that a walk gives are those at the counts from its start on, as long as they are
not past its end; they ascend, and behind the last of them there is none. Where the start is
the start of a bucket, so is each date, the next one is a step away, and counting leads where
as many steps lead. -/
theorem Walk.call_counts (start last : Reading) (f : Frequency) :
    ∃ dates : Nat → Option Reading,
      (∀ k, (Walk.begin start last f).call k = .ok (dates k)) ∧
      (∀ k t, dates k = some t ↔
        k < countBound ∧ start.advance f (Int32.ofNat k) = .ok (some t) ∧ t ≤ last) ∧
      (∀ j k s t, j < k → dates j = some s → dates k = some t → s < t) ∧
      (∀ j k, j ≤ k → dates j = none → dates k = none) ∧
      (start.roundDown? f = some start →
        (∀ k t, dates k = some t → t.roundDown? f = some t) ∧
        (∀ k t next, dates k = some t → (dates (k + 1) = some next ↔
          k + 1 < countBound ∧ t.advance f 1 = .ok (some next) ∧ next ≤ last)) ∧
        ∀ k < countBound, start.steps f k = start.advance f (Int32.ofNat k)) := by
  refine ⟨(Walk.begin start last f).date?, Walk.call_begin start last f, ?_,
    fun _ _ _ _ hlt hs ht => Walk.date?_lt hs ht hlt,
    fun _ _ hle hnone => Walk.date?_eq_none_of_le hnone hle, ?_⟩
  · intro k t
    rw [Walk.date?_eq_some_iff]
    refine and_congr_right fun hk => and_congr_left' ?_
    rw [Reading.advance_ofNat _ _ hk, Except.ok.injEq]
    rfl
  · intro hstart
    obtain ⟨bucket, s, hs, rfl⟩ := Reading.roundDown?_eq_self_iff.mp hstart
    refine ⟨?_, ?_, ?_⟩
    · intro k t ht
      obtain ⟨-, hshift, -⟩ := Walk.date?_eq_some_iff.mp ht
      obtain ⟨time, htime, rfl⟩ := hs.shift?_reading_eq_some_iff.mp hshift
      exact Reading.roundDown?_eq_self_iff.mpr ⟨_, time, htime, rfl⟩
    · intro k t next ht
      obtain ⟨-, hshift, -⟩ := Walk.date?_eq_some_iff.mp ht
      rw [Walk.date?_eq_some_iff, Reading.advance_one, Except.ok.injEq, hs.shift?_shift? hshift]
      rfl
    · intro k hk
      rw [hs.steps_eq, Reading.advance_ofNat _ _ hk]

/-- From the last day of January, two months at once do not lead where two steps lead. -/
example :
    ((Pattern.dataFile.read? "2024-01-31T00:00:00").map fun r =>
      [r.advance .month 2, r.steps .month 2].map (·.toOption.join.map Reading.text)) =
    some [some "2024-03-31 00:00:00", some "2024-03-29 00:00:00"] := by
  cbv

end Scorecard.Calendar
