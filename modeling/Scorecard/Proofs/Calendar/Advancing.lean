import Scorecard.Calendar.Advance
import Scorecard.Proofs.Calendar.Counting
import Scorecard.Proofs.Calendar.Rounding

/-! Advancing in numbers of a fixed width. No count is too large for the numbers on the way:
a count of buckets that does not fit once it is turned into months leads out of the time line
anyway, and a count turned into seconds always fits. So a reading is advanced by just as many
seconds or months as a count stands for, and only the ends of the time line stop it. -/
namespace Scorecard.Calendar

/-! ### Numbers that fit -/

theorem narrow?_eq_some_iff {n : Int} {narrow : Int32} :
    narrow? n = some narrow ↔ narrow.toInt = n := by
  unfold narrow?
  split
  case isTrue h =>
    rw [Option.some.injEq]
    constructor
    · rintro rfl
      exact Int32.toInt_ofInt_of_le h.1 (by omega)
    · rintro rfl
      exact Int32.ofInt_toInt narrow
  case isFalse h =>
    have hle := narrow.le_toInt
    have hlt := narrow.toInt_lt
    simp only [reduceCtorEq, false_iff]
    omega

theorem narrow?_eq_none_iff {n : Int} :
    narrow? n = none ↔ n < -2147483648 ∨ 2147483647 < n := by
  unfold narrow?
  split <;> simp <;> omega

theorem product_eq_ok {a b : Int64} {n : Int} (hn : a.toInt * b.toInt = n)
    (hle : -9223372036854775808 ≤ n) (hlt : n ≤ 9223372036854775807) :
    ∃ c, product a b = .ok c ∧ c.toInt = n := by
  subst hn
  exact ⟨_, if_pos ⟨hle, hlt⟩, Int64.toInt_ofInt_of_le hle (by omega)⟩

theorem toNat_magnitude (n : Int32) : (magnitude n).toNat = n.toInt.natAbs := by
  have hle := n.le_toInt
  have hlt := n.toInt_lt
  have hsize : n.toInt.natAbs < UInt32.size := by
    rw [UInt32.size]
    omega
  exact UInt32.toNat_ofNat_of_lt' hsize

namespace Duration

theorem ofSeconds_eq_ok (seconds : Int64) (h : seconds.toInt.natAbs * 1000 ≤ 9223372036854775807) :
    ∃ d, ofSeconds seconds = .ok d ∧ d.seconds = seconds :=
  ⟨⟨seconds, h⟩, dif_pos h, rfl⟩

theorem ofUnits_eq_ok {unit count : Int64} {n : Int} (hn : count.toInt * unit.toInt = n)
    (h : n.natAbs * 1000 ≤ 9223372036854775807) :
    ∃ d, ofUnits unit count = .ok d ∧ d.seconds.toInt = n := by
  obtain ⟨seconds, hs, hseconds⟩ := product_eq_ok hn (by omega) (by omega)
  rw [← hseconds] at h ⊢
  obtain ⟨d, hd, hlength⟩ := ofSeconds_eq_ok seconds h
  refine ⟨d, ?_, congrArg Int64.toInt hlength⟩
  rw [ofUnits, hs]
  exact hd

end Duration

namespace Timestamp

/-- The day of the month, counted from zero. -/
def dayOfMonth (t : Timestamp) : Int :=
  t.day - monthStart (monthOf t.day)

theorem monthOf_shiftDay (day months : Int) :
    monthOf (shiftDay day months) = monthOf day + months :=
  monthOf_eq_iff.mpr (shiftDay_spec day months)

theorem day_eq_shiftDay_iff (t s : Timestamp) (months : Int) :
    s.day = shiftDay t.day months ↔ monthOf s.day = monthOf t.day + months ∧
      s.dayOfMonth = min t.dayOfMonth (monthLength (monthOf t.day + months) - 1) := by
  constructor
  · intro h
    have hmonth := monthOf_shiftDay t.day months
    rw [dayOfMonth, dayOfMonth, h, hmonth, shiftDay]
    omega
  · rintro ⟨hmonth, h⟩
    rw [dayOfMonth, dayOfMonth, hmonth] at h
    rw [shiftDay]
    omega

theorem monthOf_day_spec (t : Timestamp) :
    12 * (-262143) ≤ monthOf t.day ∧ monthOf t.day < 12 * 262143 := by
  have hfirst := t.first_le
  have hlast := t.lt_end
  have hspec := t.secondOfDay_spec
  rw [t.second_eq] at hfirst hlast
  rw [firstSecond] at hfirst
  rw [endSecond] at hlast
  rw [← not_lt, monthOf_lt_iff, monthOf_lt_iff, monthStart_year, monthStart_year]
  omega

end Timestamp

namespace Reading

/-! ### So many months ahead -/

/-- So many months ahead, or back, at the same time of the day, on the same day of the month
if the month is long enough, else on its last day. -/
structure MonthsAhead (r : Reading) (months : Int) (x : Reading) : Prop where
  month : monthOf x.time.day = monthOf r.time.day + months
  day : x.time.dayOfMonth = min r.time.dayOfMonth (monthLength (monthOf r.time.day + months) - 1)
  secondOfDay : x.time.secondOfDay = r.time.secondOfDay
  nano : x.time.nano = r.time.nano
  leap : x.leap = r.leap

variable {r x : Reading}

theorem map_at?_eq_some_iff {second : Int} {nano : Nat} {leap : Bool} :
    (Timestamp.at? second nano).map (Reading.mk · leap) = some x ↔
      x.time.second = second ∧ x.time.nano = nano ∧ x.leap = leap := by
  rw [Option.map_eq_some_iff]
  constructor
  · rintro ⟨time, htime, rfl⟩
    obtain ⟨hsecond, hnano⟩ := Timestamp.at?_eq_some_iff.mp htime
    exact ⟨hsecond, hnano, rfl⟩
  · rintro ⟨hsecond, hnano, rfl⟩
    exact ⟨x.time, Timestamp.at?_eq_some_iff.mpr ⟨hsecond, hnano⟩, rfl⟩

theorem addMonths?_eq_some_iff {months : Int} :
    r.addMonths? months = some x ↔ MonthsAhead r months x := by
  have hr := r.time.secondOfDay_spec
  have hx := x.time.secondOfDay_spec
  have heq := x.time.second_eq
  have hday := Timestamp.day_eq_shiftDay_iff r.time x.time months
  rw [addMonths?, map_at?_eq_some_iff]
  constructor
  · rintro ⟨hsecond, hnano, hleap⟩
    obtain ⟨hmonth, hd⟩ := hday.mp (by omega)
    exact ⟨hmonth, hd, by omega, hnano, hleap⟩
  · rintro ⟨hmonth, hd, hsecond, hnano, hleap⟩
    have hshift := hday.mpr ⟨hmonth, hd⟩
    exact ⟨by omega, hnano, hleap⟩

theorem addMonths?_eq_none_iff {months : Int} :
    r.addMonths? months = none ↔ monthOf r.time.day + months < 12 * (-262143) ∨
      12 * 262143 ≤ monthOf r.time.day + months := by
  have hr := r.time.secondOfDay_spec
  rw [← Timestamp.monthOf_shiftDay, ← not_lt (b := 12 * 262143), monthOf_lt_iff, monthOf_lt_iff,
    monthStart_year, monthStart_year, addMonths?, Option.map_eq_none_iff,
    Timestamp.at?_eq_none_iff r.time.nano_lt, firstSecond, endSecond]
  omega

theorem moveMonths?_eq (r : Reading) (months : Int32) :
    r.moveMonths? months = r.addMonths? months.toInt := by
  unfold moveMonths?
  rw [toNat_magnitude]
  split
  case isTrue h =>
    rw [Int.natAbs_of_nonneg (Int32.le_iff_toInt_le.mp h)]
  case isFalse h =>
    have hneg : months.toInt < 0 := not_le.mp fun hle => h (Int32.le_iff_toInt_le.mpr hle)
    rw [Int.ofNat_natAbs_of_nonpos hneg.le, Int.neg_neg]

/-- A number of months that does not fit is larger than the time line. -/
theorem bind_narrow?_moveMonths? (r : Reading) (months : Int) :
    (narrow? months).bind r.moveMonths? = r.addMonths? months := by
  cases h : narrow? months with
  | some narrow => rw [Option.bind_some, moveMonths?_eq, narrow?_eq_some_iff.mp h]
  | none =>
    have hwide := narrow?_eq_none_iff.mp h
    have hspec := r.time.monthOf_day_spec
    exact (addMonths?_eq_none_iff.mpr (by omega)).symm

/-! ### So many seconds ahead -/

/-- The seconds up to a reading, on the time line that has the second of `r`, if it is a leap
second, but no other leap second. -/
def place (r x : Reading) : Int :=
  x.time.second + if r.leap ∧ r ≤ x then 1 else 0

/-- The first second past that time line. -/
def placeBound (r : Reading) : Int :=
  endSecond + if r.leap then 1 else 0

/-- So many seconds ahead, or back, at the same part of a second. -/
structure SecondsAhead (r : Reading) (seconds : Int) (x : Reading) : Prop where
  place : r.place x = r.place r + seconds
  nano : x.time.nano = r.time.nano
  leap : x.leap → x = r

theorem le_iff_of_leap (hr : r.leap = true) (hx : x.leap = false) :
    r ≤ x ↔ r.time.second < x.time.second := by
  have hlt := x.time.nano_lt
  show r.time.second < x.time.second ∨ (r.time.second = x.time.second ∧ r.nano ≤ x.nano) ↔ _
  simp only [nano, hr, hx, if_true, Bool.false_eq_true, if_false]
  omega

theorem place_self (r : Reading) : r.place r = r.time.second + if r.leap then 1 else 0 := by
  have hle : r ≤ r := .inr ⟨rfl, le_rfl⟩
  simp only [place, hle, and_true]

theorem place_of_leap (hr : r.leap = true) (hx : x.leap = false) :
    r.place x = x.time.second + if r.time.second < x.time.second then 1 else 0 := by
  simp only [place, hr, le_iff_of_leap hr hx, true_and]

theorem place_of_not_leap (hr : r.leap = false) (x : Reading) : r.place x = x.time.second := by
  simp [place, hr]

theorem secondsAhead_iff_of_not_leap (hr : r.leap = false) {seconds : Int} :
    SecondsAhead r seconds x ↔
      x.time.second = r.time.second + seconds ∧ x.time.nano = r.time.nano ∧ x.leap = false := by
  have hself : r.place r = r.time.second := place_of_not_leap hr r
  have hplace := place_of_not_leap hr x
  constructor
  · rintro ⟨hp, hnano, hleap⟩
    refine ⟨by omega, hnano, ?_⟩
    by_contra hx
    have heq := hleap (by simpa using hx)
    rw [heq] at hx
    exact hx hr
  · rintro ⟨hsecond, hnano, hx⟩
    exact ⟨by omega, hnano, by simp [hx]⟩

/-- From a leap second on, the time line goes on with the second after it; before it, it ends
with the second that has its number. -/
theorem secondsAhead_iff_of_leap (hr : r.leap = true) {seconds : Int} (hne : seconds ≠ 0) :
    SecondsAhead r seconds x ↔
      x.time.second = r.time.second + (if seconds < 0 then 1 else 0) + seconds ∧
        x.time.nano = r.time.nano ∧ x.leap = false := by
  have hself : r.place r = r.time.second + 1 := by rw [place_self, if_pos hr]
  constructor
  · rintro ⟨hp, hnano, hleap⟩
    have hx : x.leap = false := by
      by_contra hx
      rw [hleap (by simpa using hx)] at hp
      omega
    rw [place_of_leap hr hx] at hp
    exact ⟨by split at hp <;> split <;> omega, hnano, hx⟩
  · rintro ⟨hsecond, hnano, hx⟩
    refine ⟨?_, hnano, by simp [hx]⟩
    rw [place_of_leap hr hx]
    split at hsecond <;> split <;> omega

theorem secondsAhead_zero_iff_of_leap (hr : r.leap = true) : SecondsAhead r 0 x ↔ x = r := by
  constructor
  · rintro ⟨hp, -, hleap⟩
    apply hleap
    by_contra hx
    rw [place_of_leap hr (by simpa using hx), place_self, if_pos hr] at hp
    split at hp <;> omega
  · rintro rfl
    exact ⟨by omega, rfl, fun _ => rfl⟩

theorem addSeconds?_eq_some_iff {seconds : Int} :
    r.addSeconds? seconds = some x ↔ SecondsAhead r seconds x := by
  unfold addSeconds?
  split
  case isTrue h =>
    obtain ⟨hr, rfl⟩ := h
    rw [secondsAhead_zero_iff_of_leap hr, Option.some.injEq, eq_comm]
  case isFalse h =>
    rw [map_at?_eq_some_iff]
    cases hr : r.leap with
    | false => simp [secondsAhead_iff_of_not_leap hr]
    | true => simp [secondsAhead_iff_of_leap hr fun hzero => h ⟨hr, hzero⟩]

theorem addSeconds?_eq_none_iff {seconds : Int} :
    r.addSeconds? seconds = none ↔
      r.place r + seconds < firstSecond ∨ r.placeBound ≤ r.place r + seconds := by
  have hfirst := r.time.first_le
  have hlast := r.time.lt_end
  rw [place_self, placeBound]
  unfold addSeconds?
  split
  case isTrue h =>
    obtain ⟨hr, rfl⟩ := h
    simp only [hr, if_true, reduceCtorEq, false_iff]
    omega
  case isFalse h =>
    rw [Option.map_eq_none_iff, Timestamp.at?_eq_none_iff r.time.nano_lt]
    cases hr : r.leap with
    | false => simp
    | true =>
      have hne : seconds ≠ 0 := fun hzero => h ⟨hr, hzero⟩
      simp only [true_and, if_true]
      split <;> omega

/-! ### So many lengths of a bucket ahead -/

/-- The reading `count` lengths of a bucket later, whatever the width of the count. -/
def shift? (r : Reading) (f : Frequency) (count : Int) : Option Reading :=
  match f.span with
  | .seconds length => r.addSeconds? (length * count)
  | .months length => r.addMonths? (length * count)

theorem addUnits_eq (r : Reading) {unit count : Int64} {n : Int}
    (hn : count.toInt * unit.toInt = n) (h : n.natAbs * 1000 ≤ 9223372036854775807) :
    (do return r.addSeconds? (← Duration.ofUnits unit count).seconds.toInt) =
      Except.ok (r.addSeconds? n) := by
  obtain ⟨d, hd, hseconds⟩ := Duration.ofUnits_eq_ok hn h
  rw [hd, ← hseconds]
  rfl

/-- On the way, nothing leaves its width. -/
theorem advance_eq (r : Reading) (f : Frequency) (count : Int32) :
    r.advance f count = .ok (r.shift? f count.toInt) := by
  have hle := count.le_toInt
  have hlt := count.toInt_lt
  have hwide (unit : Int64) {length : Int} (h : unit.toInt = length) :
      count.toInt64.toInt * unit.toInt = length * count.toInt := by
    rw [count.toInt_toInt64, h, Int.mul_comm]
  cases f with
  | year =>
    show Except.ok ((narrow? (count.toInt * 12)).bind r.moveMonths?) = _
    rw [bind_narrow?_moveMonths?, Int.mul_comm]
    rfl
  | semester =>
    show Except.ok ((narrow? (count.toInt * 6)).bind r.moveMonths?) = _
    rw [bind_narrow?_moveMonths?, Int.mul_comm]
    rfl
  | month =>
    show Except.ok (r.moveMonths? count) = .ok (r.addMonths? (1 * count.toInt))
    rw [moveMonths?_eq, Int.one_mul]
  | week =>
    have hseven : (7 : Int64).toInt = 7 := rfl
    have hday : (86400 : Int64).toInt = 86400 := rfl
    obtain ⟨days, hdays, hcount⟩ := product_eq_ok (hwide 7 hseven) (by omega) (by omega)
    have hseconds : days.toInt * (86400 : Int64).toInt = 604800 * count.toInt := by
      rw [hday]
      omega
    exact (congrArg (· >>= _) hdays).trans (r.addUnits_eq hseconds (by omega))
  | day =>
    have hday : (86400 : Int64).toInt = 86400 := rfl
    exact r.addUnits_eq (hwide _ hday) (by omega)
  | hour =>
    have hhour : (3600 : Int64).toInt = 3600 := rfl
    exact r.addUnits_eq (hwide _ hhour) (by omega)
  | minute =>
    have hminute : (60 : Int64).toInt = 60 := rfl
    exact r.addUnits_eq (hwide _ hminute) (by omega)
  | second =>
    have hsecond := count.toInt_toInt64
    obtain ⟨d, hd, hseconds⟩ := Duration.ofSeconds_eq_ok count.toInt64 (by omega)
    show (do return r.addSeconds? (← Duration.ofSeconds count.toInt64).seconds.toInt) =
      Except.ok (r.addSeconds? (1 * count.toInt))
    rw [hd, Int.one_mul, ← hsecond, ← hseconds]
    rfl

/-- Forwards, a leap second leads to where the second before it leads. -/
theorem map_time_shift? (r : Reading) (f : Frequency) {count : Int} (h : 0 ≤ count) :
    (r.shift? f count).map Reading.time = r.time.shift? f count := by
  unfold shift? Timestamp.shift?
  cases hf : f.span with
  | seconds length =>
    have hpos := Frequency.length_pos_of_seconds hf
    have hforward : ¬ length * count < 0 := not_lt.mpr (mul_nonneg hpos.le h)
    dsimp only [addSeconds?]
    split
    case isTrue hzero =>
      rw [hzero.2, Int.add_zero]
      exact (Timestamp.at?_eq_some_iff.mpr ⟨rfl, rfl⟩).symm
    case isFalse =>
      simp only [hforward, and_false, if_false, Int.add_zero, Option.map_map]
      exact Option.map_id_apply
  | months length =>
    simp only [addMonths?, Option.map_map]
    exact Option.map_id_apply

theorem shift?_reading (t : Timestamp) (f : Frequency) (count : Int) :
    t.reading.shift? f count = (t.shift? f count).map Timestamp.reading := by
  unfold shift? Timestamp.shift?
  cases f.span with
  | seconds length =>
    simp only [addSeconds?, Timestamp.reading, Bool.false_eq_true, false_and, if_false,
      Int.add_zero]
    rfl
  | months length => rfl

/-- A number of bucket lengths ahead, or back. -/
def Ahead (r : Reading) (f : Frequency) (count : Int) (x : Reading) : Prop :=
  match f.span with
  | .seconds length => r.SecondsAhead (length * count) x
  | .months length => r.MonthsAhead (length * count) x

/-- So far ahead, or back, is a second, or a month, that cannot be represented. -/
def LeavesLine (r : Reading) (f : Frequency) (count : Int) : Prop :=
  match f.span with
  | .seconds length =>
    let second := r.place r + length * count
    second < firstSecond ∨ r.placeBound ≤ second
  | .months length =>
    let month := monthOf r.time.day + length * count
    month < 12 * (-262143) ∨ 12 * 262143 ≤ month

theorem shift?_eq_some_iff {f : Frequency} {count : Int} :
    r.shift? f count = some x ↔ r.Ahead f count x := by
  unfold shift? Ahead
  cases f.span with
  | seconds length => exact addSeconds?_eq_some_iff
  | months length => exact addMonths?_eq_some_iff

theorem shift?_eq_none_iff {f : Frequency} {count : Int} :
    r.shift? f count = none ↔ r.LeavesLine f count := by
  unfold shift? LeavesLine
  cases f.span with
  | seconds length => exact addSeconds?_eq_none_iff
  | months length => exact addMonths?_eq_none_iff

/-- A reading is advanced by as many seconds or months as the count stands for, whatever the
count, and only if that leads to a second or a month of the time line. -/
theorem advance_ahead (r : Reading) (f : Frequency) (count : Int32) :
    ∃ next, r.advance f count = .ok next ∧
      (∀ x, next = some x ↔ r.Ahead f count.toInt x) ∧
      (next = none ↔ r.LeavesLine f count.toInt) :=
  ⟨r.shift? f count.toInt, r.advance_eq f count, fun _ => shift?_eq_some_iff, shift?_eq_none_iff⟩

/-- The last day of January is cut down, and a leap second has the second before it behind it. -/
example :
    ((Pattern.dataFile.read? "2024-01-31T10:30:00").map fun r =>
      (r.advance .month 1).toOption.join.map text) = some (some "2024-02-29 10:30:00") := by
  cbv
example :
    ((Pattern.dataFile.read? "2016-12-31T23:59:60").map fun r =>
      (r.advance .second (-1)).toOption.join.map text) = some (some "2016-12-31 23:59:59") := by
  cbv

end Reading

end Scorecard.Calendar
