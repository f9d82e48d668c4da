import Mathlib.Data.Int.ConditionallyCompleteOrder
import Mathlib.Data.Int.SuccPred
import Scorecard.Calendar.Day

/-! Months and the days in them. The first days of the months ascend without end, each
month reaches up to the first day of the next, and so every day lies in one month. -/
namespace Scorecard.Calendar

theorem daysBefore_zero (leap : Bool) : daysBefore leap 0 = 0 := by
  cases leap <;> rfl

theorem daysBefore_le_succ (leap : Bool) (month : Nat) :
    daysBefore leap month ≤ daysBefore leap (month + 1) := by
  by_cases h : month < 12
  · revert leap month
    decide
  · obtain ⟨later, rfl⟩ : ∃ later, month = later + 12 := ⟨month - 12, by omega⟩
    exact Nat.le_refl _

theorem daysBefore_lt_succ (leap : Bool) {month : Nat} (h : month < 12) :
    daysBefore leap month < daysBefore leap (month + 1) := by
  revert leap month
  decide

theorem daysBefore_succ_le (leap : Bool) {month : Nat} (h : month < 12) :
    daysBefore leap (month + 1) ≤ daysBefore leap month + 31 := by
  revert leap month
  decide

/-- A year is as long as its twelve months. -/
theorem yearStart_add_daysBefore (year : Int) :
    yearStart year + daysBefore (isLeap year) 12 = yearStart (year + 1) := by
  rw [yearStart_succ]
  cases isLeap year <;> rfl

theorem monthStart_eq (year : Int) {month : Nat} (h : month ≤ 12) :
    monthStart (12 * year + month) = yearStart year + daysBefore (isLeap year) month := by
  by_cases hm : month = 12
  · have hyear : (12 * year + (12 : Nat)) / 12 = year + 1 := by omega
    have hmonth : ((12 * year + (12 : Nat)) % 12).toNat = 0 := by omega
    subst hm
    rw [yearStart_add_daysBefore]
    simp only [monthStart, hyear, hmonth, daysBefore_zero]
    exact Int.add_zero _
  · have hyear : (12 * year + (month : Int)) / 12 = year := by omega
    have hmonth : ((12 * year + (month : Int)) % 12).toNat = month := by omega
    simp only [monthStart, hyear, hmonth]

theorem monthStart_year (year : Int) : monthStart (12 * year) = yearStart year := by
  have h := monthStart_eq year (Nat.zero_le 12)
  rwa [daysBefore_zero, Int.natCast_zero, Int.add_zero, Int.add_zero] at h

theorem monthStart_lt_succ (month : Int) : monthStart month < monthStart (month + 1) := by
  obtain ⟨year, m, hm, rfl⟩ : ∃ (year : Int) (m : Nat), m < 12 ∧ month = 12 * year + m :=
    ⟨month / 12, (month % 12).toNat, by omega, by omega⟩
  have hsucc : 12 * year + (m : Int) + 1 = 12 * year + (m + 1 : Nat) := by omega
  have hlt := daysBefore_lt_succ (isLeap year) hm
  rw [hsucc, monthStart_eq year hm.le, monthStart_eq year (show m + 1 ≤ 12 from hm)]
  omega

theorem monthLength_le (month : Int) : monthLength month ≤ 31 := by
  obtain ⟨year, m, hm, rfl⟩ : ∃ (year : Int) (m : Nat), m < 12 ∧ month = 12 * year + m :=
    ⟨month / 12, (month % 12).toNat, by omega, by omega⟩
  have hsucc : 12 * year + (m : Int) + 1 = 12 * year + (m + 1 : Nat) := by omega
  have hle := daysBefore_succ_le (isLeap year) hm
  rw [monthLength, hsucc, monthStart_eq year hm.le, monthStart_eq year (show m + 1 ≤ 12 from hm)]
  omega

theorem monthStart_strictMono : StrictMono monthStart :=
  strictMono_int_of_lt_succ monthStart_lt_succ

/-- Of conditions that fail for good once they fail, the number that hold tells which. -/
theorem lt_countP_range_iff {p : Nat → Bool} (hp : ∀ i j, i ≤ j → p j = true → p i = true)
    (n : Nat) {i : Nat} (h : i < n) : i < (List.range n).countP p ↔ p i = true := by
  induction n with
  | zero => contradiction
  | succ n ih =>
    rw [List.range_succ, List.countP_append, List.countP_singleton]
    have hle : (List.range n).countP p ≤ n := by
      simpa using List.countP_le_length (p := p) (l := List.range n)
    cases hn : p n with
    | true =>
      have hall : (List.range n).countP p = n := by
        refine (List.countP_eq_length.mpr fun j hj => ?_).trans List.length_range
        exact hp j n (List.mem_range.mp hj).le hn
      simp only [hall, if_true, h, true_iff]
      exact hp i n (by omega) hn
    | false =>
      by_cases hi : i = n
      · subst hi
        simp [hn]
        omega
      · simpa using ih (by omega)

/-- A day of the year lies in the month found by counting the months it is not before. -/
theorem daysBefore_countP {leap : Bool} {dayOfYear later : Nat}
    (hd : dayOfYear < daysBefore leap 12)
    (hl : (List.range 11).countP (fun m => daysBefore leap (m + 1) ≤ dayOfYear) = later) :
    later ≤ 11 ∧ daysBefore leap later ≤ dayOfYear ∧ dayOfYear < daysBefore leap (later + 1) := by
  have hp : ∀ i j, i ≤ j → decide (daysBefore leap (j + 1) ≤ dayOfYear) = true →
      decide (daysBefore leap (i + 1) ≤ dayOfYear) = true := by
    intro i j hij hj
    have hmono := monotone_nat_of_le_succ (daysBefore_le_succ leap) (Nat.succ_le_succ hij)
    exact decide_eq_true (hmono.trans (of_decide_eq_true hj))
  have hiff (m : Nat) (hm : m < 11) : m < later ↔ daysBefore leap (m + 1) ≤ dayOfYear := by
    rw [← hl, lt_countP_range_iff hp 11 hm, decide_eq_true_eq]
  have hle : later ≤ 11 := by
    rw [← hl]
    exact List.countP_le_length.trans_eq List.length_range
  refine ⟨hle, ?_, ?_⟩
  · cases later with
    | zero =>
      rw [daysBefore_zero]
      exact Nat.zero_le _
    | succ m => exact (hiff m hle).mp (Nat.lt_succ_self m)
  · rcases hle.eq_or_lt with rfl | hlt
    · exact hd
    · exact Nat.lt_of_not_le fun hle => Nat.lt_irrefl _ ((hiff later hlt).mpr hle)

/-- A day lies in its month. -/
theorem monthOf_spec (day : Int) :
    monthStart (monthOf day) ≤ day ∧ day < monthStart (monthOf day + 1) := by
  have hfirst := yearStart_yearOf_le day
  have hlast := lt_yearStart_yearOf day
  rw [← yearStart_add_daysBefore] at hlast
  have hmonth : ∃ later : Nat, monthOf day = 12 * yearOf day + later ∧
      (List.range 11).countP (fun m => daysBefore (isLeap (yearOf day)) (m + 1) ≤
        (day - yearStart (yearOf day)).toNat) = later := ⟨_, rfl, rfl⟩
  obtain ⟨later, hmonth, hlater⟩ := hmonth
  obtain ⟨hle, hge, hlt⟩ := daysBefore_countP (by omega) hlater
  have hsucc : 12 * yearOf day + (later : Int) + 1 = 12 * yearOf day + (later + 1 : Nat) := by omega
  rw [hmonth, hsucc, monthStart_eq _ (show later ≤ 12 by omega),
    monthStart_eq _ (show later + 1 ≤ 12 by omega)]
  omega

theorem monthOf_eq_iff {day month : Int} :
    monthOf day = month ↔ monthStart month ≤ day ∧ day < monthStart (month + 1) := by
  obtain ⟨hle, hlt⟩ := monthOf_spec day
  constructor
  · rintro rfl
    exact ⟨hle, hlt⟩
  · rintro ⟨hge, hgt⟩
    have hbelow : monthOf day < month + 1 := monthStart_strictMono.lt_iff_lt.mp (hle.trans_lt hgt)
    have habove : month < monthOf day + 1 := monthStart_strictMono.lt_iff_lt.mp (hge.trans_lt hlt)
    omega

theorem monthOf_lt_iff {day month : Int} : monthOf day < month ↔ day < monthStart month := by
  obtain ⟨hle, hlt⟩ := monthOf_spec day
  constructor
  · intro h
    exact hlt.trans_le (monthStart_strictMono.monotone h)
  · intro h
    exact monthStart_strictMono.lt_iff_lt.mp (hle.trans_lt h)

theorem monthOf_monthStart (month : Int) : monthOf (monthStart month) = month :=
  monthOf_eq_iff.mpr ⟨le_rfl, monthStart_lt_succ month⟩

end Scorecard.Calendar
