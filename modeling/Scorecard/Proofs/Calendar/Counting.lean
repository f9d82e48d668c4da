import Scorecard.Proofs.Calendar.Range

/-! How far a range is counted. Each count from the start leads to a later date than the
counts below it, so a range leaves out no date before one that it has. The counts do not run
out where buckets take a day or more: there are fewer days on the time line than counts. -/
namespace Scorecard.Calendar

namespace Timestamp

theorem le_trans {a b c : Timestamp} (hab : a ≤ b) (hbc : b ≤ c) : a ≤ c := by
  rcases hab with hab | ⟨hab, hnano⟩ <;> rcases hbc with hbc | ⟨hbc, hnano'⟩
  · exact .inl (hab.trans hbc)
  · exact .inl (hab.trans_eq hbc)
  · exact .inl (hab.trans_lt hbc)
  · exact .inr ⟨hab.trans hbc, hnano.trans hnano'⟩

/-! ### Shifts by count -/

theorem shiftDay_spec (day months : Int) :
    monthStart (monthOf day + months) ≤ shiftDay day months ∧
      shiftDay day months < monthStart (monthOf day + months + 1) := by
  obtain ⟨hle, -⟩ := monthOf_spec day
  have hlt := monthStart_lt_succ (monthOf day + months)
  simp only [shiftDay, monthLength]
  omega

theorem shiftDay_zero (day : Int) : shiftDay day 0 = day := by
  obtain ⟨hle, hlt⟩ := monthOf_spec day
  simp only [shiftDay, monthLength, Int.add_zero]
  omega

/-- However a day is cut down, it stays in its month. -/
theorem shiftDay_strictMono (day : Int) : StrictMono (shiftDay day) := by
  intro months later h
  have hmonth : monthStart (monthOf day + months + 1) ≤ monthStart (monthOf day + later) :=
    monthStart_strictMono.monotone (by omega)
  exact (shiftDay_spec day months).2.trans_le (hmonth.trans (shiftDay_spec day later).1)

/-- The second that a count of bucket lengths leads to, whether or not it can be
represented. -/
def secondAfter (t : Timestamp) (f : Frequency) (count : Int) : Int :=
  match f.span with
  | .seconds length => t.second + length * count
  | .months length => 86400 * shiftDay t.day (length * count) + t.secondOfDay

variable {t s later : Timestamp} {f : Frequency}

theorem shift?_eq (t : Timestamp) (f : Frequency) (count : Int) :
    t.shift? f count = at? (t.secondAfter f count) t.nano := by
  unfold shift? secondAfter
  cases f.span <;> rfl

theorem shift?_eq_some_iff {count : Int} :
    t.shift? f count = some s ↔ s.second = t.secondAfter f count ∧ s.nano = t.nano := by
  rw [shift?_eq, at?_eq_some_iff]

theorem secondAfter_zero (t : Timestamp) (f : Frequency) : t.secondAfter f 0 = t.second := by
  unfold secondAfter
  split
  · omega
  · rw [Int.mul_zero, shiftDay_zero, day, secondOfDay]
    omega

theorem secondAfter_strictMono (t : Timestamp) (f : Frequency) : StrictMono (t.secondAfter f) := by
  intro count more h
  cases hf : f.span with
  | seconds length =>
    have hlt := Int.mul_lt_mul_of_pos_left h (Frequency.length_pos_of_seconds hf)
    simp only [secondAfter, hf]
    omega
  | months length =>
    have hlt := shiftDay_strictMono t.day
      (Int.mul_lt_mul_of_pos_left h (Frequency.length_pos_of_months hf))
    simp only [secondAfter, hf]
    omega

theorem exists_shift?_of_le {count more : Nat} (h : t.shift? f more = some later)
    (hle : count ≤ more) : ∃ s, t.shift? f count = some s ∧ s ≤ later := by
  obtain ⟨hsecond, hnano⟩ := shift?_eq_some_iff.mp h
  have hmono := (t.secondAfter_strictMono f).monotone
  have hfirst : t.second ≤ t.secondAfter f count := by
    rw [← t.secondAfter_zero f]
    exact hmono (Int.natCast_nonneg count)
  have hlast : t.secondAfter f count ≤ later.second := by
    rw [hsecond]
    exact hmono (Int.ofNat_le.mpr hle)
  refine ⟨⟨t.secondAfter f count, t.nano, t.first_le.trans hfirst, hlast.trans_lt later.lt_end,
    t.nano_lt⟩, shift?_eq_some_iff.mpr ⟨rfl, rfl⟩, ?_⟩
  rcases hlast.lt_or_eq with hlt | heq
  · exact .inl hlt
  · exact .inr ⟨heq, hnano.ge⟩

theorem count_eq_of_shift? {count more : Nat} (h : t.shift? f count = some s)
    (hm : t.shift? f more = some s) : count = more := by
  have hsecond := (shift?_eq_some_iff.mp h).1.symm.trans (shift?_eq_some_iff.mp hm).1
  exact Int.ofNat_inj.mp ((t.secondAfter_strictMono f).injective hsecond)

theorem add_le_shiftDay (day : Int) (months : Nat) : day + months ≤ shiftDay day months := by
  induction months with
  | zero =>
    rw [Int.natCast_zero, shiftDay_zero]
    omega
  | succ months ih =>
    have hlt := shiftDay_strictMono day (show (months : Int) < (months + 1 : Nat) by omega)
    omega

/-- A bucket that is not part of a day takes a day at least. -/
theorem add_le_secondAfter (hf : f ∉ [.hour, .minute, .second]) (t : Timestamp) (count : Nat) :
    t.second + 86400 * count ≤ t.secondAfter f count := by
  cases h : f.span with
  | seconds length =>
    have hday : 86400 ≤ length := by
      cases f <;> cases h <;> simp at hf ⊢
    have hle : 86400 * (count : Int) ≤ length * count :=
      Int.mul_le_mul_of_nonneg_right hday (Int.natCast_nonneg count)
    simp only [secondAfter, h]
    omega
  | months length =>
    have hle := add_le_shiftDay t.day (length.toNat * count)
    have hpos := Frequency.length_pos_of_months h
    rw [Int.natCast_mul, Int.toNat_of_nonneg hpos.le] at hle
    have hcount : 1 * (count : Int) ≤ length * count :=
      Int.mul_le_mul_of_nonneg_right hpos (Int.natCast_nonneg count)
    have hday : t.second = 86400 * t.day + t.secondOfDay := by
      rw [day, secondOfDay]
      omega
    simp only [secondAfter, h]
    omega

/-- The time line has fewer days than there are counts. -/
theorem lt_countBound_of_shift? (hf : f ∉ [.hour, .minute, .second]) {count : Nat}
    (h : t.shift? f count = some s) : count < countBound := by
  have hlong : endSecond - firstSecond < 86400 * countBound := by decide
  have hstep := add_le_secondAfter hf t count
  rw [← (shift?_eq_some_iff.mp h).1] at hstep
  have hfirst := t.first_le
  have hlast := s.lt_end
  omega

end Timestamp

/-! ### Items by count -/

namespace Range

variable {r : Range} {t : Timestamp}

/-- Where a count has an item, so have all counts below it. -/
theorem exists_item?_of_le {index more : Nat} (h : r.item? more = some t) (hle : index ≤ more) :
    ∃ s, r.item? index = some s := by
  obtain ⟨hshift, hlast⟩ := item?_eq_some_iff.mp h
  obtain ⟨s, hs, hst⟩ := Timestamp.exists_shift?_of_le hshift hle
  exact ⟨s, item?_eq_some_iff.mpr ⟨hs, Timestamp.le_trans hst hlast⟩⟩

theorem getElem?_itemsFrom {index count i : Nat} (hi : i < count)
    (h : r.item? (index + i) = some t) : (r.itemsFrom [] index count)[i]? = some t := by
  induction count generalizing index i with
  | zero => omega
  | succ count ih =>
    obtain ⟨first, hfirst⟩ := exists_item?_of_le h (Nat.le_add_right index i)
    rw [itemsFrom_succ hfirst]
    cases i with
    | zero => exact hfirst.symm.trans h
    | succ i =>
      rw [List.getElem?_cons_succ]
      apply ih (by omega)
      rwa [Nat.add_right_comm, Nat.add_assoc]

theorem length_itemsFrom_le (index count : Nat) :
    (r.itemsFrom [] index count).length ≤ count := by
  induction count generalizing index with
  | zero => exact Nat.le_refl 0
  | succ count ih =>
    cases h : r.item? index with
    | none => simp [itemsFrom_of_item?_eq_none h]
    | some t =>
      rw [itemsFrom_succ h, List.length_cons]
      exact Nat.succ_le_succ (ih (index + 1))

theorem getElem?_items_eq_some_iff {i : Nat} :
    r.items[i]? = some t ↔ i < countBound ∧ r.item? i = some t := by
  constructor
  · intro h
    obtain ⟨hlength, -⟩ := List.getElem?_eq_some_iff.mp h
    exact ⟨hlength.trans_le (length_itemsFrom_le 0 countBound), item?_of_getElem?_items h⟩
  · rintro ⟨hlt, h⟩
    apply getElem?_itemsFrom hlt
    rwa [Nat.zero_add]

end Range

end Scorecard.Calendar
