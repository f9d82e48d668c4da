import Scorecard.Calendar.Notation
import Scorecard.Proofs.Calendar.Rounding
import Scorecard.Proofs.Text.Runs

/-! Written dates read back. A number is written in digits alone, with something else behind
it, and so it is read as a whole, the zeros in front of it included. What is written to the
second is read by the first of the forms for dates given by hand, whatever its year, and is
the same date again. -/
namespace Scorecard.Calendar

/-! ### Numbers -/

/-- Digits that stand for a number. -/
structure IsNumeral (digits : List Char) (n : Nat) : Prop where
  ne_nil : digits ≠ []
  isDigit : ∀ c ∈ digits, c.isDigit = true
  value : Decimal.digitsValue digits = n

/-- The text behind a number: it does not go on with a digit. -/
def Stops (rest : List Char) : Prop :=
  ∀ c ∈ rest.head?, ¬c.isDigit = true

theorem stops_nil : Stops [] := by
  simp [Stops]

theorem stops_cons {c : Char} (h : c.isDigit = false) (rest : List Char) : Stops (c :: rest) := by
  simp [Stops, h]

theorem digitsValue_eq (digits : List Char) :
    Decimal.digitsValue digits = Nat.ofDigitChars 10 digits 0 :=
  Nat.ofDigitChars_eq_foldl.symm

theorem toList_padded (width n : Nat) : (padded width n).toList =
    List.replicate (width - (Nat.toDigits 10 n).length) '0' ++ Nat.toDigits 10 n := by
  have hdigits : (toString n).toList = Nat.toDigits 10 n := by
    rw [Nat.toString_eq_repr, Nat.toList_repr]
  rw [padded, String.toList_append, String.toList_ofList, hdigits, ← String.length_toList, hdigits]

theorem isNumeral_padded (width n : Nat) : IsNumeral (padded width n).toList n where
  ne_nil := by
    rw [toList_padded]
    exact List.append_ne_nil_of_right_ne_nil _ Nat.toDigits_ne_nil
  isDigit := by
    intro c hc
    rw [toList_padded, List.mem_append] at hc
    rcases hc with hzero | hdigit
    · rw [List.eq_of_mem_replicate hzero]
      rfl
    · exact Nat.isDigit_of_mem_toDigits (by decide) (by decide) hdigit
  value := by
    rw [digitsValue_eq, toList_padded, Nat.ofDigitChars_append, Nat.ofDigitChars_replicate_zero,
      Nat.mul_zero, Nat.ofDigitChars_ten_toDigits]

theorem length_padded {width n : Nat} (hwidth : 0 < width) (hn : n < 10 ^ width) :
    (padded width n).toList.length = width := by
  have hle := (Nat.length_toDigits_le_iff (by decide) hwidth).mpr hn
  rw [toList_padded, List.length_append, List.length_replicate]
  omega

namespace IsNumeral

variable {digits rest : List Char} {n : Nat}

theorem not_mem (h : IsNumeral digits n) {c : Char} (hc : c.isDigit = false) : c ∉ digits := by
  intro hmem
  rw [h.isDigit c hmem] at hc
  contradiction

/-- A number of no more digits than there may be is read to its last digit. -/
theorem readNumber (h : IsNumeral digits n) (hrest : Stops rest) {width : Option Nat}
    (hwidth : ∀ w ∈ width, digits.length ≤ w) :
    Calendar.readNumber width (digits ++ rest) = some (n, rest) := by
  have hrun := (Text.takeWhile_append h.isDigit hrest).1
  have hempty : digits.isEmpty = false := by
    simpa using h.ne_nil
  cases width with
  | none => simp [Calendar.readNumber, hrun, hempty, h.value]
  | some width =>
    have htake : digits.take width = digits := List.take_of_length_le (hwidth width rfl)
    simp [Calendar.readNumber, hrun, htake, hempty, h.value]

theorem dropBlanks (h : IsNumeral digits n) (rest : List Char) :
    Text.dropBlanks (digits ++ rest) = digits ++ rest := by
  obtain ⟨c, others, rfl⟩ := List.exists_cons_of_ne_nil h.ne_nil
  have hdigit := Char.isDigit_iff_toNat.mp (h.isDigit c List.mem_cons_self)
  have hblank : ¬Text.isBlank c = true := by
    have hzero : '0'.toNat = 48 := rfl
    have hnine : '9'.toNat = 57 := rfl
    simp only [Text.isBlank, Bool.or_eq_true, Bool.and_eq_true, decide_eq_true_eq, beq_iff_eq]
    omega
  exact List.dropWhile_cons_of_neg hblank

end IsNumeral

/-! ### Fields -/

variable {rest : List Char}

theorem toList_yearText_of_neg {year : Int} (h : year < 0) :
    (yearText year).toList = '-' :: (padded 4 year.natAbs).toList := by
  have hplain : ¬(0 ≤ year ∧ year ≤ 9999) := by omega
  have hsign : "-".toList = ['-'] := rfl
  rw [yearText, if_neg hplain, if_pos h, String.toList_append, hsign, List.singleton_append]

theorem toList_yearText_of_gt {year : Int} (h : 9999 < year) :
    (yearText year).toList = '+' :: (padded 4 year.natAbs).toList := by
  have hplain : ¬(0 ≤ year ∧ year ≤ 9999) := by omega
  have hneg : ¬year < 0 := by omega
  have hsign : "+".toList = ['+'] := rfl
  rw [yearText, if_neg hplain, if_neg hneg, String.toList_append, hsign, List.singleton_append]

theorem not_mem_yearText (year : Int) : '\n' ∉ (yearText year).toList := by
  have hnumeral (n : Nat) : '\n' ∉ (padded 4 n).toList := (isNumeral_padded 4 n).not_mem rfl
  by_cases hneg : year < 0
  · simp [toList_yearText_of_neg hneg, hnumeral]
  by_cases hgt : 9999 < year
  · simp [toList_yearText_of_gt hgt, hnumeral]
  have hplain : 0 ≤ year ∧ year ≤ 9999 := by omega
  rw [yearText, if_pos hplain]
  exact hnumeral year.toNat

/-- What begins with a digit begins with no sign. -/
theorem readYear_of_isDigit {c : Char} (h : c.isDigit = true) (text : List Char) :
    readYear (c :: text) =
      (readNumber (some 4) (c :: text)).map fun (n, rest) => ((n : Int), rest) := by
  unfold readYear
  split
  case h_1 heq =>
    cases heq
    contradiction
  case h_2 heq =>
    cases heq
    contradiction
  case h_3 => rfl

/-- A year is read by all its digits: without a sign it has four, and with one it may have
more. -/
theorem readYear_yearText (year : Int) (hrest : Stops rest) :
    readYear (Text.dropBlanks ((yearText year).toList ++ rest)) = some (year, rest) := by
  have hsigned : readNumber none ((padded 4 year.natAbs).toList ++ rest) =
      some (year.natAbs, rest) := (isNumeral_padded 4 year.natAbs).readNumber hrest (by simp)
  by_cases hneg : year < 0
  · have hyear : -(year.natAbs : Int) = year := by omega
    rw [toList_yearText_of_neg hneg, List.cons_append, Text.dropBlanks,
      List.dropWhile_cons_of_neg (by decide), readYear, hsigned]
    simp only [Option.map_some, hyear]
  by_cases hgt : 9999 < year
  · have hyear : (year.natAbs : Int) = year := by omega
    rw [toList_yearText_of_gt hgt, List.cons_append, Text.dropBlanks,
      List.dropWhile_cons_of_neg (by decide), readYear, hsigned]
    simp only [Option.map_some, hyear]
  have hplain : 0 ≤ year ∧ year ≤ 9999 := by omega
  have hnumeral := isNumeral_padded 4 year.toNat
  have hlength : (padded 4 year.toNat).toList.length = 4 := length_padded (by decide) (by omega)
  have hread : readNumber (some 4) ((padded 4 year.toNat).toList ++ rest) =
      some (year.toNat, rest) := hnumeral.readNumber hrest (by simp [hlength])
  rw [yearText, if_pos hplain, hnumeral.dropBlanks]
  obtain ⟨c, others, hdigits⟩ := List.exists_cons_of_ne_nil hnumeral.ne_nil
  have hdigit : c.isDigit = true := by
    apply hnumeral.isDigit
    rw [hdigits]
    exact List.mem_cons_self
  rw [hdigits, List.cons_append] at hread ⊢
  rw [readYear_of_isDigit hdigit, hread]
  simp only [Option.map_some, Int.toNat_of_nonneg hplain.1]

theorem twoDigits_padded {n : Nat} (hn : n < 100) (hrest : Stops rest) :
    Field.read.twoDigits ((padded 2 n).toList ++ rest) = some (n, rest) := by
  have hnumeral := isNumeral_padded 2 n
  have hlength : (padded 2 n).toList.length = 2 := length_padded (by decide) hn
  rw [Field.read.twoDigits, hnumeral.dropBlanks]
  exact hnumeral.readNumber hrest (by simp [hlength])

/-- The fields that are read as a number of at most two digits. -/
def Field.hasTwoDigits (field : Field) : Bool :=
  field ∈ [month, day, hour, minute, second]

/-- The parts with another number for such a field. -/
def Parts.set (p : Parts) (field : Field) (n : Nat) : Parts :=
  match field with
  | .month => { p with month := n }
  | .day => { p with day := n }
  | .hour => { p with hour := n }
  | .minute => { p with minute := n }
  | .second => { p with second := n }
  | _ => p

theorem Field.read_eq {field : Field} (h : field.hasTwoDigits = true) (p : Parts)
    (text : List Char) :
    field.read p text = (read.twoDigits text).map fun (n, rest) => (p.set field n, rest) := by
  cases field with
  | month | day | hour | minute | second => rfl
  | year | fraction | literal | blanks => contradiction

/-! ### Whole dates -/

namespace Pattern

variable {p q : Parts} {field : Field} {fields : Pattern} {text rest : List Char}

theorem go_cons (h : field.read p text = some (q, rest)) :
    read?.go p (field :: fields) text = read?.go q fields rest := by
  rw [read?.go, h]

theorem go_literal (c : Char) :
    read?.go p (.literal c :: fields) (c :: rest) = read?.go p fields rest :=
  go_cons (if_pos rfl)

theorem go_year (year : Int) (hrest : Stops rest) :
    read?.go p (.year :: fields) ((yearText year).toList ++ rest) =
      read?.go { p with year := year } fields rest := by
  apply go_cons
  rw [Field.read, readYear_yearText year hrest]
  rfl

theorem go_twoDigits {n : Nat} (hfield : field.hasTwoDigits = true) (hn : n < 100)
    (hrest : Stops rest) : read?.go p (field :: fields) ((padded 2 n).toList ++ rest) =
      read?.go (p.set field n) fields rest := by
  apply go_cons
  rw [Field.read_eq hfield, twoDigits_padded hn hrest]
  rfl

end Pattern

namespace Timestamp

/-- The numbers that a timestamp is written with. -/
def parts (t : Timestamp) : Parts where
  year := monthOf t.day / 12
  month := (monthOf t.day % 12).toNat + 1
  day := (t.day - monthStart (monthOf t.day)).toNat + 1
  hour := t.secondOfDay.toNat / 3600
  minute := t.secondOfDay.toNat / 60 % 60
  second := t.secondOfDay.toNat % 60
  nano := 0

variable (t : Timestamp)

theorem monthOf_parts : 12 * t.parts.year + (t.parts.month - 1 : Nat) = monthOf t.day := by
  show 12 * (monthOf t.day / 12) + ((monthOf t.day % 12).toNat : Int) = monthOf t.day
  omega

theorem isValid_parts : t.parts.isValid = true := by
  have hmonth := monthOf_spec t.day
  have hsecond := t.secondOfDay_spec
  simp only [Parts.isValid, monthOf_parts, Bool.and_eq_true, decide_eq_true_eq, monthLength]
  simp only [parts]
  omega

theorem secondCount_parts : t.parts.secondCount = t.second := by
  have hmonth := monthOf_spec t.day
  have hseconds := t.second_eq
  have hsecond := t.secondOfDay_spec
  simp only [Parts.secondCount, monthOf_parts]
  simp only [parts]
  omega

/-- The numbers that a whole second is written with stand for it. -/
theorem reading?_parts (h : t.nano = 0) : t.parts.reading? = some t.reading := by
  have hleap : (t.parts.second == 60) = false := by
    simp only [parts, beq_eq_false_iff_ne]
    omega
  have hat : at? t.parts.secondCount t.parts.nano = some t :=
    at?_eq_some_iff.mpr ⟨t.secondCount_parts.symm, h⟩
  rw [Parts.reading?, if_pos t.isValid_parts, hat, hleap]
  rfl

theorem toList_secondText : t.secondText.toList =
    (yearText t.parts.year).toList ++ '-' :: ((padded 2 t.parts.month).toList ++
    '-' :: ((padded 2 t.parts.day).toList ++ 'T' :: ((padded 2 t.parts.hour).toList ++
    ':' :: ((padded 2 t.parts.minute).toList ++ ':' :: (padded 2 t.parts.second).toList)))) := by
  simp [secondText, dateText, clockText, parts]

theorem parts_lt : t.parts.month < 100 ∧ t.parts.day < 100 ∧ t.parts.hour < 100 ∧
    t.parts.minute < 100 ∧ t.parts.second < 100 := by
  have hmonth := monthOf_spec t.day
  have hlength := monthLength_le (monthOf t.day)
  have hsecond := t.secondOfDay_spec
  rw [monthLength] at hlength
  simp only [parts]
  omega

theorem go_secondText : Pattern.read?.go Parts.midnight
    [.year, .literal '-', .month, .literal '-', .day, .literal 'T', .hour, .literal ':', .minute,
      .literal ':', .second] t.secondText.toList = t.parts.reading? := by
  obtain ⟨hmonth, hday, hhour, hminute, hsecond⟩ := t.parts_lt
  -- A separator stands behind every number but the last, which ends the text.
  have hend : (padded 2 t.parts.second).toList = (padded 2 t.parts.second).toList ++ [] :=
    (List.append_nil _).symm
  rw [toList_secondText, hend, Pattern.go_year _ (stops_cons rfl _), Pattern.go_literal,
    Pattern.go_twoDigits rfl hmonth (stops_cons rfl _), Pattern.go_literal,
    Pattern.go_twoDigits rfl hday (stops_cons rfl _), Pattern.go_literal,
    Pattern.go_twoDigits rfl hhour (stops_cons rfl _), Pattern.go_literal,
    Pattern.go_twoDigits rfl hminute (stops_cons rfl _), Pattern.go_literal,
    Pattern.go_twoDigits rfl hsecond stops_nil]
  rfl

/-- What is written to the second is read by the first of the forms. -/
theorem readDate?_secondText (h : t.nano = 0) : readDate? t.secondText = some t.reading := by
  have hread : Pattern.read? (Pattern.date ++ [.literal 'T'] ++ Pattern.clock) t.secondText =
      some t.reading := t.go_secondText.trans (t.reading?_parts h)
  rw [readDate?, Pattern.byHand, List.findSome?_cons, hread]

/-- A written date stays on its line. -/
theorem not_mem_secondText : '\n' ∉ t.secondText.toList := by
  have hyear := not_mem_yearText t.parts.year
  have hnumeral (n : Nat) : '\n' ∉ (padded 2 n).toList := (isNumeral_padded 2 n).not_mem rfl
  simp [toList_secondText, hyear, hnumeral]

end Timestamp

end Scorecard.Calendar
