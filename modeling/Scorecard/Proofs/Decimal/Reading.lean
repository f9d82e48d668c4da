import Mathlib.Data.List.TakeWhile
import Scorecard.Decimal.Reading
import Scorecard.Proofs.Formula.Lexemes

/-! Texts of numbers. Signs, digits, points, exponents and the words for infinity and no number
hold no blanks, so there is nothing to trim from a text that is read as a number. -/
namespace Scorecard.Decimal

open Formula (isNumeral not_isNumeral_of_isBlank)
open Text (isBlank)

theorem not_isBlank_of_isDigit {c : Char} (h : c.isDigit = true) : ¬ isBlank c = true := by
  intro hb
  have hnumeral : isNumeral c = true := by
    rw [isNumeral, h, Bool.true_or]
  exact (not_isNumeral_of_isBlank hb).1 hnumeral

theorem not_isBlank_of_takeSign {text : List Char}
    (h : ∀ c ∈ (takeSign text).2, ¬ isBlank c = true) : ∀ c ∈ text, ¬ isBlank c = true := by
  unfold takeSign at h
  split at h
  · exact List.forall_mem_cons.mpr ⟨by decide, h⟩
  · exact List.forall_mem_cons.mpr ⟨by decide, h⟩
  · exact h

theorem not_isBlank_of_exponent? {text : List Char} {power : Int} (h : exponent? text = some power) :
    ∀ c ∈ text, ¬ isBlank c = true := by
  cases text with
  | nil => simp
  | cons c rest =>
    simp only [exponent?, Option.ite_none_right_eq_some, Option.ite_none_left_eq_some,
      Bool.or_eq_true, beq_iff_eq, Bool.not_eq_true', not_or, Bool.not_eq_false] at h
    obtain ⟨hc, ⟨-, hdigits⟩, -⟩ := h
    refine List.forall_mem_cons.mpr ⟨?_, not_isBlank_of_takeSign fun d hd => ?_⟩
    · rcases hc with rfl | rfl
      · decide
      · decide
    · exact not_isBlank_of_isDigit (List.all_eq_true.mp hdigits d hd)

theorem toLower_of_isBlank {c : Char} (h : isBlank c = true) : c.toLower = c := by
  have hletter := (not_isNumeral_of_isBlank h).2
  rw [Formula.isAlpha_iff] at hletter
  refine dif_neg fun hupper => hletter (.inl ?_)
  simp only [ge_iff_le, UInt32.le_iff_toNat_le] at hupper
  exact hupper

/-- A text that reads as a word in small letters. -/
theorem not_isBlank_of_word {text : List Char} (word : List Char)
    (hword : word.any isBlank = false)
    (h : String.ofList (text.map Char.toLower) = String.ofList word) :
    ∀ c ∈ text, ¬ isBlank c = true := by
  intro c hc hb
  rw [← String.ofList_injective h] at hword
  refine List.any_eq_false.mp hword c.toLower (List.mem_map_of_mem hc) ?_
  rwa [toLower_of_isBlank hb]

theorem not_isBlank_of_magnitude? {text : List Char} {x : Float} (h : magnitude? text = some x) :
    ∀ c ∈ text, ¬ isBlank c = true := by
  have hdigits (run : List Char) : ∀ c ∈ run.takeWhile Char.isDigit, ¬ isBlank c = true :=
    fun c hc => not_isBlank_of_isDigit (List.mem_takeWhile_imp hc)
  have hrun {run : List Char} (hrest : ∀ c ∈ run.dropWhile Char.isDigit, ¬ isBlank c = true) :
      ∀ c ∈ run, ¬ isBlank c = true := by
    rw [← List.takeWhile_append_dropWhile (p := Char.isDigit) (l := run)]
    exact List.forall_mem_append.mpr ⟨hdigits run, hrest⟩
  -- Whatever the fraction, either the text is a word or its tail is an exponent.
  have hchoice {fraction : Bool} {tail : List Char} {number : Int → Float}
      (h : (if fraction then
          let word := String.ofList (text.map Char.toLower)
          if word == "inf" || word == "infinity" then some (1 / 0)
          else if word == "nan" then some (0 / 0)
          else none
        else (exponent? tail).map number) = some x)
      (htail : (∀ c ∈ tail, ¬ isBlank c = true) → ∀ c ∈ text, ¬ isBlank c = true) :
      ∀ c ∈ text, ¬ isBlank c = true := by
    dsimp only at h
    split at h
    next =>
      simp only [Bool.or_eq_true, beq_iff_eq] at h
      split at h
      next hword =>
        rcases hword with hword | hword
        · exact not_isBlank_of_word ['i', 'n', 'f'] (by decide) hword
        · exact not_isBlank_of_word ['i', 'n', 'f', 'i', 'n', 'i', 't', 'y'] (by decide) hword
      next =>
        split at h
        next hword => exact not_isBlank_of_word ['n', 'a', 'n'] (by decide) hword
        next => contradiction
    next =>
      obtain ⟨power, hpower, -⟩ := Option.map_eq_some_iff.mp h
      exact htail (not_isBlank_of_exponent? hpower)
  unfold magnitude? at h
  dsimp only at h
  split at h
  next after hrest =>
    refine hchoice h fun htail => hrun ?_
    rw [hrest]
    exact List.forall_mem_cons.mpr ⟨by decide, hrun htail⟩
  next => exact hchoice h hrun

theorem not_isBlank_of_read? {text : String} {x : Float} (h : read? text = some x) :
    ∀ c ∈ text.toList, ¬ isBlank c = true := by
  obtain ⟨m, hm, -⟩ := Option.map_eq_some_iff.mp h
  exact not_isBlank_of_takeSign (not_isBlank_of_magnitude? hm)

theorem trim_of_read? {text : String} {x : Float} (h : read? text = some x) :
    Text.trim text = text := by
  have hplain := not_isBlank_of_read? h
  exact Text.trim_eq_self (fun c hc => hplain c (List.mem_of_head? hc))
    (fun c hc => hplain c (List.mem_of_getLast? hc))

end Scorecard.Decimal
