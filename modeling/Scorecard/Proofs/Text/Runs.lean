import Scorecard.Text.Blank

/-! Runs of characters. A run of one class that stops where the class stops is what is taken
off the front for it. So is a text up to a separator that it does not hold itself. What is
taken off at both ends leaves what neither starts nor ends with the class. -/
namespace Scorecard.Text

theorem head?_dropWhile {p : Char → Bool} {text : List Char} :
    ∀ c ∈ (text.dropWhile p).head?, ¬ p c = true := by
  intro c hc
  have h := List.head?_dropWhile_not p text
  rw [hc] at h
  simpa using h

/-- A run that stops where its class of characters stops is all of that class in front. -/
theorem takeWhile_append {p : Char → Bool} {run after : List Char} (hr : ∀ c ∈ run, p c = true)
    (ha : ∀ c ∈ after.head?, ¬ p c = true) :
    (run ++ after).takeWhile p = run ∧ (run ++ after).dropWhile p = after := by
  rw [List.takeWhile_append_of_pos hr, List.dropWhile_append_of_pos hr]
  cases after with
  | nil => simp
  | cons c after =>
    have hc := ha c rfl
    simp [hc]

/-- A text ends at the first separator behind it. -/
theorem takeWhile_append_cons {separator : Char} {run : List Char} (h : separator ∉ run)
    (after : List Char) :
    (run ++ separator :: after).takeWhile (· != separator) = run ∧
      (run ++ separator :: after).dropWhile (· != separator) = separator :: after := by
  apply takeWhile_append
  · intro c hc
    apply bne_iff_ne.mpr
    rintro rfl
    exact h hc
  · simp

theorem strip_append {p : Char → Bool} {before middle after : List Char}
    (hbefore : ∀ c ∈ before, p c = true) (hafter : ∀ c ∈ after, p c = true)
    (hfirst : ∀ c ∈ middle.head?, ¬ p c = true) (hlast : ∀ c ∈ middle.getLast?, ¬ p c = true) :
    (((before ++ (middle ++ after)).dropWhile p).reverse.dropWhile p).reverse = middle := by
  cases middle with
  | nil =>
    have hall : ∀ c ∈ before ++ after, p c = true := List.forall_mem_append.mpr ⟨hbefore, hafter⟩
    have hend : ∀ c ∈ ([] : List Char).head?, ¬ p c = true := by simp
    obtain ⟨-, hdrop⟩ := takeWhile_append hall hend
    rw [List.append_nil] at hdrop
    rw [List.nil_append, hdrop]
    rfl
  | cons first rest =>
    have hhead : ∀ c ∈ (first :: rest ++ after).head?, ¬ p c = true := hfirst
    have hreverse : ∀ c ∈ after.reverse, p c = true := fun c hc => hafter c (List.mem_reverse.mp hc)
    rw [(takeWhile_append hbefore hhead).2, List.reverse_append,
      (takeWhile_append hreverse (by rwa [List.head?_reverse])).2, List.reverse_reverse]

theorem trim_eq_self {text : String} (hfirst : ∀ c ∈ text.toList.head?, ¬ isBlank c = true)
    (hlast : ∀ c ∈ text.toList.getLast?, ¬ isBlank c = true) : trim text = text := by
  have hnone : ∀ c ∈ ([] : List Char), isBlank c = true := by simp
  have hstrip := strip_append hnone hnone hfirst hlast
  rw [List.nil_append, List.append_nil] at hstrip
  rw [trim, dropBlanksRight, dropBlanks, hstrip, String.ofList_toList]

end Scorecard.Text
