/-! Widths in bytes. Positions in a text count the bytes of its UTF-8 form, so
a list of characters is as wide as the sum over its members. -/
namespace Scorecard.Text

def width : List Char → Nat
  | [] => 0
  | c :: rest => c.utf8Size + width rest

theorem width_append (s t : List Char) : width (s ++ t) = width s + width t := by
  induction s with
  | nil => simp [width]
  | cons c s ih => simp [width, ih, Nat.add_assoc]

theorem width_eq_utf8ByteSize (s : List Char) : width s = (String.ofList s).utf8ByteSize := by
  induction s with
  | nil => rfl
  | cons c s ih =>
    rw [width, ih, ← List.singleton_append, String.ofList_append, String.utf8ByteSize_append]
    simp

end Scorecard.Text
