import Scorecard.Calendar.Range
import Scorecard.Proofs.Calendar.Boundary

/-! The items of a range. Each item is found at its own count from the start, so where the
start is the start of a bucket the items are those of the buckets from there on. -/
namespace Scorecard.Calendar.Range

open Timestamp (IsStart)

theorem itemsFrom_eq_append (r : Range) (found : List Timestamp) (index count : Nat) :
    r.itemsFrom found index count = found.reverse ++ r.itemsFrom [] index count := by
  induction count generalizing found index with
  | zero => exact (List.append_nil _).symm
  | succ count ih =>
    simp only [itemsFrom]
    cases r.item? index with
    | none => exact (List.append_nil _).symm
    | some t =>
      simp only [ih (t :: found), ih [t], List.reverse_cons, List.append_assoc, List.reverse_nil,
        List.nil_append]

variable {r : Range} {t : Timestamp}

theorem item?_eq_some_iff {index : Nat} :
    r.item? index = some t ↔ r.start.shift? r.frequency index = some t ∧ t ≤ r.last := by
  unfold item?
  constructor
  · intro h
    split at h
    case h_1 found hf =>
      split at h
      case isTrue hle =>
        cases h
        exact ⟨hf, hle⟩
      case isFalse => contradiction
    case h_2 => contradiction
  · rintro ⟨hf, hle⟩
    rw [hf]
    exact if_pos hle

theorem itemsFrom_succ {index : Nat} (h : r.item? index = some t) (count : Nat) :
    r.itemsFrom [] index (count + 1) = t :: r.itemsFrom [] (index + 1) count := by
  rw [itemsFrom, h]
  exact r.itemsFrom_eq_append [t] (index + 1) count

theorem itemsFrom_of_item?_eq_none {index : Nat} (h : r.item? index = none) (count : Nat) :
    r.itemsFrom [] index count = [] := by
  cases count with
  | zero => rfl
  | succ count =>
    rw [itemsFrom, h]
    rfl

theorem item?_of_getElem?_itemsFrom {index count i : Nat}
    (h : (r.itemsFrom [] index count)[i]? = some t) : r.item? (index + i) = some t := by
  induction count generalizing index i with
  | zero => simp [itemsFrom] at h
  | succ count ih =>
    cases hfirst : r.item? index with
    | none => simp [itemsFrom_of_item?_eq_none hfirst] at h
    | some first =>
      rw [itemsFrom_succ hfirst] at h
      cases i with
      | zero =>
        obtain rfl : first = t := Option.some.inj h
        exact hfirst
      | succ i =>
        rw [List.getElem?_cons_succ] at h
        rw [← ih h]
        congr 1
        omega

theorem item?_of_getElem?_items {i : Nat} (h : r.items[i]? = some t) : r.item? i = some t := by
  have hi := item?_of_getElem?_itemsFrom h
  rwa [Nat.zero_add] at hi

theorem isStart_of_item? {bucket : Int} {i : Nat} (hs : IsStart r.frequency bucket r.start)
    (h : r.item? i = some t) : IsStart r.frequency (bucket + i) t :=
  hs.shift?_eq_some_iff.mp (item?_eq_some_iff.mp h).1

theorem le_last_of_item? {i : Nat} (h : r.item? i = some t) : t ≤ r.last :=
  (item?_eq_some_iff.mp h).2

theorem item?_zero_of_isStart {bucket : Int} (hs : IsStart r.frequency bucket r.start)
    (hle : r.start ≤ r.last) : r.item? 0 = some r.start := by
  refine item?_eq_some_iff.mpr ⟨?_, hle⟩
  rw [hs.shift?_eq_some_iff]
  simpa using hs

/-- A range starts with its first item, if there is one. -/
theorem head?_items (r : Range) : r.items.head? = r.item? 0 := by
  obtain ⟨count, hcount⟩ : ∃ count, countBound = count + 1 := ⟨2147483647, rfl⟩
  rw [items, hcount]
  cases h : r.item? 0 with
  | none => rw [itemsFrom_of_item?_eq_none h, List.head?_nil]
  | some t => rw [itemsFrom_succ h, List.head?_cons]

end Scorecard.Calendar.Range
