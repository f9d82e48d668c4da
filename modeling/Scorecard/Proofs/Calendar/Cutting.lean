import Scorecard.Proofs.Calendar.Counting

/-! A range cut in two. Its items are those of successive buckets. Where one of them starts,
the range can be cut into one up to the second before and one from there on: the count then
starts anew, but leads to the same dates. -/
namespace Scorecard.Calendar

open Timestamp (IsStart)

variable {f : Frequency}

/-- What starts a bucket comes before another start if and only if it comes up to the second
before it. -/
theorem Timestamp.IsStart.le_iff_lt {bucket other : Int} {b t before : Timestamp}
    (hb : IsStart f bucket b) (ht : IsStart f other t)
    (hbefore : b.shift? .second (-1) = some before) : t ≤ before ↔ t < b := by
  obtain ⟨hsecond, -⟩ := Timestamp.shift?_eq_some_iff.mp hbefore
  have heq : before.second = b.second - 1 := by
    rw [hsecond]
    simp only [secondAfter, Frequency.span]
    omega
  rw [le_iff_of_nano ht.nano, lt_iff_of_nano hb.nano, heq]
  omega

namespace Range

variable {r : Range} {t : Timestamp}

/-- Where the counts do not run out, each count that has an item is reached. -/
theorem getElem?_items_iff (h : r.items.length < countBound) {i : Nat} :
    r.items[i]? = some t ↔ r.item? i = some t := by
  refine ⟨item?_of_getElem?_items, fun hi => getElem?_items_eq_some_iff.mpr ⟨?_, hi⟩⟩
  by_contra hge
  obtain ⟨s, hs⟩ := exists_item?_of_le hi (h.le.trans (Nat.not_lt.mp hge))
  have hget := getElem?_items_eq_some_iff.mpr ⟨h, hs⟩
  simp at hget

theorem length_le_of_getElem? {xs ys : List Timestamp} (offset : Nat)
    (h : ∀ i t, xs[i]? = some t → ys[offset + i]? = some t) : xs.length ≤ ys.length := by
  cases hx : xs.length with
  | zero => exact Nat.zero_le _
  | succ last =>
    have hget := h last _ (List.getElem?_eq_getElem (by omega))
    have hlt := (List.getElem?_eq_some_iff.mp hget).1
    omega

/-- An item is the start of its bucket, and not after the end. -/
theorem item?_iff_isStart {first last : Timestamp} {bucket : Int}
    (hfirst : IsStart f bucket first) {i : Nat} :
    (Range.mk first last f).item? i = some t ↔ IsStart f (bucket + i) t ∧ t ≤ last := by
  rw [item?_eq_some_iff]
  exact and_congr_left' hfirst.shift?_eq_some_iff

section Cut
variable {first b last : Timestamp} {bucket : Int} {k : Nat}

/-- From an item on that starts a bucket the counts start anew, with the same items. -/
theorem items_eq_drop (hfirst : IsStart f bucket first) (hb : IsStart f (bucket + k) b)
    (hcount : (Range.mk first last f).items.length < countBound) :
    (Range.mk b last f).items = (Range.mk first last f).items.drop k := by
  have hitem {i : Nat} {t : Timestamp} : (Range.mk b last f).item? i = some t ↔
      (Range.mk first last f).item? (k + i) = some t := by
    rw [item?_iff_isStart hfirst, item?_iff_isStart hb, Int.natCast_add, Int.add_assoc]
  have hlength : (Range.mk b last f).items.length < countBound := by
    refine (length_le_of_getElem? k fun i t hi => ?_).trans_lt hcount
    rw [getElem?_items_iff hcount]
    exact hitem.mp (item?_of_getElem?_items hi)
  refine List.ext_getElem? fun i => Option.ext fun t => ?_
  rw [List.getElem?_drop, getElem?_items_iff hlength, getElem?_items_iff hcount, hitem]

/-- Up to the second before an item that starts a bucket there are the items before it. -/
theorem items_eq_take {before : Timestamp} (hfirst : IsStart f bucket first)
    (hb : IsStart f (bucket + k) b) (hbefore : b.shift? .second (-1) = some before)
    (hlast : b ≤ last) (hcount : (Range.mk first last f).items.length < countBound) :
    (Range.mk first before f).items = (Range.mk first last f).items.take k := by
  have hitem {i : Nat} {t : Timestamp} : (Range.mk first before f).item? i = some t ↔
      (Range.mk first last f).item? i = some t ∧ i < k := by
    rw [item?_iff_isStart hfirst, item?_iff_isStart hfirst]
    constructor
    · rintro ⟨ht, hle⟩
      have hlt := hb.lt_iff.mp ((hb.le_iff_lt ht hbefore).mp hle)
      rw [ht.bucketOf] at hlt
      have htb : t ≤ b := ht.le_iff.mpr (by rw [hb.bucketOf]; omega)
      exact ⟨⟨ht, Timestamp.le_trans htb hlast⟩, by omega⟩
    · rintro ⟨⟨ht, -⟩, hi⟩
      refine ⟨ht, (hb.le_iff_lt ht hbefore).mpr (hb.lt_iff.mpr ?_)⟩
      rw [ht.bucketOf]
      omega
  have hlength : (Range.mk first before f).items.length < countBound := by
    refine (length_le_of_getElem? 0 fun i t hi => ?_).trans_lt hcount
    rw [Nat.zero_add, getElem?_items_iff hcount]
    exact (hitem.mp (item?_of_getElem?_items hi)).1
  refine List.ext_getElem? fun i => Option.ext fun t => ?_
  rw [getElem?_items_iff hlength, hitem, List.getElem?_take]
  split
  case isTrue hi => rw [getElem?_items_iff hcount, and_iff_left hi]
  case isFalse hi => simp [hi]

/-- A range is cut in two at an item that starts a bucket. -/
theorem items_eq_append {before : Timestamp} (hfirst : IsStart f bucket first)
    (hb : IsStart f (bucket + k) b) (hbefore : b.shift? .second (-1) = some before)
    (hlast : b ≤ last) (hcount : (Range.mk first last f).items.length < countBound) :
    (Range.mk first last f).items =
      (Range.mk first before f).items ++ (Range.mk b last f).items := by
  rw [items_eq_take hfirst hb hbefore hlast hcount, items_eq_drop hfirst hb hcount,
    List.take_append_drop]

end Cut

end Range

end Scorecard.Calendar
