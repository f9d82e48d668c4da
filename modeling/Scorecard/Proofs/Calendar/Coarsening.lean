import Mathlib.Data.List.Chain
import Scorecard.Proofs.Calendar.Walking

/-! Buckets made of buckets. The frequencies stand in two chains, one up to years and one up to
weeks, and in either of them each bucket of a frequency starts where a bucket of the one before
it starts. Boundaries of the coarser frequency are then boundaries of every finer one, which is
all that is needed: rounding to the finer buckets first makes no difference, and no finer bucket
lies across the border of a coarser one. Weeks and months are in no such relation. -/
namespace Scorecard.Calendar

namespace Frequency

/-- The frequencies up to a year, the finest first. -/
def yearChain : List Frequency := [.second, .minute, .hour, .day, .month, .semester, .year]

/-- The frequencies up to a week, the finest first. -/
def weekChain : List Frequency := [.second, .minute, .hour, .day, .week]

/-- One frequency comes before another in a chain. -/
def Finer (fine coarse : Frequency) : Prop :=
  [fine, coarse].Sublist yearChain ∨ [fine, coarse].Sublist weekChain

instance (fine coarse : Frequency) : Decidable (Finer fine coarse) :=
  inferInstanceAs (Decidable (_ ∨ _))

/-- Every boundary of the coarse frequency is a boundary of the fine one. -/
def Divides (fine coarse : Frequency) : Prop :=
  ∀ bucket, ∃ part, coarse.boundary bucket = fine.boundary part

theorem Divides.trans {fine middle coarse : Frequency} (h : fine.Divides middle)
    (hm : middle.Divides coarse) : fine.Divides coarse := by
  intro bucket
  obtain ⟨part, hpart⟩ := hm bucket
  obtain ⟨piece, hpiece⟩ := h part
  exact ⟨piece, hpart.trans hpiece⟩

instance : IsTrans Frequency Divides :=
  ⟨fun _ _ _ => Divides.trans⟩

theorem divides_of_seconds {fine coarse : Frequency} {length : Int} (count : Int)
    (hf : fine.span = .seconds length) (hc : coarse.span = .seconds (length * count)) :
    fine.Divides coarse := by
  intro bucket
  refine ⟨count * bucket, ?_⟩
  rw [boundary_of_seconds hf, boundary_of_seconds hc, Int.mul_assoc]

theorem divides_of_months {fine coarse : Frequency} {length : Int} (count : Int)
    (hf : fine.span = .months length) (hc : coarse.span = .months (length * count)) :
    fine.Divides coarse := by
  intro bucket
  refine ⟨count * bucket, ?_⟩
  rw [boundary_of_months hf, boundary_of_months hc, Int.mul_assoc]

/-- Months start on whole days. -/
theorem day_divides_month : day.Divides month := by
  intro bucket
  refine ⟨monthStart bucket, ?_⟩
  rw [boundary_of_months (f := month) rfl, boundary_of_seconds (f := day) rfl, Int.one_mul]

theorem isChain_yearChain : yearChain.IsChain Divides := by
  have hminute : second.Divides minute := divides_of_seconds 60 rfl rfl
  have hhour : minute.Divides hour := divides_of_seconds 60 rfl rfl
  have hday : hour.Divides day := divides_of_seconds 24 rfl rfl
  have hsemester : month.Divides semester := divides_of_months 6 rfl rfl
  have hyear : semester.Divides year := divides_of_months 2 rfl rfl
  simp [yearChain, hminute, hhour, hday, day_divides_month, hsemester, hyear]

theorem isChain_weekChain : weekChain.IsChain Divides := by
  have hminute : second.Divides minute := divides_of_seconds 60 rfl rfl
  have hhour : minute.Divides hour := divides_of_seconds 60 rfl rfl
  have hday : hour.Divides day := divides_of_seconds 24 rfl rfl
  have hweek : day.Divides week := divides_of_seconds 7 rfl rfl
  simp [weekChain, hminute, hhour, hday, hweek]

theorem Finer.divides {fine coarse : Frequency} (h : fine.Finer coarse) : fine.Divides coarse := by
  rcases h with h | h
  · exact List.pairwise_iff_forall_sublist.mp (List.isChain_iff_pairwise.mp isChain_yearChain) h
  · exact List.pairwise_iff_forall_sublist.mp (List.isChain_iff_pairwise.mp isChain_weekChain) h

/-- Nothing is made of weeks. -/
theorem Finer.ne_week {fine coarse : Frequency} (h : fine.Finer coarse) : fine ≠ .week := by
  rcases h with h | h
  · exact List.pairwise_iff_forall_sublist (R := fun f _ => f ≠ .week).mp (by decide) h
  · exact List.pairwise_iff_forall_sublist (R := fun f _ => f ≠ .week).mp (by decide) h

/-- Where the coarse bucket of a second starts, a fine one starts, and not after its own. -/
theorem Divides.bucketOf_boundary {fine coarse : Frequency} (h : fine.Divides coarse)
    (second : Int) :
    coarse.bucketOf (fine.boundary (fine.bucketOf second)) = coarse.bucketOf second := by
  obtain ⟨part, hpart⟩ := h (coarse.bucketOf second)
  have hle : fine.boundary (fine.bucketOf second) ≤ second := (fine.bucketOf_spec second).1
  refine le_antisymm ?_ ?_
  · exact boundary_le_iff.mp ((coarse.bucketOf_spec _).1.trans hle)
  · have hp : part ≤ fine.bucketOf second :=
      boundary_le_iff.mp (hpart ▸ (coarse.bucketOf_spec second).1)
    exact boundary_le_iff.mp (hpart ▸ fine.boundary_strictMono.monotone hp)

end Frequency

namespace Timestamp

open Frequency

variable {fine coarse : Frequency}

theorem exists_roundDown? {f : Frequency} (h : f ≠ .week) (t : Timestamp) :
    ∃ s, t.roundDown? f = some s := by
  refine Option.ne_none_iff_exists'.mp fun hnone => ?_
  exact h (roundDown?_eq_none_iff_monday.mp hnone).1

/-- The start of a coarse bucket is the start of a fine one. -/
theorem IsStart.of_divides {bucket : Int} {s : Timestamp} (h : fine.Divides coarse)
    (hs : IsStart coarse bucket s) : ∃ part, IsStart fine part s := by
  obtain ⟨part, hpart⟩ := h bucket
  exact ⟨part, hs.second.trans hpart, hs.nano⟩

/-- Within a fine bucket, rounding to coarse buckets comes to the same. -/
theorem roundDown?_coarse_of_fine {t s : Timestamp} (h : fine.Divides coarse)
    (hs : t.roundDown? fine = some s) : s.roundDown? coarse = t.roundDown? coarse := by
  rw [roundDown?_eq, roundDown?_eq, (roundDown?_eq_some_iff.mp hs).second, h.bucketOf_boundary]

end Timestamp

namespace Reading

open Timestamp (IsStart)

variable {f : Frequency} {r s : Reading}

/-- What a reading is rounded down to starts a bucket, and stays where it is. -/
theorem roundDown?_of_roundDown? (h : r.roundDown? f = some s) : s.roundDown? f = some s := by
  obtain ⟨t, ht, rfl⟩ := roundDown?_eq_some_iff.mp h
  exact roundDown?_eq_self_iff.mpr ⟨_, t, ht, rfl⟩

section Divides
variable {fine coarse : Frequency} (h : fine.Divides coarse)
include h

theorem roundDown?_coarse_of_fine (hs : r.roundDown? fine = some s) :
    s.roundDown? coarse = r.roundDown? coarse := by
  obtain ⟨t, ht, rfl⟩ := Option.map_eq_some_iff.mp hs
  exact congrArg (Option.map Timestamp.reading) (Timestamp.roundDown?_coarse_of_fine h ht)

/-- The start of a coarse bucket starts a fine one as well. -/
theorem roundDown?_fine_of_coarse (hs : s.roundDown? coarse = some s) :
    s.roundDown? fine = some s := by
  obtain ⟨bucket, t, ht, rfl⟩ := roundDown?_eq_self_iff.mp hs
  obtain ⟨part, hpart⟩ := ht.of_divides h
  exact roundDown?_eq_self_iff.mpr ⟨part, t, hpart, rfl⟩

end Divides

/-- A step from the start of a bucket leads to the start of one. -/
theorem roundDown?_of_advance {next : Reading} (hs : s.roundDown? f = some s)
    (h : s.advance f 1 = .ok (some next)) : next.roundDown? f = some next := by
  obtain ⟨bucket, t, ht, rfl⟩ := roundDown?_eq_self_iff.mp hs
  obtain ⟨t', ht', rfl⟩ := ht.advance_one_eq_ok_iff.mp h
  exact roundDown?_eq_self_iff.mpr ⟨_, t', ht', rfl⟩

/-- Rounding to coarse buckets may go by way of finer ones. Where a coarse bucket starts, a fine
one starts, and so it is where the next coarse one starts. A coarse bucket consists of all the
fine ones that start in it, each of them as a whole. -/
theorem roundDown?_nested {fine coarse : Frequency} (h : fine.Finer coarse) :
    (∀ r : Reading, ∃ s, r.roundDown? fine = some s ∧ s.roundDown? coarse = r.roundDown? coarse) ∧
    ∀ r start : Reading, r.roundDown? coarse = some start →
      start.roundDown? fine = some start ∧
      (∀ next, start.advance coarse 1 = .ok (some next) → next.roundDown? fine = some next) ∧
      ∀ other : Reading, other.roundDown? coarse = some start ↔
        ∃ s, s.roundDown? fine = some s ∧ s.roundDown? coarse = some start ∧
          other.roundDown? fine = some s := by
  have hd := h.divides
  have hfine (r : Reading) : ∃ s, r.roundDown? fine = some s := by
    obtain ⟨t, ht⟩ := Timestamp.exists_roundDown? h.ne_week r.time
    exact ⟨t.reading, Option.map_eq_some_iff.mpr ⟨t, ht, rfl⟩⟩
  refine ⟨fun r => ?_, fun r start hstart => ?_⟩
  · obtain ⟨s, hs⟩ := hfine r
    exact ⟨s, hs, roundDown?_coarse_of_fine hd hs⟩
  have hself := roundDown?_of_roundDown? hstart
  refine ⟨roundDown?_fine_of_coarse hd hself,
    fun next hnext => roundDown?_fine_of_coarse hd (roundDown?_of_advance hself hnext),
    fun other => ⟨fun hother => ?_, ?_⟩⟩
  · obtain ⟨s, hs⟩ := hfine other
    exact ⟨s, roundDown?_of_roundDown? hs, (roundDown?_coarse_of_fine hd hs).trans hother, hs⟩
  · rintro ⟨s, -, hs, hother⟩
    exact (roundDown?_coarse_of_fine hd hother).symm.trans hs

/-- Half a second into an hour of the evening of 29 February 2024, a Thursday. -/
def leapEvening : Reading :=
  (⟨86400 * (monthStart (12 * 2024 + 1) + 28) + 68400, 500000000, by decide, by decide,
    by decide⟩ : Timestamp).reading

/-- The week of that evening starts on the Monday before. -/
theorem roundDown?_nested_leapEvening :
    Frequency.Finer .hour .week ∧
    (∃ s, leapEvening.roundDown? .hour = some s ∧
      s.roundDown? .week = leapEvening.roundDown? .week) ∧
    ∃ start, leapEvening.roundDown? .week = some start ∧
      start.time.second = 86400 * (monthStart (12 * 2024 + 1) + 25) ∧
      start.roundDown? .hour = some start ∧
      (∀ next, start.advance .week 1 = .ok (some next) → next.roundDown? .hour = some next) ∧
      ∀ other : Reading, other.roundDown? .week = some start ↔
        ∃ s, s.roundDown? .hour = some s ∧ s.roundDown? .week = some start ∧
          other.roundDown? .hour = some s := by
  have hfiner : Frequency.Finer .hour .week := by decide
  obtain ⟨hround, hnested⟩ := roundDown?_nested hfiner
  have hmonday : ∃ start, leapEvening.roundDown? .week = some start ∧
      start.time.second = 86400 * (monthStart (12 * 2024 + 1) + 25) := ⟨_, rfl, rfl⟩
  obtain ⟨start, hstart, hsecond⟩ := hmonday
  exact ⟨hfiner, hround leapEvening, start, hstart, hsecond, hnested leapEvening start hstart⟩

end Reading

end Scorecard.Calendar
