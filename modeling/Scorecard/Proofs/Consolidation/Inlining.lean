import Scorecard.Proofs.Consolidation.Meaning

/-! Formulas written out. In the expression of a formula the references to formulas can be
replaced by what those say, until only references to series reduced from raw values are
left. That expression comes to the value of the formula in every bucket, so it makes no
difference that a run computes the formulas one by one and passes on only whether they
have a value. -/
namespace Scorecard.Consolidation

open Formula (Context Expression Registry referenceName)
open Kpi (Definition)

variable {ν : Type} [Arithmetic ν]

/-- What references stand for in one bucket of a report without the series of formulas. -/
def Report.rawContext (report : Report ν) (r : Request ν) (index : Nat) : Context ν := fun key =>
  if r.definitions.any fun d => d.name = referenceName key && !d.isFormula then
    report.context index key
  else none

/-- There is no endless replacing. Each formula says one thing, which is written out in one
way, and has a value just where what is written out has one. This is so in every bucket of the
grid of the request, since all series have those. -/
structure WritesOut (r : Request ν) (report : Report ν) : Prop where
  starts : ∃ grid, Grid.covering? r.start r.last r.frequency = some grid ∧
    ∀ name buckets, (name, buckets) ∈ report.series →
      buckets.map Bucket.start = grid.starts.toList
  ends : WellFounded fun after before => Expression.Replaces r.Means before after
  formulas (d : Definition ν) : d ∈ r.definitions → d.isFormula → ∃ tree whole buckets,
    Says d tree ∧ (∀ other, Says d other → other = tree) ∧
    Expression.Inlined r.Means tree whole ∧
    (∀ other, Expression.Inlined r.Means tree other → other = whole) ∧
    report.series.lookup d.name = some buckets ∧
    ∀ index bucket value, buckets[index]? = some bucket → (bucket.value = some value ↔
      whole.program.evaluate (report.rawContext r index) Registry.standard = .ok value)

namespace Stages

variable {r : Request ν} {report : Report ν} (s : Stages r report)
include s

/-- Where a key refers to no formula, leaving the formulas out takes nothing away. -/
theorem rawContext_eq {key : String} (h : ∀ e, ¬ r.Means key e) (index : Nat) :
    report.rawContext r index key = report.context index key := by
  unfold Report.rawContext
  split
  case isTrue => rfl
  case isFalse hany =>
    refine (s.context_eq_none (fun d hd hname => ?_) index).symm
    cases hf : d.isFormula with
    | true =>
      obtain ⟨e, he, -⟩ := s.exists_says hd hf
      exact h e ⟨d, hd, hname, he⟩
    | false => exact hany (List.any_eq_true.mpr ⟨d, hd, by simp [hname, hf]⟩)

theorem toOption_evaluate_inlined {e whole : Expression ν} (h : Expression.Inlined r.Means e whole)
    {index : Nat} (hi : index < s.grid.size) :
    (whole.program.evaluate (report.rawContext r index) Registry.standard).toOption =
      (e.program.evaluate (report.context index) Registry.standard).toOption := by
  have hraw : ∀ key ∈ whole.program.references,
      report.rawContext r index key = report.context index key := fun key hk =>
    s.rawContext_eq (h.plain key (Expression.mem_references_program.mp hk)) index
  have hvalue : whole.value? (report.context index) Registry.standard =
      e.value? (report.context index) Registry.standard :=
    h.value?_eq _ fun key inner hm => s.context_eq_value? hm hi
  rw [Formula.Program.evaluate_congr hraw, Expression.toOption_evaluate_program, hvalue,
    Expression.toOption_evaluate_program]

end Stages

theorem run_writesOut {r : Request ν} {report : Report ν} (h : run r = .ok report) :
    WritesOut r report := by
  obtain ⟨s⟩ := exists_stages h
  refine ⟨⟨s.grid, s.covering, fun _ _ => s.start_of_mem_series⟩, s.ranked.wellFounded,
    fun d hd hf => ?_⟩
  obtain ⟨tree, hsays, -, hs⟩ := s.exists_says hd hf
  obtain ⟨whole, hw⟩ := s.ranked.exists_inlined tree
  obtain ⟨buckets, hl, -⟩ := s.lookup_series hs
  refine ⟨tree, whole, buckets, hsays, fun _ => hsays.unique, hw,
    fun _ => s.ranked.inlined_unique hw, hl, ?_⟩
  intro index bucket value hb
  have hi := (s.getElem?_series hs hl hb).1
  rw [s.value_formula hs hl hb, ← s.toOption_evaluate_inlined hw hi]
  cases whole.program.evaluate (report.rawContext r index) Registry.standard with
  | ok found => simp [Except.toOption]
  | error fault => simp [Except.toOption]

theorem run_writesOut_layered : ∃ report, run layered = .ok report ∧ WritesOut layered report := by
  obtain ⟨report, h⟩ : ∃ report, run layered = .ok report := exists_eq_ok (by decide +kernel)
  exact ⟨report, h, run_writesOut h⟩

end Scorecard.Consolidation
