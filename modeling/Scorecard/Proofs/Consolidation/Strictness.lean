import Scorecard.Proofs.Consolidation.Meaning
import Scorecard.Proofs.Consolidation.Outcomes

/-! Strict runs. Where a formula fails, a run that is not strict leaves the bucket without a
value and goes on, and a strict run ends. So what comes later in the two runs cannot be
compared. But up to the first failure they have the same series, and a missing value ends
neither of them. So a strict run comes to the report of the other run if nothing fails in
that, and otherwise to its first failure. -/
namespace Scorecard.Consolidation

open Formula (Context EvaluationError Registry)
open Kpi (Definition)

variable {ν : Type} [Arithmetic ν]

/-- The names in the order in which a run evaluates their formulas. -/
def Request.EvaluationOrder (r : Request ν) (order : List String) : Prop :=
  ∃ compiled, r.definitions.mapM compileOne = .ok compiled ∧ evaluationOrder compiled = .ok order

/-- In a context a formula fails, and not because a value is missing. -/
def Fails (d : Definition ν) (context : Context ν) (fault : EvaluationError) : Prop :=
  ∃ e, Says d e ∧ e.program.evaluate context Registry.standard = .error fault ∧
    ∀ key, fault ≠ .unresolvedReference key

/-- The formula of a name fails, and there is one context for each bucket: it fails like this
in the first bucket in which it fails, and no formula before it fails in any bucket. -/
structure FailsFirst (r : Request ν) (contexts : List (Context ν)) (name : String)
    (fault : EvaluationError) : Prop where
  first : ∃ before after, r.EvaluationOrder (before ++ name :: after) ∧
    ∀ d ∈ r.definitions, d.name ∈ before → ∀ context ∈ contexts, ∀ other, ¬ Fails d context other
  fails : ∃ d ∈ r.definitions, d.name = name ∧ ∃ earlier context later,
    contexts = earlier ++ context :: later ∧ Fails d context fault ∧
      ∀ context ∈ earlier, ∀ other, ¬ Fails d context other

/-! ### Failures of one formula -/

theorem fails_iff {d : Definition ν} {e : Formula.Expression ν} (he : Says d e)
    {context : Context ν} {fault : EvaluationError} : Fails d context fault ↔
      e.program.evaluate context Registry.standard = .error fault ∧
        fault.isRecoverable = false := by
  have hfault : (∀ key, fault ≠ .unresolvedReference key) ↔ fault.isRecoverable = false := by
    rw [← Bool.not_eq_true, isRecoverable_iff, not_exists]
  constructor
  · rintro ⟨other, ho, heval, hkeys⟩
    rw [he.unique ho] at heval
    exact ⟨heval, hfault.mp hkeys⟩
  · rintro ⟨heval, hkeys⟩
    exact ⟨e, he, heval, hfault.mpr hkeys⟩

theorem not_fails_iff {d : Definition ν} {e : Formula.Expression ν} (he : Says d e)
    {context : Context ν} : (∀ fault, ¬ Fails d context fault) ↔
      isFailed (e.program.evaluate context Registry.standard) = false := by
  simp only [fails_iff he]
  cases e.program.evaluate context Registry.standard with
  | ok value => simp [isFailed]
  | error fault => simp [isFailed]

namespace Computed

variable {r : Request ν} (c : Computed r)

/-- What references stand for in each bucket. -/
def contexts : List (Context ν) :=
  (List.range c.grid.size).map c.table.context

theorem resultsOf_of_says {d : Definition ν} {e : Formula.Expression ν} (hd : d ∈ r.definitions)
    (he : Says d e) : resultsOf (programs c.compiled) c.table c.grid.size d.name =
      c.contexts.map (e.program.evaluate · Registry.standard) := by
  obtain ⟨program?, hc, hcompile, -⟩ := c.compiled_mem hd
  obtain rfl := he.compileOne_eq hcompile
  rw [resultsOf, (c.get?_programs_iff hd).mpr hc, contexts, List.map_map]
  rfl

/-- Only a formula has results. -/
theorem exists_says_of_failure {d : Definition ν} (hd : d ∈ r.definitions)
    {fault : EvaluationError}
    (h : firstFailure? (resultsOf (programs c.compiled) c.table c.grid.size d.name) = some fault) :
    ∃ e, Says d e := by
  unfold resultsOf at h
  split at h
  case h_1 program hp =>
    obtain ⟨-, hall⟩ := compileOne_of_mapM c.compiles
    have hc := hall _ ((c.get?_programs_iff hd).mp hp)
    exact (says_of_compileOne hc).imp fun e he => he.1
  case h_2 => contradiction

theorem not_fails_of_firstFailure? {d : Definition ν} (hd : d ∈ r.definitions)
    (h : firstFailure? (resultsOf (programs c.compiled) c.table c.grid.size d.name) = none)
    {context : Context ν} (hcontext : context ∈ c.contexts) (fault : EvaluationError) :
    ¬ Fails d context fault := by
  intro hf
  obtain ⟨e, he, -⟩ := id hf
  rw [c.resultsOf_of_says hd he, firstFailure?_eq_none_iff] at h
  exact (not_fails_iff he).mpr (h _ (List.mem_map_of_mem hcontext)) fault hf

/-- What ends a strict run is the first failure in the series of a run that goes on. -/
theorem failsFirst_of_fault? {name : String} {fault : EvaluationError}
    (h : c.fault? = some (name, fault)) : FailsFirst r c.contexts name fault := by
  obtain ⟨before, after, horder, hbefore, hfault⟩ := firstFault?_eq_some_iff.mp h
  refine ⟨⟨before, after, ⟨c.compiled, c.compiles, horder ▸ c.ordered⟩, ?_⟩, ?_⟩
  · intro d hd hname context hcontext
    exact c.not_fails_of_firstFailure? hd (hbefore d.name hname) hcontext
  · have hmem : name ∈ c.order := horder ▸ List.mem_append_right _ List.mem_cons_self
    obtain ⟨d, hd, rfl⟩ := c.mem_order.mp hmem
    obtain ⟨e, he⟩ := c.exists_says_of_failure hd hfault
    rw [c.resultsOf_of_says hd he, firstFailure?_map_eq_some_iff] at hfault
    obtain ⟨earlier, context, later, hsplit, heval, hearlier⟩ := hfault
    exact ⟨d, hd, rfl, earlier, context, later, hsplit, (fails_iff he).mpr heval,
      fun other ho => (not_fails_iff he).mpr (hearlier other ho)⟩

theorem fault?_eq_none_iff_not_fails : c.fault? = none ↔
    ∀ d ∈ r.definitions, ∀ context ∈ c.contexts, ∀ fault, ¬ Fails d context fault := by
  constructor
  · intro h d hd context hcontext
    have hnone := List.findSome?_eq_none_iff.mp h d.name (c.mem_order.mpr ⟨d, hd, rfl⟩)
    exact c.not_fails_of_firstFailure? hd (Option.map_eq_none_iff.mp hnone) hcontext
  · intro h
    refine Option.eq_none_iff_forall_ne_some.mpr fun ⟨name, fault⟩ hfault => ?_
    obtain ⟨-, d, hd, -, earlier, context, later, hsplit, hfails, -⟩ :=
      c.failsFirst_of_fault? hfault
    refine h d hd context ?_ fault hfails
    rw [hsplit]
    exact List.mem_append_right _ List.mem_cons_self

end Computed

/-- What references stand for in each of the buckets of a report. -/
def Report.contexts (report : Report ν) (size : Nat) : List (Context ν) :=
  (List.range size).map report.context

theorem Stages.contexts_eq {r : Request ν} {report : Report ν} (s : Stages r report) :
    report.contexts r.starts.length = s.contexts := by
  rw [s.length_starts, Report.contexts, Computed.contexts]
  exact List.map_congr_left fun index _ => s.context_eq index

/-- A run that ends as a strict one or goes on has its series either way. -/
theorem exists_computed_of_run {r : Request ν} {strict : Bool} {report : Report ν}
    (h : run { r with strict := strict } = .ok report) : Nonempty (Computed r) := by
  obtain ⟨s⟩ := exists_stages h
  exact ⟨s.toComputed.withStrict r.strict⟩

/-- A strict run comes to a report if and only if the run that goes on comes to the same one
and has no failure in it. If it has one, the strict run ends with the first: that of the first
formula that fails, in the order of evaluation, and there in its first bucket that fails. -/
theorem run_strict (r : Request ν) :
    (∀ report, run { r with strict := true } = .ok report ↔
      run { r with strict := false } = .ok report ∧ report.tally.failed = 0) ∧
    ∀ report, run { r with strict := false } = .ok report → 0 < report.tally.failed →
      ∃ name fault, FailsFirst r (report.contexts r.starts.length) name fault ∧
        run { r with strict := true } = .error (.formula name (.evaluation fault)) := by
  constructor
  · intro report
    constructor
    · intro h
      obtain ⟨c⟩ := exists_computed_of_run h
      obtain ⟨hunfailing, hreport⟩ := (c.withStrict true).run_eq_ok_iff.mp h
      refine ⟨(c.withStrict false).run_eq_ok_iff.mpr ⟨by simp, hreport⟩, ?_⟩
      rw [hreport.2.1]
      exact hunfailing rfl
    · rintro ⟨h, hfailed⟩
      obtain ⟨c⟩ := exists_computed_of_run h
      obtain ⟨-, hreport⟩ := (c.withStrict false).run_eq_ok_iff.mp h
      exact (c.withStrict true).run_eq_ok_iff.mpr ⟨fun _ => hreport.2.1 ▸ hfailed, hreport⟩
  · intro report h hfailed
    obtain ⟨c⟩ := exists_computed_of_run h
    obtain ⟨s, hs⟩ := (c.withStrict false).exists_stages h
    cases hfault : c.fault? with
    | none =>
      have hzero : c.tally.failed = 0 := c.fault?_eq_none_iff.mp hfault
      rw [s.tally_eq, hs] at hfailed
      exact absurd hzero hfailed.ne'
    | some first =>
      obtain ⟨name, fault⟩ := first
      have hcontexts : report.contexts r.starts.length = c.contexts := by
        rw [← show s.contexts = c.contexts by rw [hs]; rfl]
        exact s.contexts_eq
      exact ⟨name, fault, hcontexts ▸ c.failsFirst_of_fault? hfault,
        (c.withStrict true).run_eq_of_fault? rfl hfault⟩

/-- A weighted mean of one argument, which has no weight. The second day has no value. -/
def unweighted : Request Float :=
  { layered with
    definitions := [
      ⟨"base", none, .sum, none, none, none⟩,
      ⟨"level", none, .formula, some "WEIGHTED(\"base\")", none, none⟩] }

theorem run_strict_unweighted : ∃ report, run { unweighted with strict := false } = .ok report ∧
    0 < report.tally.failed ∧ ∃ name fault,
      FailsFirst unweighted (report.contexts unweighted.starts.length) name fault ∧
        run { unweighted with strict := true } = .error (.formula name (.evaluation fault)) := by
  have hfailed : ((run { unweighted with strict := false }).toOption.any fun report =>
      0 < report.tally.failed) = true := by decide +kernel
  obtain ⟨report, h⟩ : ∃ report, run { unweighted with strict := false } = .ok report :=
    exists_eq_ok (by decide +kernel)
  rw [h] at hfailed
  have hpos : 0 < report.tally.failed := by simpa [Except.toOption] using hfailed
  exact ⟨report, h, hpos, (run_strict unweighted).2 report h hpos⟩

end Scorecard.Consolidation
