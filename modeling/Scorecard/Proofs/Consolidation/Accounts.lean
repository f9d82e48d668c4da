import Scorecard.Proofs.Consolidation.Strictness
import Scorecard.Proofs.Formula.Faults

/-! The counts of a run. Every bucket of a formula is counted once: with those that have a
value, with those that lack one that the formula refers to, or with those that fail. A value
that a formula lacks is missing in the report as well, so nothing is ever missing only because
it came too late or was looked for in a wrong place. -/
namespace Scorecard.Consolidation

open Formula (Context EvaluationError Expression Registry referenceName)
open Kpi (Definition)

variable {ν : Type}

/-- What a formula comes to in a context; nothing else comes to anything. -/
def resultIn? [Arithmetic ν] (d : Definition ν) (context : Context ν) :
    Option (Except EvaluationError ν) :=
  match compileOne d with
  | .ok c => c.program?.map (·.evaluate context Registry.standard)
  | .error _ => none

/-- The buckets of the formulas, each by its definition and its place. -/
def Request.cells (r : Request ν) : List (Definition ν × Nat) :=
  (r.definitions.filter (·.isFormula)).flatMap fun d =>
    (List.range r.starts.length).map (d, ·)

theorem mem_cells {r : Request ν} {d : Definition ν} {i : Nat} :
    (d, i) ∈ r.cells ↔ d ∈ r.definitions ∧ d.isFormula ∧ i < r.starts.length := by
  simp [Request.cells, List.mem_flatMap, and_assoc]

/-! ### Lists of lists -/

theorem length_flatMap_of_forall {α β : Type} {members : List α} {f : α → List β} {size : Nat}
    (h : ∀ a ∈ members, (f a).length = size) :
    (members.flatMap f).length = members.length * size := by
  rw [List.length_flatMap, List.map_congr_left h, List.map_const', List.sum_replicate_nat]

theorem flatMap_filter {α β : Type} {members : List α} {f : α → List β} {p : α → Bool}
    (h : ∀ a ∈ members, p a = false → f a = []) :
    (members.filter p).flatMap f = members.flatMap f := by
  induction members with
  | nil => rfl
  | cons a rest ih =>
    obtain ⟨ha, hrest⟩ := List.forall_mem_cons.mp h
    cases hp : p a with
    | true => rw [List.filter_cons_of_pos hp, List.flatMap_cons, List.flatMap_cons, ih hrest]
    | false =>
      rw [List.filter_cons_of_neg (by simp [hp]), List.flatMap_cons, ha hp, ih hrest,
        List.nil_append]

theorem length_cells (r : Request ν) :
    r.cells.length = r.definitions.countP (·.isFormula) * r.starts.length := by
  rw [Request.cells, length_flatMap_of_forall fun d _ => by rw [List.length_map, List.length_range],
    List.countP_eq_length_filter]

theorem bucketCount_eq_of_forall {report : Report ν} {size : Nat}
    (h : ∀ entry ∈ report.series, entry.2.length = size) :
    report.bucketCount = report.series.length * size := by
  rw [← length_flatMap_of_forall h, List.length_flatMap, List.sum_eq_foldl, List.foldl_map]
  rfl

variable [Arithmetic ν]

/-- The counts of a report are those of its series and of their buckets. -/
structure Accounts (r : Request ν) (report : Report ν) : Prop where
  definitions : report.definitionCount = r.definitions.length
  series : report.series.length = r.definitions.length
  lengths : ∀ d ∈ r.definitions, ∃ buckets, report.series.lookup d.name = some buckets ∧
    buckets.length = r.starts.length
  buckets : report.bucketCount = r.definitions.length * r.starts.length
  total : report.tally.evaluated + report.tally.unresolved + report.tally.failed =
    r.definitions.countP (·.isFormula) * r.starts.length
  evaluated : report.tally.evaluated =
    r.cells.countP fun (d, i) => (report.valueAt? d.name i).isSome
  unresolved : report.tally.unresolved =
    r.cells.countP fun (d, i) => (resultIn? d (report.context i)).any isUnresolved
  /-- What a formula lacks is the value of something it refers to. -/
  lacks : ∀ d i, (d, i) ∈ r.cells → (resultIn? d (report.context i)).any isUnresolved →
    ∃ k ∈ r.definitions, r.RefersTo d.name k.name ∧ report.valueAt? k.name i = none
  /-- Without a value that it refers to, a formula has none. -/
  missing : ∀ d i, (d, i) ∈ r.cells → ∀ reference, r.RefersTo d.name reference →
    report.valueAt? reference i = none → report.valueAt? d.name i = none

theorem countP_filterMap {α β : Type} (f : α → Option β) (p : β → Bool) (members : List α) :
    (members.filterMap f).countP p = members.countP fun a => (f a).any p := by
  rw [List.countP_filterMap]
  congr 1
  funext a
  cases f a <;> rfl

/-! ### The buckets of formulas -/

theorem resultIn?_of_says {d : Definition ν} {e : Expression ν} {c : Compiled ν} (he : Says d e)
    (h : compileOne d = .ok c) (context : Context ν) :
    resultIn? d context = some (e.program.evaluate context Registry.standard) := by
  obtain ⟨definition, program?⟩ := c
  obtain rfl := (definition_of_compileOne h).1
  obtain rfl := he.compileOne_eq h
  rw [resultIn?, h]
  rfl

theorem resultIn?_of_not_formula {d : Definition ν} (hf : d.isFormula = false)
    (context : Context ν) : resultIn? d context = none := by
  simp [resultIn?, compileOne, hf]

/-- What the formulas come to in their buckets, one formula after the other. -/
theorem filterMap_cells (r : Request ν) (contextAt : Nat → Context ν) :
    (r.cells.filterMap fun (d, i) => resultIn? d (contextAt i)) =
      r.definitions.flatMap fun d =>
        ((List.range r.starts.length).map contextAt).filterMap (resultIn? d) := by
  rw [Request.cells, List.filterMap_flatMap]
  simp only [List.filterMap_map]
  refine flatMap_filter fun d _ hf => ?_
  exact List.filterMap_eq_nil_iff.mpr fun i _ => resultIn?_of_not_formula hf _

theorem Computed.resultsOf_eq {r : Request ν} (c : Computed r) {d : Definition ν}
    (hd : d ∈ r.definitions) : resultsOf (programs c.compiled) c.table c.grid.size d.name =
      c.contexts.filterMap (resultIn? d) := by
  cases hf : d.isFormula with
  | false =>
    rw [resultsOf, c.get?_programs_of_not_formula hd hf]
    exact (List.filterMap_eq_nil_iff.mpr fun _ _ => resultIn?_of_not_formula hf _).symm
  | true =>
    obtain ⟨e, he, hc, -⟩ := c.exists_says hd hf
    have hresult : resultIn? d =
        some ∘ fun context => e.program.evaluate context Registry.standard :=
      funext fun context => resultIn?_of_says he hc context
    rw [c.resultsOf_of_says hd he, hresult, List.filterMap_eq_map]

namespace Stages

variable {r : Request ν} {report : Report ν} (s : Stages r report)
include s

theorem exists_resultIn? {d : Definition ν} {i : Nat} (h : (d, i) ∈ r.cells) : ∃ e, Says d e ∧
    resultIn? d (report.context i) =
      some (e.program.evaluate (report.context i) Registry.standard) ∧
    report.valueAt? d.name i =
      (e.program.evaluate (report.context i) Registry.standard).toOption := by
  obtain ⟨hd, hf, hi⟩ := mem_cells.mp h
  obtain ⟨e, he, hc, hs⟩ := s.exists_says hd hf
  rw [s.length_starts] at hi
  refine ⟨e, he, resultIn?_of_says he hc _, ?_⟩
  rw [s.valueAt?_eq, hs, Option.bind_some, getElem?_solution hi, s.context_eq]
  rfl

theorem length_of_mem_series {entry : String × List (Bucket ν)} (h : entry ∈ report.series) :
    entry.2.length = r.starts.length := by
  rw [s.starts_eq, ← s.start_of_mem_series h, List.length_map]

theorem length_series : report.series.length = r.definitions.length := by
  have hperm : (report.series.map Prod.fst).Perm (r.definitions.map Definition.name) := by
    rw [s.map_fst_series]
    refine (List.perm_ext_iff_of_nodup Std.TreeMap.nodup_keys s.names_nodup).mpr fun name => ?_
    rw [s.mem_keys_table, List.mem_map]
  rw [← List.length_map Prod.fst, hperm.length_eq, List.length_map]

theorem bucketCount_eq : report.bucketCount = r.definitions.length * r.starts.length := by
  rw [bucketCount_eq_of_forall fun entry he => s.length_of_mem_series he, s.length_series]

theorem tally_eq_of : report.tally = .of (r.definitions.flatMap fun d =>
    s.contexts.filterMap (resultIn? d)) := by
  rw [s.tally_eq, Computed.tally, Tally.of_perm (s.order_perm.flatMap_right _), List.flatMap_map,
    List.flatMap_def, List.flatMap_def]
  rw [List.map_congr_left fun d hd => s.resultsOf_eq hd]

/-- Counting the results is counting the buckets of formulas. -/
theorem tally_eq_cells : report.tally =
    .of (r.cells.filterMap fun (d, i) => resultIn? d (report.context i)) := by
  rw [s.tally_eq_of, filterMap_cells r report.context, ← s.contexts_eq]
  rfl

end Stages

/-- What a run counts is what it reports: its series with their buckets, and the buckets of
its formulas, with a value or without. -/
theorem run_accounts {r : Request ν} {report : Report ν} (h : run r = .ok report) :
    Accounts r report := by
  obtain ⟨s⟩ := exists_stages h
  have htotal : report.tally.total = r.cells.length := by
    rw [s.tally_eq_cells, Tally.total_of, List.length_filterMap_eq_countP, List.countP_eq_length]
    rintro ⟨d, i⟩ hm
    obtain ⟨e, -, hresult, -⟩ := s.exists_resultIn? hm
    simp only [hresult, Option.isSome_some]
  refine ⟨s.definitionCount_eq, s.length_series, ?lengths, s.bucketCount_eq,
    htotal.trans (length_cells r), ?evaluated, ?unresolved, ?lacks, ?missing⟩
  case lengths =>
    intro d hd
    obtain ⟨values, hv⟩ := s.exists_series hd
    obtain ⟨buckets, hl, -⟩ := s.lookup_series hv
    exact ⟨buckets, hl, s.length_of_mem_series (mem_of_lookup_eq_some hl)⟩
  case evaluated =>
    rw [s.tally_eq_cells]
    refine (countP_filterMap _ Except.isOk _).trans (List.countP_congr fun ⟨d, i⟩ hm => ?_)
    obtain ⟨e, -, hresult, hvalue⟩ := s.exists_resultIn? hm
    simp only [hresult, hvalue, Option.any_some]
    cases e.program.evaluate (report.context i) Registry.standard <;> rfl
  case unresolved =>
    rw [s.tally_eq_cells]
    exact countP_filterMap _ isUnresolved _
  case lacks =>
    intro d i hm hany
    obtain ⟨e, he, hresult, -⟩ := s.exists_resultIn? hm
    rw [hresult, Option.any_some] at hany
    obtain ⟨key, hfault⟩ := exists_of_isUnresolved hany
    obtain ⟨hk, hnone⟩ := Expression.missing_of_evaluate_program hfault
    have hrefers : r.RefersTo d.name (referenceName key) :=
      ⟨d, (mem_cells.mp hm).1, rfl, e, he, key, hk, rfl⟩
    obtain ⟨k, hk, hname⟩ := s.exists_of_refersTo hrefers
    exact ⟨k, hk, hname ▸ hrefers, hname ▸ hnone⟩
  case missing =>
    rintro d i hm _ ⟨other, ho, hname, e, he, key, hk, rfl⟩ hnone
    obtain ⟨hd, -, -⟩ := mem_cells.mp hm
    obtain rfl := List.inj_on_of_nodup_map s.names_nodup ho hd hname
    obtain ⟨found, hf, -, hvalue⟩ := s.exists_resultIn? hm
    rw [he.unique hf] at hvalue
    rw [hvalue]
    cases heval : e.program.evaluate (report.context i) Registry.standard with
    | error fault => rfl
    | ok value =>
      have hsome := Expression.isSome_of_evaluate_program heval key hk
      rw [show report.context i key = none from hnone] at hsome
      contradiction

/-- The layered request has two formulas and two days, and no value on the second day. -/
theorem run_accounts_layered :
    ∃ report, run layered = .ok report ∧ Accounts layered report := by
  obtain ⟨report, h⟩ : ∃ report, run layered = .ok report := exists_eq_ok (by decide +kernel)
  exact ⟨report, h, run_accounts h⟩

end Scorecard.Consolidation
