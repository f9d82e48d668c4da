import Scorecard.Proofs.Consolidation.Meaning
import Scorecard.Proofs.Consolidation.Observations

/-! What a value of a report depends on. A series draws on raw values: those of its own
name, or those of the names that its formula refers to, through any number of formulas.
A bucket depends on what it draws on in that bucket and on nothing else. So two runs with
the same raw values there come to the same, whatever other raw values they have. -/
namespace Scorecard.Consolidation

open Formula (Context Expression Program Registry referenceName)
open Kpi (Definition Observation)

variable {ν : Type}

namespace Request

variable [Arithmetic ν]

/-- A name draws on the raw values of a definition, its own or one behind its formula. -/
def DrawsOn (r : Request ν) (name : String) (d : Definition ν) : Prop :=
  d ∈ r.definitions ∧ d.isFormula = false ∧ Relation.ReflTransGen r.RefersTo name d.name

/-- Other raw values are those of the request in all that a name draws on in a bucket. -/
def Agrees (r : Request ν) (values : String → List (Observation ν)) (name : String)
    (bucket : Bucket ν) : Prop :=
  ∀ d, r.DrawsOn name d →
    { r with values := values }.observed d.name bucket = r.observed d.name bucket

/-- What is drawn on by a reference is drawn on by the formula that has it. -/
theorem DrawsOn.head {r : Request ν} {name reference : String} {d : Definition ν}
    (h : r.RefersTo name reference) (hd : r.DrawsOn reference d) : r.DrawsOn name d :=
  ⟨hd.1, hd.2.1, .head h hd.2.2⟩

end Request

/-! ### Values at one place of the grid -/

theorem getElem?_solution_congr [Arithmetic ν] {table other : Table ν} {size i : Nat}
    {program : Program ν} (h : ∀ key ∈ program.references,
      table.context i key = other.context i key) (hi : i < size) :
    (solution table size program)[i]? = (solution other size program)[i]? := by
  rw [getElem?_solution hi, getElem?_solution hi, Program.evaluate_congr h]

namespace Stages

variable [Arithmetic ν] {r : Request ν} {values : String → List (Observation ν)}
  {report other : Report ν} (s : Stages r report) (s' : Stages { r with values := values } other)
include s s'

theorem grid_eq : s'.grid = s.grid :=
  Option.some.inj (s'.covering.symm.trans s.covering)

/-- The raw values at one place of the grid decide on the values there. -/
theorem valueAt?_congr {i : Nat} (hi : i < s.grid.size) {name : String}
    (h : ∀ d, r.DrawsOn name d →
      s.grid.inBucket (r.frequency.bucketOf r.start.second + i) (values d.name) =
        s.grid.inBucket (r.frequency.bucketOf r.start.second + i) (r.values d.name)) :
    other.valueAt? name i = report.valueAt? name i := by
  have hgrid := s.grid_eq s'
  -- Along the order of the run, in which a formula comes after all that it refers to.
  induction name using (measure s.order.idxOf).wf.induction with
  | _ name ih =>
    rw [s.valueAt?_eq, s'.valueAt?_eq]
    by_cases hname : ∃ d ∈ r.definitions, d.name = name
    · obtain ⟨d, hd, rfl⟩ := hname
      cases hf : d.isFormula with
      | false =>
        obtain ⟨-, hg⟩ := Grid.aligned_of_covering? s.covering
        obtain ⟨series, hr, hs⟩ := s.get?_of_not_formula hd hf
        obtain ⟨series', hr', hs'⟩ := s'.get?_of_not_formula hd hf
        rw [hgrid] at hr'
        have hvalue : series'[i]? = series[i]? := by
          rw [hg.getElem?_reduce? hr hi, hg.getElem?_reduce? hr' hi, h d ⟨hd, hf, .refl⟩]
        rw [hs, hs', Option.bind_some, Option.bind_some, hvalue]
      | true =>
        obtain ⟨e, he, -, hs⟩ := s.exists_says hd hf
        have hs' := s'.get?_of_says hd he
        have hcontext : ∀ key ∈ e.program.references,
            s'.table.context i key = s.table.context i key := by
          intro key hk
          have hrefers : r.RefersTo d.name (referenceName key) :=
            ⟨d, hd, rfl, e, he, key, Expression.mem_references_program.mp hk, rfl⟩
          rw [← s.context_eq, ← s'.context_eq]
          exact ih _ (s.idxOf_lt hrefers) fun source hsource => h source (hsource.head hrefers)
        rw [hs, hs', hgrid, Option.bind_some, Option.bind_some,
          getElem?_solution_congr hcontext hi]
    · have hnone : s.table.get? name = none :=
        Option.eq_none_iff_forall_ne_some.mpr fun series hs => hname (s.mem_table hs)
      have hnone' : s'.table.get? name = none :=
        Option.eq_none_iff_forall_ne_some.mpr fun series hs => hname (s'.mem_table hs)
      rw [hnone, hnone']

/-- Both runs have the same buckets under a name. -/
theorem exists_lookup_span_eq {name : String} {buckets : List (Bucket ν)}
    (h : report.series.lookup name = some buckets) : ∃ others,
      other.series.lookup name = some others ∧
        others.map Bucket.span = buckets.map Bucket.span := by
  have hm := mem_of_lookup_eq_some h
  obtain ⟨-, series, hs⟩ := s.lookup_of_mem_series hm
  obtain ⟨d, hd, rfl⟩ := s.mem_table hs
  obtain ⟨series', hs'⟩ := s'.exists_series hd
  obtain ⟨others, ho, -⟩ := s'.lookup_series hs'
  obtain ⟨ends, he, hspans⟩ := s.span_of_mem_series hm
  obtain ⟨ends', he', hspans'⟩ := s'.span_of_mem_series (mem_of_lookup_eq_some ho)
  rw [s.grid_eq s'] at he' hspans'
  obtain rfl : ends' = ends := Option.some.inj (he'.symm.trans he)
  exact ⟨others, ho, hspans'.trans hspans.symm⟩

end Stages

variable [Arithmetic ν]

/-- Two runs that differ in their raw values only have the same bucket wherever the raw
values agree that the bucket draws on. Values in other buckets, and of names that are not
drawn on, make no difference. -/
theorem run_unaffected {r : Request ν} {values : String → List (Observation ν)}
    {report other : Report ν} (h : run r = .ok report)
    (ho : run { r with values := values } = .ok other) {name : String}
    {buckets : List (Bucket ν)} {i : Nat} {bucket : Bucket ν}
    (hl : report.series.lookup name = some buckets) (hb : buckets[i]? = some bucket)
    (ha : r.Agrees values name bucket) :
    ∃ others, other.series.lookup name = some others ∧ others[i]? = some bucket := by
  obtain ⟨s⟩ := exists_stages h
  obtain ⟨s'⟩ := exists_stages ho
  obtain ⟨-, series, hs⟩ := s.lookup_of_mem_series (mem_of_lookup_eq_some hl)
  obtain ⟨others, hol, hspans⟩ := s.exists_lookup_span_eq s' hl
  -- The grid is the same in both runs, so it is left to compare the values.
  have hvalue : other.valueAt? name i = report.valueAt? name i := by
    refine s.valueAt?_congr s' (s.getElem?_series hs hl hb).1 fun d hd => ?_
    rw [s.inBucket_eq hs hl hb, s.inBucket_eq hs hl hb]
    exact ha d hd
  have hspan : (others[i]?).map Bucket.span = some bucket.span := by
    rw [← List.getElem?_map, hspans, List.getElem?_map, hb, Option.map_some]
  obtain ⟨found, hfound, heq⟩ := Option.map_eq_some_iff.mp hspan
  rw [Report.valueAt?_of_lookup hl hb, Report.valueAt?_of_lookup hol hfound] at hvalue
  exact ⟨others, hol, hfound.trans (congrArg some (Bucket.ext_span heq hvalue))⟩

/-- The layered request with a series beside that nothing refers to. -/
def besides : Request Float :=
  { layered with
    definitions := layered.definitions ++ [⟨"aside", none, .max, none, none, none⟩]
    strict := false }

/-- A value more on the second day of the base, and no values under any other name. -/
def moved (name : String) : List (Observation Float) :=
  if name = "base" then besides.values name ++
    [⟨besides.last, 7, none⟩]
  else []

theorem agrees_moved {report : Report Float} (h : run besides = .ok report) {bucket : Bucket Float}
    (hstart : bucket.start = besides.start) :
    besides.Agrees moved "margin" bucket := by
  obtain ⟨s⟩ := exists_stages h
  have hunreferenced : ¬ Relation.ReflTransGen besides.RefersTo "margin" "aside" := by
    intro hreach
    rcases hreach.cases_tail with heq | ⟨name, -, hrefers⟩
    · contradiction
    · have hall : ((besides.definitions.mapM compileOne).toOption.all fun compiled =>
          compiled.all fun c => !c.references.contains "aside") = true := by decide +kernel
      obtain ⟨c, hc, -, hr⟩ := (refersTo_iff s.compiles).mp hrefers
      rw [s.compiles] at hall
      have hnot := List.all_eq_true.mp hall c hc
      simp [hr] at hnot
  have hholds : bucket.holds besides.frequency besides.last = false := by
    rw [Bucket.holds, hstart]
    decide +kernel
  rintro d ⟨hd, hf, hreach⟩
  simp only [besides, layered, List.cons_append, List.nil_append, List.mem_cons,
    List.not_mem_nil, or_false] at hd
  rcases hd with rfl | rfl | rfl | rfl
  · contradiction
  · show ((besides.values "base" ++ [_]).filter _) = _
    rw [List.filter_append, List.filter_cons_of_neg (by rw [hholds]; decide), List.filter_nil,
      List.append_nil]
    rfl
  · contradiction
  · exact absurd hreach hunreferenced

theorem run_unaffected_besides : ∃ report other buckets bucket, run besides = .ok report ∧
    run { besides with values := moved } = .ok other ∧
    report.series.lookup "margin" = some buckets ∧ buckets[0]? = some bucket ∧
    besides.Agrees moved "margin" bucket ∧
    ∃ others, other.series.lookup "margin" = some others ∧ others[0]? = some bucket := by
  have hstart : (do
      let report ← (run besides).toOption
      let buckets ← report.series.lookup "margin"
      let bucket ← buckets[0]?
      return bucket.start) = some besides.start := by decide +kernel
  obtain ⟨other, ho⟩ : ∃ other, run { besides with values := moved } = .ok other :=
    exists_eq_ok (by decide +kernel)
  obtain ⟨report, h⟩ : ∃ report, run besides = .ok report := exists_eq_ok (by decide +kernel)
  rw [h] at hstart
  obtain ⟨_, ⟨⟩, hstart⟩ := Option.bind_eq_some_iff.mp hstart
  obtain ⟨buckets, hl, hstart⟩ := Option.bind_eq_some_iff.mp hstart
  obtain ⟨bucket, hb, hstart⟩ := Option.bind_eq_some_iff.mp hstart
  have ha := agrees_moved h (Option.some.inj hstart)
  exact ⟨report, other, buckets, bucket, h, ho, hl, hb, ha, run_unaffected h ho hl hb ha⟩

end Scorecard.Consolidation
