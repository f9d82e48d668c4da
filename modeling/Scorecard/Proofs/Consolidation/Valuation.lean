import Scorecard.Proofs.Consolidation.Strictness

/-! The values of one bucket, said without a run. Raw values of the bucket are reduced, and a
formula has what it says over the values of the same bucket. Where the formulas can be put in
order, this leaves one value for each name. So what the series of a run hold in a bucket does
not depend on the other buckets that the run has. -/
namespace Scorecard.Consolidation

open Calendar (Timestamp)
open Calendar.Timestamp (IsStart)
open Formula (Context Expression Program Registry referenceName)
open Kpi (Definition Observation)

variable {ν : Type}

/-- What references stand for where the names have these values. -/
def contextOf (values : String → Option ν) : Context ν := fun key =>
  values (referenceName key)

/-- The values of the names in one bucket of a table. -/
def Table.valuesAt (table : Table ν) (index : Nat) : String → Option ν := fun name =>
  (table.get? name).bind fun values => (values[index]?).bind id

theorem Table.context_eq_contextOf (table : Table ν) (index : Nat) :
    table.context index = contextOf (table.valuesAt index) := rfl

namespace Request

/-- The raw values of a name in the bucket with this start, in the order in which they are
added. -/
def observedAt (r : Request ν) (name : String) (start : Timestamp) : List (Observation ν) :=
  (r.values name).filter fun o => o.time.roundDown? r.frequency = some start

variable [Arithmetic ν]

/-- The names have these values in the bucket with this start. -/
structure Valued (r : Request ν) (start : Timestamp) (values : String → Option ν) : Prop where
  raw : ∀ d ∈ r.definitions, d.isFormula = false →
    values d.name = d.reduction.of? (r.observedAt d.name start)
  formula : ∀ d ∈ r.definitions, ∀ e, Says d e →
    values d.name = (e.program.evaluate (contextOf values) Registry.standard).toOption
  other : ∀ name, (∀ d ∈ r.definitions, d.name ≠ name) → values name = none

/-- The contexts of the buckets, one after the other: what references stand for in each. -/
def Solution (r : Request ν) (contexts : List (Context ν)) : Prop :=
  List.Forall₂ (fun start context => ∃ values, r.Valued start values ∧ context = contextOf values)
    r.starts contexts

end Request

variable [Arithmetic ν] {r : Request ν} {start : Timestamp}

/-- The values of a bucket have nothing to do with where a run starts and ends. -/
theorem Request.valued_congr {other : Request ν} (hdefinitions : other.definitions = r.definitions)
    (hvalues : other.values = r.values) (hfrequency : other.frequency = r.frequency) :
    other.Valued = r.Valued := by
  obtain ⟨_, _, _, _, _, _⟩ := r
  obtain ⟨_, _, _, _, _, _⟩ := other
  cases hdefinitions
  cases hvalues
  cases hfrequency
  funext start values
  exact propext ⟨fun h => ⟨h.raw, h.formula, h.other⟩, fun h => ⟨h.raw, h.formula, h.other⟩⟩

/-! ### One value for each name -/

/-- The values of the names follow from one another along the order of the run. -/
theorem Prepared.valued_unique (p : Prepared r) {values others : String → Option ν}
    (h : r.Valued start values) (ho : r.Valued start others) : values = others := by
  funext name
  induction name using (measure p.order.idxOf).wf.induction with
  | _ name ih =>
    by_cases hname : ∃ d ∈ r.definitions, d.name = name
    · obtain ⟨d, hd, rfl⟩ := hname
      cases hf : d.isFormula with
      | false => rw [h.raw d hd hf, ho.raw d hd hf]
      | true =>
        obtain ⟨program?, -, hc, hsome⟩ := p.compiled_mem hd
        obtain ⟨program, rfl⟩ := Option.isSome_iff_exists.mp (hsome.mpr hf)
        obtain ⟨e, he, -⟩ := says_of_compileOne hc
        have hcontext : ∀ key ∈ e.program.references,
            contextOf values key = contextOf others key := by
          intro key hk
          exact ih _ (p.idxOf_lt
            ⟨d, hd, rfl, e, he, key, Expression.mem_references_program.mp hk, rfl⟩)
        rw [h.formula d hd e he, ho.formula d hd e he, Program.evaluate_congr hcontext]
    · have hnone : ∀ d ∈ r.definitions, d.name ≠ name := fun d hd heq => hname ⟨d, hd, heq⟩
      rw [h.other name hnone, ho.other name hnone]

theorem Prepared.solution_unique (p : Prepared r) {contexts others : List (Context ν)}
    (h : r.Solution contexts) (ho : r.Solution others) : contexts = others := by
  refine List.right_unique_forall₂' ?_ h ho
  rintro start _ _ ⟨values, hv, rfl⟩ ⟨more, hm, rfl⟩
  rw [p.valued_unique hv hm]

/-! ### The values of a run -/

namespace Computed

variable (c : Computed r)

/-- The bucket of a grid holds what rounds down to its start. -/
theorem inBucket_eq_observedAt {i : Nat} (hi : c.grid.starts[i]? = some start) (name : String) :
    c.grid.inBucket (r.frequency.bucketOf r.start.second + i) (r.values name) =
      r.observedAt name start := by
  obtain ⟨hfrequency, hg⟩ := Grid.aligned_of_covering? c.covering
  have hs := hg i start hi
  rw [hfrequency] at hs
  simp only [Grid.inBucket, Request.observedAt, hfrequency, hs.roundDown?_eq_iff]

theorem valued {i : Nat} (hi : c.grid.starts[i]? = some start) :
    r.Valued start (c.table.valuesAt i) := by
  have hlt : i < c.grid.size := (Array.getElem?_eq_some_iff.mp hi).1
  refine ⟨?raw, ?formula, ?other⟩
  case raw =>
    intro d hd hf
    obtain ⟨-, hg⟩ := Grid.aligned_of_covering? c.covering
    obtain ⟨series, hr, hs⟩ := c.get?_of_not_formula hd hf
    rw [Table.valuesAt, hs, Option.bind_some, hg.getElem?_reduce? hr hlt,
      c.inBucket_eq_observedAt hi]
    rfl
  case formula =>
    intro d hd e he
    rw [Table.valuesAt, c.get?_of_says hd he, Option.bind_some, getElem?_solution hlt,
      Table.context_eq_contextOf]
    rfl
  case other =>
    intro name hname
    have hnone : c.table.get? name = none := by
      refine Option.eq_none_iff_forall_ne_some.mpr fun series hs => ?_
      obtain ⟨d, hd, heq⟩ := c.mem_table hs
      exact hname d hd heq
    rw [Table.valuesAt, hnone]
    rfl

theorem solution : r.Solution c.contexts := by
  have hlength : c.grid.starts.toList.length = (List.range c.grid.size).length := by
    rw [Array.length_toList, List.length_range, Grid.size]
  rw [Request.Solution, c.starts_eq, contexts, List.forall₂_map_right_iff]
  refine List.forall₂_iff_get.mpr ⟨hlength, fun i hi hr => ?_⟩
  have hstart : c.grid.starts[i]? = some c.grid.starts.toList[i] := by
    rw [← Array.getElem?_toList, List.getElem?_eq_getElem hi]
  exact ⟨_, c.valued hstart, by rw [List.get_eq_getElem, List.getElem_range]; rfl⟩

end Computed

end Scorecard.Consolidation
