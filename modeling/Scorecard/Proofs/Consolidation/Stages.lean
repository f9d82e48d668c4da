import Mathlib.Data.List.Nodup
import Scorecard.Proofs.Consolidation.Outcomes

/-! The stages of a run. They come to the same series whether or not a failing formula ends
the run. The table in the end has a series of full length for every definition, and for
nothing else. -/
namespace Scorecard.Consolidation

open Calendar (Timestamp)
open Formula (EvaluationError Program Registry referenceName)
open Kpi (Definition)

variable {ν : Type} [Arithmetic ν]

/-- The starts of the buckets, if the first of them can be represented. -/
def Request.starts (r : Request ν) : List Timestamp :=
  ((Grid.covering? r.start r.last r.frequency).map (·.starts.toList)).getD []

/-- What a run has before it evaluates formulas. -/
structure Prepared (r : Request ν) where
  grid : Grid
  compiled : List (Compiled ν)
  order : List String
  reduced : Table ν
  covering : Grid.covering? r.start r.last r.frequency = some grid
  checked : check ∅ r.definitions = .ok ()
  compiles : r.definitions.mapM compileOne = .ok compiled
  ordered : evaluationOrder compiled = .ok order
  reduces : reduceAll grid r.values r.definitions = .ok reduced

namespace Prepared

variable {r : Request ν}

theorem names_nodup (p : Prepared r) : (r.definitions.map Definition.name).Nodup :=
  (check_eq_ok_iff.mp p.checked).2

variable (p : Prepared r)

theorem starts_eq : r.starts = p.grid.starts.toList := by
  rw [Request.starts, p.covering]
  rfl

theorem length_starts : r.starts.length = p.grid.size := by
  rw [p.starts_eq, Array.length_toList, Grid.size]

theorem definition_mem {c : Compiled ν} (hc : c ∈ p.compiled) : c.definition ∈ r.definitions := by
  rw [← (compileOne_of_mapM p.compiles).1]
  exact List.mem_map_of_mem hc

/-- A definition has one compiled form. -/
theorem compiled_mem {d : Definition ν} (hd : d ∈ r.definitions) :
    ∃ program?, ⟨d, program?⟩ ∈ p.compiled ∧ compileOne d = .ok ⟨d, program?⟩ ∧
      (program?.isSome ↔ d.isFormula) := by
  obtain ⟨hmap, hall⟩ := compileOne_of_mapM p.compiles
  rw [← hmap] at hd
  obtain ⟨⟨_, program?⟩, hc, rfl⟩ := List.mem_map.mp hd
  exact ⟨program?, hc, hall _ hc, (definition_of_compileOne (hall _ hc)).2⟩

theorem compiled_nodup : (p.compiled.map (·.definition.name)).Nodup := by
  have hnames := p.names_nodup
  rw [← (compileOne_of_mapM p.compiles).1, List.map_map] at hnames
  exact hnames

theorem get?_programs_iff {d : Definition ν} {program : Program ν} (hd : d ∈ r.definitions) :
    (programs p.compiled).get? d.name = some program ↔ ⟨d, some program⟩ ∈ p.compiled := by
  rw [get?_programs p.compiled_nodup]
  constructor
  · rintro ⟨⟨e, program?⟩, hc, he, rfl⟩
    obtain rfl := List.inj_on_of_nodup_map p.names_nodup (p.definition_mem hc) hd he
    exact hc
  · intro hc
    exact ⟨_, hc, rfl, rfl⟩

theorem get?_programs_of_not_formula {d : Definition ν} (hd : d ∈ r.definitions)
    (hf : d.isFormula = false) : (programs p.compiled).get? d.name = none := by
  rw [Option.eq_none_iff_forall_ne_some]
  intro program hp
  have hc := (p.get?_programs_iff hd).mp hp
  obtain ⟨-, hall⟩ := compileOne_of_mapM p.compiles
  have hsome := (definition_of_compileOne (hall _ hc)).2
  simp [hf] at hsome

theorem mem_order {name : String} :
    name ∈ p.order ↔ ∃ d ∈ r.definitions, d.name = name := by
  rw [(orders_of_evaluationOrder p.ordered).mem_iff]
  constructor
  · rintro ⟨c, hc, rfl⟩
    exact ⟨c.definition, p.definition_mem hc, rfl⟩
  · rintro ⟨d, hd, rfl⟩
    obtain ⟨_, hc, -⟩ := p.compiled_mem hd
    exact ⟨_, hc, rfl⟩

theorem order_perm : p.order.Perm (r.definitions.map Definition.name) := by
  refine (List.perm_ext_iff_of_nodup (orders_of_evaluationOrder p.ordered).nodup
    p.names_nodup).mpr fun name => ?_
  rw [p.mem_order, List.mem_map]

theorem supports : Supports (programs p.compiled) p.order := by
  have ho := orders_of_evaluationOrder p.ordered
  intro before name after he
  refine ⟨?_, ?_⟩
  · intro hn
    have hnodup := ho.nodup
    rw [he] at hnodup
    exact (List.nodup_append.mp hnodup).2.2 name hn name List.mem_cons_self rfl
  · intro program hp key hk
    obtain ⟨d, hd, rfl⟩ := p.mem_order.mp (he ▸ List.mem_append_right _ List.mem_cons_self)
    have hc := (p.get?_programs_iff hd).mp hp
    exact ho.references hc he _ (List.mem_map_of_mem hk)

end Prepared

/-- All series of a run, those of the formulas computed in order. Whether the run is strict
or not, its formulas come out as over these series. -/
structure Computed (r : Request ν) extends Prepared r where
  table : Table ν
  filled : Filled (programs compiled) grid.size reduced order table
  concludes (strict : Bool) : evaluateAll strict grid.size (programs compiled) order reduced =
    conclude strict (programs compiled) table grid.size order

namespace Computed

variable {r : Request ν} (c : Computed r)

/-- The series of a formula is its solution. -/
theorem get?_formula {d : Definition ν} (hd : d ∈ r.definitions) (hf : d.isFormula = true) :
    ∃ program, compileOne d = .ok ⟨d, some program⟩ ∧
      c.table.get? d.name = some (solution c.table c.grid.size program) := by
  obtain ⟨program?, hc, hcompile, hsome⟩ := c.compiled_mem hd
  obtain ⟨program, rfl⟩ := Option.isSome_iff_exists.mp (hsome.mpr hf)
  have hp := (c.get?_programs_iff hd).mpr hc
  exact ⟨program, hcompile, c.filled.solved (c.mem_order.mpr ⟨d, hd, rfl⟩) hp⟩

/-- What is no formula keeps the series reduced from its raw values. -/
theorem get?_of_not_formula {d : Definition ν} (hd : d ∈ r.definitions)
    (hf : d.isFormula = false) : ∃ series,
      c.grid.reduce? d.reduction (r.values d.name) = some series ∧
        c.table.get? d.name = some series := by
  have hreduced := reduced_of_reduceAll c.reduces
  obtain ⟨series, hr, hs⟩ := hreduced.get?_of_mem c.names_nodup hd hf
  exact ⟨series, hr, (c.filled.kept fun _ => c.get?_programs_of_not_formula hd hf).trans hs⟩

/-- Every definition has a series. -/
theorem exists_series {d : Definition ν} (hd : d ∈ r.definitions) :
    ∃ values, c.table.get? d.name = some values := by
  cases hf : d.isFormula with
  | true =>
    obtain ⟨program, -, hs⟩ := c.get?_formula hd hf
    exact ⟨_, hs⟩
  | false =>
    obtain ⟨series, -, hs⟩ := c.get?_of_not_formula hd hf
    exact ⟨series, hs⟩

theorem mem_table {name : String} {series : Array (Option ν)}
    (h : c.table.get? name = some series) : ∃ d ∈ r.definitions, d.name = name := by
  by_cases hn : name ∈ c.order
  · exact c.mem_order.mp hn
  · rw [c.filled.kept fun ho => absurd ho hn] at h
    obtain ⟨d, hd, -, hname, -⟩ := (reduced_of_reduceAll c.reduces).source h
    exact ⟨d, hd, hname⟩

theorem size_series {name : String} {series : Array (Option ν)}
    (h : c.table.get? name = some series) : series.size = c.grid.size := by
  obtain ⟨d, hd, rfl⟩ := c.mem_table h
  cases hf : d.isFormula with
  | true =>
    obtain ⟨program, -, hs⟩ := c.get?_formula hd hf
    obtain rfl := Option.some.inj (h.symm.trans hs)
    exact size_solution ..
  | false =>
    obtain ⟨other, hr, hs⟩ := c.get?_of_not_formula hd hf
    obtain rfl := Option.some.inj (h.symm.trans hs)
    exact Grid.size_of_reduce? hr

end Computed

/-- What is left of a run once it is prepared. -/
def Prepared.finish {r : Request ν} (p : Prepared r) : Except Error (Report ν) := do
  let (table, tally) ← evaluateAll r.strict p.grid.size (programs p.compiled) p.order p.reduced
  return ⟨← assemble p.grid table, r.definitions.length, tally⟩

theorem Prepared.run_eq {r : Request ν} (p : Prepared r) : run r = p.finish := by
  unfold run
  rw [p.covering]
  show (check ∅ r.definitions >>= _) = _
  rw [p.checked]
  show (r.definitions.mapM compileOne >>= _) = _
  rw [p.compiles]
  show (evaluationOrder p.compiled >>= _) = _
  rw [p.ordered]
  show (reduceAll p.grid r.values r.definitions >>= _) = _
  rw [p.reduces]
  rfl

theorem exists_prepared {r : Request ν} {report : Report ν} (h : run r = .ok report) :
    Nonempty (Prepared r) := by
  unfold run at h
  cases hg : Grid.covering? r.start r.last r.frequency with
  | none =>
    rw [hg] at h
    contradiction
  | some grid =>
    rw [hg] at h
    obtain ⟨_, hpure, h⟩ := bind_eq_ok.mp h
    cases hpure
    obtain ⟨⟨⟩, hc, h⟩ := bind_eq_ok.mp h
    obtain ⟨compiled, hm, h⟩ := bind_eq_ok.mp h
    obtain ⟨order, ho, h⟩ := bind_eq_ok.mp h
    obtain ⟨reduced, hr, -⟩ := bind_eq_ok.mp h
    exact ⟨⟨grid, compiled, order, reduced, hg, hc, hm, ho, hr⟩⟩

theorem Prepared.exists_computed {r : Request ν} (p : Prepared r) :
    ∃ c : Computed r, c.toPrepared = p := by
  obtain ⟨table, hfilled, hconcludes⟩ := exists_evaluateAll p.supports p.reduced
  exact ⟨⟨p, table, hfilled, hconcludes⟩, rfl⟩

namespace Computed

/-- Whether a run is strict makes no difference to its series. -/
def withStrict {r : Request ν} (c : Computed r) (strict : Bool) :
    Computed { r with strict := strict } where
  grid := c.grid
  compiled := c.compiled
  order := c.order
  reduced := c.reduced
  covering := c.covering
  checked := c.checked
  compiles := c.compiles
  ordered := c.ordered
  reduces := c.reduces
  table := c.table
  filled := c.filled
  concludes := c.concludes

variable {r : Request ν} (c : Computed r)

/-- The first formula that fails, and its first failure. -/
def fault? : Option (String × EvaluationError) :=
  firstFault? (programs c.compiled) c.table c.grid.size c.order

def tally : Tally :=
  .of (c.order.flatMap (resultsOf (programs c.compiled) c.table c.grid.size))

theorem fault?_eq_none_iff : c.fault? = none ↔ c.tally.failed = 0 :=
  firstFault?_eq_none_iff

theorem evaluateAll_eq :
    evaluateAll r.strict c.grid.size (programs c.compiled) c.order c.reduced =
      match if r.strict then c.fault? else none with
      | some (name, fault) => .error (.formula name (.evaluation fault))
      | none => .ok (c.table, c.tally) :=
  c.concludes r.strict

/-- What is left of a run once its series are computed. -/
theorem run_eq : run r = match if r.strict then c.fault? else none with
    | some (name, fault) => .error (.formula name (.evaluation fault))
    | none => (assemble c.grid c.table).map (⟨·, r.definitions.length, c.tally⟩) := by
  rw [c.toPrepared.run_eq, Prepared.finish, c.evaluateAll_eq]
  cases if r.strict then c.fault? else none with
  | some fault => rfl
  | none =>
    show (assemble c.grid c.table >>= _) = _
    cases assemble c.grid c.table with
    | ok series => rfl
    | error fault => rfl

theorem run_eq_of_fault? {name : String} {fault : EvaluationError} (hs : r.strict = true)
    (h : c.fault? = some (name, fault)) : run r = .error (.formula name (.evaluation fault)) := by
  rw [c.run_eq, if_pos hs, h]

theorem run_eq_ok_iff {report : Report ν} : run r = .ok report ↔
    (r.strict = true → c.tally.failed = 0) ∧ report.definitionCount = r.definitions.length ∧
      report.tally = c.tally ∧ assemble c.grid c.table = .ok report.series := by
  have hreport : (assemble c.grid c.table).map (⟨·, r.definitions.length, c.tally⟩) = .ok report ↔
      report.definitionCount = r.definitions.length ∧ report.tally = c.tally ∧
        assemble c.grid c.table = .ok report.series := by
    obtain ⟨series, definitionCount, tally⟩ := report
    cases assemble c.grid c.table <;> simp [Except.map, eq_comm, and_comm, and_left_comm]
  rw [c.run_eq, ← c.fault?_eq_none_iff, ← hreport]
  cases r.strict with
  | false => simp
  | true => cases c.fault? <;> simp

end Computed

/-- What each stage of a run came to. -/
structure Stages (r : Request ν) (report : Report ν) extends Computed r where
  unfailing : r.strict = true → toComputed.tally.failed = 0
  definitionCount_eq : report.definitionCount = r.definitions.length
  tally_eq : report.tally = toComputed.tally
  assembles : assemble grid table = .ok report.series

theorem Stages.fills {r : Request ν} {report : Report ν} (s : Stages r report) :
    evaluateAll r.strict s.grid.size (programs s.compiled) s.order s.reduced =
      .ok (s.table, report.tally) := by
  have hfault : (if r.strict then s.fault? else none) = none := by
    cases hs : r.strict with
    | false => rfl
    | true => exact s.fault?_eq_none_iff.mpr (s.unfailing hs)
  rw [s.evaluateAll_eq, hfault, s.tally_eq]

theorem Computed.exists_stages {r : Request ν} {report : Report ν} (c : Computed r)
    (h : run r = .ok report) : ∃ s : Stages r report, s.toComputed = c := by
  obtain ⟨hunfailing, hcount, htally, hassembles⟩ := c.run_eq_ok_iff.mp h
  exact ⟨⟨c, hunfailing, hcount, htally, hassembles⟩, rfl⟩

theorem exists_stages {r : Request ν} {report : Report ν} (h : run r = .ok report) :
    Nonempty (Stages r report) := by
  obtain ⟨p⟩ := exists_prepared h
  obtain ⟨c, -⟩ := p.exists_computed
  obtain ⟨s, -⟩ := c.exists_stages h
  exact ⟨s⟩

end Scorecard.Consolidation
