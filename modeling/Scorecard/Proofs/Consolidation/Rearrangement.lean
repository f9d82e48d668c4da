import Scorecard.Proofs.Consolidation.Report

/-! Definitions in another order. Each stage of a run asks of the definitions only which
there are: the check, the graph and so the order of the formulas, their programs, and the
series reduced from raw values. So a run comes to the same report whatever the order of the
definitions is. If it fails, it fails in any order, but maybe for another reason. -/
namespace Scorecard.Consolidation

open Formula (Program Registry)
open Kpi (Definition Observation)

variable {ν : Type}

/-! ### The order of formulas -/

variable {compiled others : List (Compiled ν)}

theorem Represents.perm {g : Dependency.Graph} (h : Represents compiled g)
    (hp : compiled.Perm others) : Represents others g where
  closed := h.closed
  mem_nameList name := by simp only [h.mem_nameList, hp.mem_iff]
  mem_precedentsOf name reference := by simp only [h.mem_precedentsOf, hp.mem_iff]

theorem Known.perm (h : Known compiled) (hp : compiled.Perm others) : Known others := by
  intro c hc reference hr
  obtain ⟨d, hd, hname⟩ := h c (hp.mem_iff.mpr hc) reference hr
  exact ⟨d, hp.mem_iff.mp hd, hname⟩

theorem evaluationOrder_perm {order : List String} (hp : compiled.Perm others)
    (h : evaluationOrder compiled = .ok order) : evaluationOrder others = .ok order := by
  obtain ⟨hk, g, hg, ho⟩ := evaluationOrder_eq_ok_iff.mp h
  exact evaluationOrder_eq_ok_iff.mpr ⟨hk.perm hp, g, hg.perm hp, ho⟩

theorem get?_programs_perm (hp : compiled.Perm others)
    (hn : (compiled.map (·.definition.name)).Nodup) (name : String) :
    (programs others).get? name = (programs compiled).get? name := by
  refine Option.ext fun program => ?_
  rw [get?_programs hn, get?_programs ((hp.map _).nodup_iff.mp hn)]
  simp only [hp.mem_iff]

theorem check_perm {definitions rearranged : List (Definition ν)}
    (hp : definitions.Perm rearranged) (h : check ∅ definitions = .ok ()) :
    check ∅ rearranged = .ok () := by
  obtain ⟨hall, hn⟩ := check_eq_ok_iff.mp h
  exact check_eq_ok_iff.mpr
    ⟨fun d hd => hall d (hp.mem_iff.mpr hd), (hp.map Definition.name).nodup_iff.mp hn⟩

/-! ### Tables with the same series -/

theorem assemble_congr {table other : Table ν} (h : table.Equiv other) (grid : Grid) :
    assemble grid table = assemble grid other := by
  rw [assemble, assemble, h.isEmpty_eq, h.toList_eq]

theorem Table.context_eq_of_equiv {table other : Table ν} (h : table.Equiv other) (index : Nat) :
    table.context index = other.context index :=
  funext fun _ => Table.context_congr h.getElem?_eq index

variable [Arithmetic ν]

theorem evaluateFormula_congr {table other : Table ν} (h : table.Equiv other) {strict : Bool}
    {size : Nat} {tally : Tally} {name : String} {program : Program ν} {next : Table ν × Tally}
    (hn : evaluateFormula strict size (table, tally) name program = .ok next) :
    ∃ more, evaluateFormula strict size (other, tally) name program = .ok (more, next.2) ∧
      next.1.Equiv more := by
  have hbuckets : evaluateBuckets table program size = evaluateBuckets other program size := by
    simp only [evaluateBuckets, Table.context_eq_of_equiv h]
  simp only [evaluateFormula, hbuckets] at hn ⊢
  split at hn
  case h_1 => contradiction
  case h_2 =>
    cases hn
    exact ⟨_, rfl, h.insert _ _⟩

theorem evaluateAll_congr {strict : Bool} {size : Nat}
    {programs others : Std.TreeMap String (Program ν)} {order : List String}
    {table other final : Table ν} {tally : Tally}
    (hp : ∀ name, others.get? name = programs.get? name) (h : table.Equiv other)
    (he : evaluateAll strict size programs order table = .ok (final, tally)) :
    ∃ more, evaluateAll strict size others order other = .ok (more, tally) ∧
      final.Equiv more := by
  obtain ⟨⟨more, _⟩, hm, hequiv, rfl⟩ : ∃ state, evaluateAll strict size others order other =
      .ok state ∧ final.Equiv state.1 ∧ tally = state.2 := by
    refine foldlM_congr (fun a b : Table ν × Tally => a.1.Equiv b.1 ∧ a.2 = b.2) ?step ?start he
    case start => exact ⟨h, rfl⟩
    case step =>
      rintro name ⟨table, count⟩ ⟨other, _⟩ next ⟨hequiv, rfl⟩ hn
      rw [hp]
      split at hn
      case h_1 program hprogram =>
        obtain ⟨more, hm, hmore⟩ := evaluateFormula_congr hequiv hn
        exact ⟨(more, next.2), hm, hmore, rfl⟩
      case h_2 =>
        cases hn
        exact ⟨(other, count), rfl, hequiv, rfl⟩
  exact ⟨more, hm, hequiv⟩

/-! ### Runs -/

theorem Prepared.rearrange {r : Request ν} (p : Prepared r) {definitions : List (Definition ν)}
    (hp : r.definitions.Perm definitions) :
    ∃ p' : Prepared { r with definitions := definitions }, p'.grid = p.grid ∧
      p'.order = p.order ∧ p.compiled.Perm p'.compiled ∧ p.reduced.Equiv p'.reduced := by
  obtain ⟨compiled, hcompiles, hcompiled⟩ := exists_mapM_of_perm hp p.compiles
  have hreduced := reduced_of_reduceAll p.reduces
  obtain ⟨reduced, hreduces⟩ : ∃ reduced, reduceAll p.grid r.values definitions = .ok reduced := by
    refine exists_reduceAll fun d hd hf => ?_
    obtain ⟨series, hr, -⟩ := hreduced.get?_of_mem p.names_nodup (hp.mem_iff.mpr hd) hf
    exact ⟨series, hr⟩
  -- Put in in another order, the series are the same but maybe not the tree that holds them.
  have hequiv : p.reduced.Equiv reduced := by
    refine Std.TreeMap.Equiv.of_forall_constGet?_eq fun name => Option.ext fun series => ?_
    have hn := (hp.map Definition.name).nodup_iff.mp p.names_nodup
    refine (hreduced.get?_eq_some_iff p.names_nodup).trans ?_
    refine Iff.trans ?_ ((reduced_of_reduceAll hreduces).get?_eq_some_iff hn).symm
    simp only [hp.mem_iff]
  exact ⟨⟨p.grid, compiled, p.order, reduced, p.covering, check_perm hp p.checked, hcompiles,
    evaluationOrder_perm hcompiled p.ordered, hreduces⟩, rfl, rfl, hcompiled, hequiv⟩

/-- The stages of a run on rearranged definitions come to the same order, to tables with
the same series and so to the same report. -/
theorem run_eq_ok_of_perm {r : Request ν} {report : Report ν} (h : run r = .ok report)
    {definitions : List (Definition ν)} (hp : r.definitions.Perm definitions) :
    run { r with definitions := definitions } = .ok report := by
  obtain ⟨s⟩ := exists_stages h
  obtain ⟨p, hgrid, horder, hcompiled, hreduced⟩ := s.toPrepared.rearrange hp
  obtain ⟨table, hfills, htable⟩ :=
    evaluateAll_congr (get?_programs_perm hcompiled s.compiled_nodup) hreduced s.fills
  rw [p.run_eq, Prepared.finish, hgrid, horder]
  refine bind_eq_ok.mpr ⟨(table, report.tally), hfills, bind_eq_ok.mpr ⟨report.series, ?_, ?_⟩⟩
  · exact (assemble_congr htable s.grid).symm.trans s.assembles
  · rw [← hp.length_eq, ← s.definitionCount_eq]
    rfl

/-- The order of the definitions makes no difference: the runs come to the same report, or
both fail. -/
theorem run_perm {r : Request ν} {definitions : List (Definition ν)}
    (hp : r.definitions.Perm definitions) :
    (∃ report, run r = .ok report ∧ run { r with definitions := definitions } = .ok report) ∨
      ∃ fault other, run r = .error fault ∧
        run { r with definitions := definitions } = .error other := by
  cases h : run r with
  | ok report => exact .inl ⟨report, rfl, run_eq_ok_of_perm h hp⟩
  | error fault =>
    cases ho : run { r with definitions := definitions } with
    | error other => exact .inr ⟨fault, other, rfl, rfl⟩
    | ok report =>
      rw [run_eq_ok_of_perm ho hp.symm] at h
      contradiction

theorem run_perm_layered : layered.definitions.Perm layered.definitions.reverse ∧
    ∃ report, run layered = .ok report ∧
      run { layered with definitions := layered.definitions.reverse } = .ok report := by
  have hp : layered.definitions.Perm layered.definitions.reverse := (List.reverse_perm _).symm
  obtain ⟨report, h⟩ : ∃ report, run layered = .ok report := exists_eq_ok (by decide +kernel)
  rcases run_perm hp with hok | ⟨fault, _, herror, -⟩
  · exact ⟨hp, hok⟩
  · rw [h] at herror
    contradiction

end Scorecard.Consolidation
