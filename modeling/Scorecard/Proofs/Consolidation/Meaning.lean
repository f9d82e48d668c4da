import Scorecard.Proofs.Consolidation.Report
import Scorecard.Proofs.Formula.Balance
import Scorecard.Proofs.Formula.Inlining

/-! What formulas say, and what they say it about. In a run that comes to a report each
formula stands for one expression, whose references come before it in the order of the
run. In every bucket the formula has the value of that expression. -/
namespace Scorecard.Consolidation

open Formula (Expression Limits Parses Program Registry referenceName tokenize)
open Kpi (Definition)

variable {ν : Type} [Arithmetic ν]

/-- The text of a formula stands for an expression. -/
def Says (d : Definition ν) (e : Expression ν) : Prop :=
  d.isFormula ∧ ∃ tokens, tokenize d.formulaText = .ok tokens ∧ Parses 0 tokens e

namespace Request

/-- A key refers to a formula, which says this. -/
def Means (r : Request ν) (key : String) (e : Expression ν) : Prop :=
  ∃ d ∈ r.definitions, d.name = referenceName key ∧ Says d e

/-- The formula of one name refers to the other name. -/
def RefersTo (r : Request ν) (name reference : String) : Prop :=
  ∃ d ∈ r.definitions, d.name = name ∧ ∃ e, Says d e ∧ ∃ key ∈ e.keys, referenceName key = reference

end Request

theorem Says.unique {d : Definition ν} {e other : Expression ν} (he : Says d e)
    (ho : Says d other) : other = e := by
  obtain ⟨-, tokens, ht, hp⟩ := he
  obtain ⟨-, others, hot, hop⟩ := ho
  obtain rfl : tokens = others := Except.ok.inj (ht.symm.trans hot)
  exact hp.unique hop

theorem compile_of_compileOne {d : Definition ν} {program : Program ν}
    (h : compileOne d = .ok ⟨d, some program⟩) :
    d.isFormula ∧ Formula.compile Limits.standard d.formulaText = .ok program := by
  unfold compileOne at h
  split at h
  case isTrue hf =>
    refine ⟨hf, ?_⟩
    split at h
    case h_1 found hp =>
      cases h
      obtain ⟨source, hs, hc⟩ := bind_eq_ok.mp hp
      unfold Formula.Source.ofText Formula.Source.setText at hs
      split at hs
      · contradiction
      case isFalse hne =>
        cases hs
        rwa [Formula.Source.compile, if_neg hne] at hc
    case h_2 => contradiction
  case isFalse => simp at h

theorem says_of_compileOne {d : Definition ν} {program : Program ν}
    (h : compileOne d = .ok ⟨d, some program⟩) : ∃ e, Says d e ∧ program = e.program := by
  obtain ⟨hf, hc⟩ := compile_of_compileOne h
  obtain ⟨tokens, ht, hconvert⟩ := Formula.exists_convert_of_compile hc
  obtain ⟨e, he, hp⟩ := Formula.convert_eq_ok_iff.mp hconvert
  exact ⟨e, ⟨hf, tokens, ht, Formula.parses_of_expression? he⟩, hp⟩

theorem Says.compileOne_eq {d : Definition ν} {e : Expression ν} {program? : Option (Program ν)}
    (he : Says d e) (h : compileOne d = .ok ⟨d, program?⟩) : program? = some e.program := by
  obtain ⟨program, rfl⟩ := Option.isSome_iff_exists.mp ((definition_of_compileOne h).2.mpr he.1)
  obtain ⟨other, ho, rfl⟩ := says_of_compileOne h
  rw [he.unique ho]

/-- What a formula refers to are the references of its program. -/
theorem refersTo_iff {r : Request ν} {compiled : List (Compiled ν)} {name reference : String}
    (h : r.definitions.mapM compileOne = .ok compiled) : r.RefersTo name reference ↔
      ∃ c ∈ compiled, c.definition.name = name ∧ reference ∈ c.references := by
  obtain ⟨hmap, hall⟩ := compileOne_of_mapM h
  constructor
  · rintro ⟨d, hd, rfl, e, he, key, hk, rfl⟩
    rw [← hmap] at hd
    obtain ⟨⟨d, program?⟩, hc, rfl⟩ := List.mem_map.mp hd
    obtain rfl := he.compileOne_eq (hall _ hc)
    exact ⟨_, hc, rfl, List.mem_map_of_mem (Expression.mem_references_program.mpr hk)⟩
  · rintro ⟨⟨d, program?⟩, hc, rfl, hr⟩
    cases program? with
    | none => simp [Compiled.references] at hr
    | some program =>
      obtain ⟨e, he, rfl⟩ := says_of_compileOne (hall _ hc)
      obtain ⟨key, hk, rfl⟩ := List.mem_map.mp hr
      exact ⟨d, hmap ▸ List.mem_map_of_mem hc, rfl, e, he, key,
        Expression.mem_references_program.mp hk, rfl⟩

namespace Prepared

variable {r : Request ν} (p : Prepared r)
include p

theorem exists_of_refersTo {name reference : String} (h : r.RefersTo name reference) :
    ∃ d ∈ r.definitions, d.name = reference := by
  obtain ⟨c, hc, -, hr⟩ := (refersTo_iff p.compiles).mp h
  obtain ⟨hknown, -⟩ := evaluationOrder_eq_ok_iff.mp p.ordered
  obtain ⟨d, hd, hname⟩ := hknown c hc reference hr
  exact ⟨d.definition, p.definition_mem hd, hname⟩

/-- What a formula refers to comes before it in the order of the run. -/
theorem idxOf_lt {name reference : String} (h : r.RefersTo name reference) :
    p.order.idxOf reference < p.order.idxOf name := by
  have ho := orders_of_evaluationOrder p.ordered
  obtain ⟨c, hc, rfl, hr⟩ := (refersTo_iff p.compiles).mp h
  obtain ⟨before, after, horder⟩ := List.append_of_mem ((ho.mem_iff _).mpr ⟨c, hc, rfl⟩)
  have hfresh := (p.supports before c.definition.name after horder).1
  have hbefore := ho.references hc horder reference hr
  rw [horder]
  exact Dependency.idxOf_lt_idxOf_append hbefore hfresh after

theorem means_unique {key : String} {e other : Expression ν} (he : r.Means key e)
    (ho : r.Means key other) : other = e := by
  obtain ⟨d, hd, hname, hsays⟩ := he
  obtain ⟨d', hd', hname', hsays'⟩ := ho
  obtain rfl := List.inj_on_of_nodup_map p.names_nodup hd hd' (hname.trans hname'.symm)
  exact hsays.unique hsays'

theorem ranked : Expression.Ranked r.Means fun key => p.order.idxOf (referenceName key) where
  unique := p.means_unique
  descends := by
    rintro key e ⟨d, hd, hname, he⟩ k hk
    exact p.idxOf_lt ⟨d, hd, hname, e, he, k, hk, rfl⟩

end Prepared

namespace Computed

variable {r : Request ν} (c : Computed r)

/-- A formula says one thing, and its series is what that comes to. -/
theorem exists_says {d : Definition ν} (hd : d ∈ r.definitions) (hf : d.isFormula) :
    ∃ e, Says d e ∧ compileOne d = .ok ⟨d, some e.program⟩ ∧
      c.table.get? d.name = some (solution c.table c.grid.size e.program) := by
  obtain ⟨program, hc, hs⟩ := c.get?_formula hd hf
  obtain ⟨e, he, rfl⟩ := says_of_compileOne hc
  exact ⟨e, he, hc, hs⟩

theorem get?_of_says {d : Definition ν} {e : Expression ν} (hd : d ∈ r.definitions)
    (he : Says d e) :
    c.table.get? d.name = some (solution c.table c.grid.size e.program) := by
  obtain ⟨other, ho, -, hs⟩ := c.exists_says hd he.1
  rwa [he.unique ho] at hs

end Computed

namespace Stages

variable {r : Request ν} {report : Report ν} (s : Stages r report)
include s

/-- In a bucket a key that refers to a formula has the value of what the formula says. -/
theorem context_eq_value? {key : String} {e : Expression ν} (he : r.Means key e) {index : Nat}
    (hi : index < s.grid.size) :
    report.context index key = e.value? (report.context index) Registry.standard := by
  obtain ⟨d, hd, hname, hsays⟩ := he
  rw [s.context_eq, Table.context, ← hname, s.get?_of_says hd hsays,
    ← Expression.toOption_evaluate_program]
  show ((solution s.table s.grid.size e.program)[index]?).bind id = _
  rw [getElem?_solution hi]
  rfl

/-- What no definition names has no value. -/
theorem context_eq_none {key : String} (h : ∀ d ∈ r.definitions, d.name ≠ referenceName key)
    (index : Nat) : report.context index key = none := by
  have hnone : s.table.get? (referenceName key) = none := by
    refine Option.eq_none_iff_forall_ne_some.mpr fun series hs => ?_
    obtain ⟨d, hd, hname⟩ := s.mem_table hs
    exact h d hd hname
  rw [s.context_eq, Table.context, hnone]
  rfl

end Stages

end Scorecard.Consolidation
