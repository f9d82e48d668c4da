import Scorecard.Proofs.Consolidation.Valuation
import Scorecard.Proofs.Dependency.Order

/-! What a run requires. A run looks at its requirements one after the other, some of them at
one definition after the other. It fails if and only if one of them does not hold, and with
the first one that does not. So every failure can be told from the request alone, and tells in
turn that all the requirements before it hold. -/
namespace Scorecard.Consolidation

open Formula (Context EvaluationError Expression FormulaError Program referenceName)
open Kpi (Definition)

variable {ν : Type} [Arithmetic ν]

/-- The program of a formula, if its text has one. -/
def formulaProgram (d : Definition ν) : Except FormulaError (Program ν) :=
  Formula.Source.ofText .standard d.formulaText >>= Formula.Source.compile

/-- Distinct names of definitions, each of which refers to the next, and the last one to the
first. -/
structure Request.IsCircle (r : Request ν) (names : List String) : Prop where
  ne_nil : names ≠ []
  nodup : names.Nodup
  given : ∀ name ∈ names, name ∈ r.definitions.map Definition.name
  follows : names.IsChain r.RefersTo
  closes : ∀ last ∈ names.getLast?, ∀ first ∈ names.head?, r.RefersTo last first

/-- What a run requires of its request. -/
inductive Requirement where
  /-- The bucket around the start of the run has a start. -/
  | start
  /-- Each definition is sound, and no name comes twice. -/
  | definitions
  /-- Each formula has a program. -/
  | formulas
  /-- What formulas refer to is given. -/
  | references
  /-- No formula refers to itself, neither directly nor through others. -/
  | acyclic
  /-- Each raw value is in a bucket that has a start. -/
  | times
  /-- If the run is strict, no formula fails for more than a missing value. -/
  | evaluation
  /-- The last bucket has an end, if there is a series to have it. -/
  | ends
  deriving DecidableEq, Repr

namespace Requirement

/-- The requirements in the order in which a run looks at them. -/
def inOrder : List Requirement :=
  [start, definitions, formulas, references, acyclic, times, evaluation, ends]

def Holds (r : Request ν) : Requirement → Prop
  | start => ∃ first, r.start.roundDown? r.frequency = some first
  | definitions =>
    (∀ d ∈ r.definitions, d.flaw? = none) ∧ (r.definitions.map Definition.name).Nodup
  | formulas => ∀ d ∈ r.definitions, d.isFormula → ∃ program, formulaProgram d = .ok program
  | references => ∀ name reference, r.RefersTo name reference →
    reference ∈ r.definitions.map Definition.name
  | acyclic => ∀ name, ¬ Relation.TransGen r.RefersTo name name
  | times => ∀ d ∈ r.definitions, d.isFormula = false → ∀ o ∈ r.values d.name,
    ∃ first, o.time.roundDown? r.frequency = some first
  | evaluation => r.strict → ∃ contexts, r.Solution contexts ∧
    ∀ d ∈ r.definitions, ∀ context ∈ contexts, ∀ fault, ¬ Fails d context fault
  | ends => r.definitions ≠ [] → ∀ s ∈ r.starts.getLast?, ∃ last, s.roundUp? r.frequency = some last

/-- What a run says where a requirement is the first that does not hold. -/
def Blames (r : Request ν) (e : Error) : Requirement → Prop
  | start | times | ends => e = .dateOutOfRange
  | definitions => ∃ before d after, r.definitions = before ++ d :: after ∧
    (∀ p ∈ before, p.flaw? = none) ∧ (before.map Definition.name).Nodup ∧
      ((∃ flaw, d.flaw? = some flaw ∧ e = .invalidDefinition d.name flaw) ∨
        (d.flaw? = none ∧ d.name ∈ before.map Definition.name ∧ e = .duplicate d.name))
  | formulas => ∃ before d after cause, r.definitions = before ++ d :: after ∧
    (∀ p ∈ before, p.isFormula → ∃ program, formulaProgram p = .ok program) ∧
      d.isFormula ∧ formulaProgram d = .error cause ∧ e = .formula d.name cause
  | references => ∃ before d after expression reference, r.definitions = before ++ d :: after ∧
    (∀ p ∈ before, ∀ known, r.RefersTo p.name known → known ∈ r.definitions.map Definition.name) ∧
      Says d expression ∧ (expression.keys.map referenceName).find?
        (· ∉ r.definitions.map Definition.name) = some reference ∧
      e = .unknownReference d.name reference
  | acyclic => ∃ names, r.IsCircle names ∧ e = .circular names
  | evaluation => ∃ contexts name fault, r.Solution contexts ∧
    FailsFirst r contexts name fault ∧ e = .formula name (.evaluation fault)

end Requirement

/-- A computation comes to something only if the requirements hold, and fails only with the
first that does not hold. -/
structure Tests {α : Type} (r : Request ν) (qs : List Requirement) (x : Except Error α) :
    Prop where
  passes (a : α) : x = .ok a → ∀ q ∈ qs, q.Holds r
  refuses (e : Error) : x = .error e → ∃ before q after, qs = before ++ q :: after ∧
    (∀ p ∈ before, p.Holds r) ∧ ¬ q.Holds r ∧ q.Blames r e

namespace Tests

variable {α β : Type} {r : Request ν} {x : Except Error α}

theorem one {q : Requirement} (hok : ∀ a, x = .ok a → q.Holds r)
    (herror : ∀ e, x = .error e → ¬ q.Holds r ∧ q.Blames r e) : Tests r [q] x where
  passes a h := by simpa using hok a h
  refuses e h := ⟨[], q, [], rfl, by simp, herror e h⟩

/-- What is required one after the other is tested one after the other. -/
theorem bind {qs more : List Requirement} {f : α → Except Error β} (h : Tests r qs x)
    (hf : ∀ a, x = .ok a → Tests r more (f a)) : Tests r (qs ++ more) (x >>= f) where
  passes b hb := by
    obtain ⟨a, ha, hb⟩ := bind_eq_ok.mp hb
    exact List.forall_mem_append.mpr ⟨h.passes a ha, (hf a ha).passes b hb⟩
  refuses e he := by
    rcases bind_eq_error.mp he with he | ⟨a, ha, he⟩
    · obtain ⟨before, q, after, rfl, hbefore, hq⟩ := h.refuses e he
      exact ⟨before, q, after ++ more, by simp, hbefore, hq⟩
    · obtain ⟨before, q, after, rfl, hbefore, hq⟩ := (hf a ha).refuses e he
      exact ⟨qs ++ before, q, after, by simp,
        List.forall_mem_append.mpr ⟨h.passes a ha, hbefore⟩, hq⟩

theorem pure (a : α) : Tests r [] (.ok a : Except Error α) where
  passes := by simp
  refuses e h := by contradiction

/-- It comes to something where all the requirements hold. -/
theorem exists_iff {qs : List Requirement} (h : Tests r qs x) :
    (∃ a, x = .ok a) ↔ ∀ q ∈ qs, q.Holds r := by
  constructor
  · rintro ⟨a, ha⟩
    exact h.passes a ha
  · intro hall
    cases hx : x with
    | ok a => exact ⟨a, rfl⟩
    | error e =>
      obtain ⟨before, q, after, rfl, -, hq, -⟩ := h.refuses e hx
      exact absurd (hall q (by simp)) hq

end Tests

/-! ### The stages of a run -/

variable {r : Request ν}

theorem tests_covering (r : Request ν) : Tests r [.start]
    (match Grid.covering? r.start r.last r.frequency with
      | some grid => pure grid
      | none => throw .dateOutOfRange : Except Error Grid) := by
  unfold Grid.covering?
  refine .one (fun grid h => ?_) fun e h => ?_
  · cases hs : r.start.roundDown? r.frequency with
    | none =>
      rw [hs] at h
      contradiction
    | some first => exact ⟨first, hs⟩
  · cases hs : r.start.roundDown? r.frequency with
    | none =>
      rw [hs] at h
      cases h
      exact ⟨by simp [Requirement.Holds, hs], rfl⟩
    | some first =>
      rw [hs] at h
      contradiction

theorem tests_check (r : Request ν) : Tests r [.definitions] (check ∅ r.definitions) := by
  refine .one (fun _ h => ?_) fun e h => ?_
  · obtain ⟨hsound, hnodup⟩ := check_eq_ok_iff.mp h
    exact ⟨fun d hd => (hsound d hd).1, hnodup⟩
  · obtain ⟨before, d, after, hsplit, hbefore, hd⟩ := check_eq_error h
    obtain ⟨hsound, hnodup⟩ := check_eq_ok_iff.mp hbefore
    refine ⟨?_, before, d, after, hsplit, fun p hp => (hsound p hp).1, hnodup, ?_⟩
    · rintro ⟨hall, hn⟩
      rw [check_eq_ok_iff.mpr ⟨fun p hp => ⟨hall p hp, by simp⟩, hn⟩] at h
      contradiction
    · simpa using hd

theorem compileOne_of_formula {d : Definition ν} (hf : d.isFormula) :
    compileOne d = match formulaProgram d with
      | .ok program => .ok ⟨d, some program⟩
      | .error cause => .error (.formula d.name cause) := by
  rw [compileOne, if_pos hf]
  rfl

theorem exists_formulaProgram {d : Definition ν} {c : Compiled ν} (h : compileOne d = .ok c)
    (hf : d.isFormula) : ∃ program, formulaProgram d = .ok program := by
  rw [compileOne_of_formula hf] at h
  split at h
  case h_1 program hp => exact ⟨program, hp⟩
  case h_2 => contradiction

theorem compileOne_eq_error {d : Definition ν} {e : Error} (h : compileOne d = .error e) :
    d.isFormula ∧ ∃ cause, formulaProgram d = .error cause ∧ e = .formula d.name cause := by
  cases hf : d.isFormula with
  | false => simp [compileOne, hf] at h
  | true =>
    rw [compileOne_of_formula hf] at h
    split at h
    case h_1 => contradiction
    case h_2 cause hc =>
      cases h
      exact ⟨rfl, cause, hc, rfl⟩

theorem tests_compile (r : Request ν) : Tests r [.formulas] (r.definitions.mapM compileOne) := by
  have hall {definitions : List (Definition ν)} {compiled : List (Compiled ν)}
      (h : definitions.mapM compileOne = .ok compiled) :
      ∀ d ∈ definitions, d.isFormula → ∃ program, formulaProgram d = .ok program := by
    intro d hd hf
    obtain ⟨hmap, hc⟩ := compileOne_of_mapM h
    rw [← hmap] at hd
    obtain ⟨c, hm, rfl⟩ := List.mem_map.mp hd
    exact exists_formulaProgram (hc c hm) hf
  refine .one (fun compiled h => hall h) fun e h => ?_
  obtain ⟨before, d, after, results, hsplit, hbefore, hd⟩ := exists_of_mapM_eq_error h
  obtain ⟨hf, cause, hcause, he⟩ := compileOne_eq_error hd
  refine ⟨fun hholds => ?_, before, d, after, cause, hsplit, hall hbefore, hf, hcause, he⟩
  obtain ⟨program, hp⟩ := hholds d (by simp [hsplit]) hf
  rw [hp] at hcause
  contradiction

/-! Once the formulas are compiled, their references can be told from what they say. -/

section Compiled

variable {compiled : List (Compiled ν)} (hc : r.definitions.mapM compileOne = .ok compiled)
include hc

theorem names_of_compile :
    compiled.map (·.definition.name) = r.definitions.map Definition.name := by
  rw [← (compileOne_of_mapM hc).1, List.map_map]
  rfl

theorem known_iff : Known compiled ↔ Requirement.references.Holds r := by
  have hnames (name : String) : name ∈ r.definitions.map Definition.name ↔
      ∃ d ∈ compiled, d.definition.name = name := by
    rw [← names_of_compile hc, List.mem_map]
  simp only [Known, Requirement.Holds, refersTo_iff hc, hnames]
  constructor
  · rintro h name reference ⟨c, hm, -, hr⟩
    exact h c hm reference hr
  · intro h c hm reference hr
    exact h c.definition.name reference ⟨c, hm, rfl, hr⟩

theorem dependsOn_iff {g : Dependency.Graph} (hg : Represents compiled g)
    {name reference : String} : g.DependsOn name reference ↔ r.RefersTo name reference :=
  (hg.mem_precedentsOf name reference).trans (refersTo_iff hc).symm

theorem isCircle_of_isCycle {g : Dependency.Graph} (hg : Represents compiled g)
    (hknown : Known compiled) {cycle : List String} (h : Dependency.IsCycle g cycle) :
    r.IsCircle cycle where
  ne_nil := h.ne_nil
  nodup := h.nodup
  given name hn := by
    rw [← names_of_compile hc, List.mem_map]
    obtain ⟨c, hm, heq | hr⟩ := (hg.mem_nameList name).mp (h.mem_nameList name hn)
    · exact ⟨c, hm, heq⟩
    · exact hknown c hm name hr
  follows := h.follows.imp fun _ _ => (dependsOn_iff hc hg).mp
  closes last hl first hf := (dependsOn_iff hc hg).mp (h.closes last hl first hf)

theorem acyclic_iff {g : Dependency.Graph} (hg : Represents compiled g) :
    g.Acyclic ↔ Requirement.acyclic.Holds r := by
  have heq : g.DependsOn = r.RefersTo := by
    funext name reference
    exact propext (dependsOn_iff hc hg)
  rw [Dependency.Graph.Acyclic, heq]
  rfl

/-- The first reference that is not given is the first in the text of the formula. -/
theorem exists_says_of_find? {c : Compiled ν} (hm : c ∈ compiled) {test : String → Bool}
    {reference : String} (h : c.references.find? test = some reference) : ∃ e,
      Says c.definition e ∧ (e.keys.map referenceName).find? test = some reference := by
  have hcompile := (compileOne_of_mapM hc).2 c hm
  obtain ⟨d, program?⟩ := c
  cases program? with
  | none => contradiction
  | some program =>
    obtain ⟨e, he, rfl⟩ := says_of_compileOne hcompile
    exact ⟨e, he, (Expression.find?_map_references_program referenceName test).symm.trans h⟩

theorem tests_order (hn : (r.definitions.map Definition.name).Nodup) :
    Tests r [.references, .acyclic] (evaluationOrder compiled) where
  passes order h := by
    obtain ⟨hknown, g, hg, ho⟩ := evaluationOrder_eq_ok_iff.mp h
    have hacyclic := (hg.closed.isOrder ho).acyclic hg.closed
    simpa using ⟨(known_iff hc).mp hknown, (acyclic_iff hc hg).mp hacyclic⟩
  refuses e h := by
    rcases evaluationOrder_eq_error h with
      ⟨before, c, after, reference, hsplit, hbefore, hfind, he⟩ | ⟨hknown, g, cycle, hg, hy, he⟩
    · have hm : c ∈ compiled := by simp [hsplit]
      rw [names_of_compile hc] at hbefore hfind
      obtain ⟨expression, hsays, hfirst⟩ := exists_says_of_find? hc hm hfind
      refine ⟨[], .references, [.acyclic], rfl, by simp, fun hholds => ?_,
        before.map Compiled.definition, c.definition, after.map Compiled.definition, expression,
        reference, ?_, ?_, hsays, hfirst, he⟩
      · have hgiven := hholds c.definition.name reference
          ((refersTo_iff hc).mpr ⟨c, hm, rfl, List.mem_of_find?_eq_some hfind⟩)
        simpa [hgiven] using List.find?_some hfind
      · rw [← (compileOne_of_mapM hc).1, hsplit, List.map_append, List.map_cons]
      · intro p hp known hrefers
        obtain ⟨b, hb, rfl⟩ := List.mem_map.mp hp
        obtain ⟨other, ho, hname, hr⟩ := (refersTo_iff hc).mp hrefers
        rw [← names_of_compile hc] at hn
        obtain rfl := List.inj_on_of_nodup_map hn ho (by simp [hsplit, hb]) hname
        exact hbefore other hb known hr
    · refine ⟨[.references], .acyclic, [], rfl, ?_, ?_, cycle,
        isCircle_of_isCycle hc hg hknown hy, he⟩
      · simpa using (known_iff hc).mp hknown
      · rw [← acyclic_iff hc hg]
        exact hy.not_acyclic

end Compiled

theorem tests_reduceAll {grid : Grid} (hg : Grid.covering? r.start r.last r.frequency = some grid)
    (hn : (r.definitions.map Definition.name).Nodup) :
    Tests r [.times] (reduceAll grid r.values r.definitions) := by
  obtain ⟨hfrequency, -⟩ := Grid.aligned_of_covering? hg
  refine .one (fun table h => ?_) fun e h => ?_
  · intro d hd hf
    obtain ⟨series, hs, -⟩ := (reduced_of_reduceAll h).get?_of_mem hn hd hf
    rw [← hfrequency]
    exact Grid.exists_reduce?_iff.mp ⟨series, hs⟩
  · obtain ⟨before, d, after, table, hsplit, -, hd⟩ := exists_of_foldlM_eq_error h
    cases hf : d.isFormula with
    | true => simp [hf] at hd
    | false =>
      cases hs : grid.reduce? d.reduction (r.values d.name) with
      | some series => simp [hf, hs] at hd
      | none =>
        simp only [hf, hs] at hd
        refine ⟨fun hholds => ?_, (Except.error.inj hd).symm⟩
        have htimes := hholds d (by simp [hsplit]) hf
        rw [← hfrequency] at htimes
        obtain ⟨series, hr⟩ := Grid.exists_reduce?_iff.mpr htimes
        rw [hr] at hs
        contradiction

namespace Computed

variable (c : Computed r)

theorem tests_evaluateAll : Tests r [.evaluation]
    (evaluateAll r.strict c.grid.size (programs c.compiled) c.order c.reduced) := by
  rw [c.evaluateAll_eq]
  cases hs : r.strict with
  | false => exact .one (fun _ _ hstrict => by simp [hs] at hstrict) fun e h => by contradiction
  | true =>
    rw [if_pos rfl]
    cases hf : c.fault? with
    | none =>
      refine .one (fun _ _ _ => ?_) fun e h => by contradiction
      exact ⟨c.contexts, c.solution, c.fault?_eq_none_iff_not_fails.mp hf⟩
    | some first =>
      refine .one (fun _ h => by contradiction) fun e h => ?_
      cases h
      refine ⟨fun hholds => ?_, c.contexts, first.1, first.2, c.solution,
        c.failsFirst_of_fault? hf, rfl⟩
      obtain ⟨contexts, hcontexts, hnot⟩ := hholds hs
      rw [c.solution_unique hcontexts c.solution] at hnot
      rw [c.fault?_eq_none_iff_not_fails.mpr hnot] at hf
      contradiction

theorem isEmpty_table_eq_false_iff : c.table.isEmpty = false ↔ r.definitions ≠ [] := by
  constructor
  · rintro h hnil
    obtain ⟨name, hm⟩ := Std.TreeMap.isEmpty_eq_false_iff_exists_mem.mp h
    obtain ⟨series, hs⟩ := Option.isSome_iff_exists.mp (Std.TreeMap.mem_iff_isSome_getElem?.mp hm)
    obtain ⟨d, hd, -⟩ := c.mem_table hs
    simp [hnil] at hd
  · intro h
    obtain ⟨d, hd⟩ := List.exists_mem_of_ne_nil _ h
    obtain ⟨series, hs⟩ := c.exists_series hd
    exact Table.isEmpty_eq_false hs

theorem exists_assemble_iff_holds :
    (∃ series, assemble c.grid c.table = .ok series) ↔ Requirement.ends.Holds r := by
  obtain ⟨hfrequency, hg⟩ := Grid.aligned_of_covering? c.covering
  rw [exists_assemble_iff, c.isEmpty_table_eq_false_iff, hg.exists_ends?_iff, hfrequency,
    ← c.starts_eq]
  rfl

theorem tests_assemble : Tests r [.ends] (assemble c.grid c.table) := by
  refine .one (fun series h => c.exists_assemble_iff_holds.mp ⟨series, h⟩) fun e h => ?_
  refine ⟨fun hholds => ?_, assemble_eq_error h⟩
  obtain ⟨series, hs⟩ := c.exists_assemble_iff_holds.mpr hholds
  rw [hs] at h
  contradiction

end Computed

theorem Prepared.tests (p : Prepared r) : Tests r [.evaluation, .ends] p.finish := by
  obtain ⟨c, rfl⟩ := p.exists_computed
  show Tests r ([.evaluation] ++ ([.ends] ++ [])) _
  refine c.tests_evaluateAll.bind fun state h => ?_
  obtain rfl : state = (c.table, c.tally) := by
    rw [c.evaluateAll_eq] at h
    split at h
    · contradiction
    · exact (Except.ok.inj h).symm
  exact c.tests_assemble.bind fun series _ => .pure _

/-- A run tests its requirements in their order. -/
theorem tests_run (r : Request ν) : Tests r Requirement.inOrder (run r) := by
  show Tests r ([.start] ++ ([.definitions] ++ ([.formulas] ++ ([.references, .acyclic] ++
    ([.times] ++ [.evaluation, .ends]))))) _
  have hstart := tests_covering r
  unfold run
  cases hg : Grid.covering? r.start r.last r.frequency with
  | none =>
    rw [hg] at hstart
    exact hstart.bind fun _ h => by contradiction
  | some grid =>
    rw [hg] at hstart
    refine hstart.bind fun _ hpure => ?_
    cases hpure
    refine (tests_check r).bind fun _ hcheck => ?_
    have hn := (check_eq_ok_iff.mp hcheck).2
    refine (tests_compile r).bind fun compiled hcompile => ?_
    refine (tests_order hcompile hn).bind fun order horder => ?_
    refine (tests_reduceAll hg hn).bind fun reduced hreduced => ?_
    exact Prepared.tests ⟨grid, compiled, order, reduced, hg, hcheck, hcompile, horder, hreduced⟩

theorem Requirement.mem_inOrder (q : Requirement) : q ∈ inOrder := by
  cases q <;> decide

/-- A run comes to a report if and only if all its requirements hold. Otherwise it fails with
what the first one says that does not hold. -/
theorem run_requires (r : Request ν) :
    ((∃ report, run r = .ok report) ↔ ∀ q : Requirement, q.Holds r) ∧
      ∀ e, run r = .error e → ∃ before q after, Requirement.inOrder = before ++ q :: after ∧
        (∀ p ∈ before, p.Holds r) ∧ ¬ q.Holds r ∧ q.Blames r e := by
  refine ⟨?_, (tests_run r).refuses⟩
  rw [(tests_run r).exists_iff]
  exact ⟨fun h q => h q q.mem_inOrder, fun h q _ => h q⟩

/-- Two formulas in a circle, and one that refers to nothing that is given: the latter is said
first. -/
def tangled (reference : String) : Request Float :=
  { layered with
    definitions := [
      ⟨"a", none, .formula, some "\"b\" + 1", none, none⟩,
      ⟨"b", none, .formula, some "\"a\" * 2", none, none⟩,
      ⟨"c", none, .formula, some s!"\"{reference}\" - \"a\"", none, none⟩] }

example : (run (tangled "d")).map (fun _ => ()) = .error (.unknownReference "c" "d") ∧
    (run (tangled "b")).map (fun _ => ()) = .error (.circular ["a", "b"]) := by
  decide +kernel

end Scorecard.Consolidation
