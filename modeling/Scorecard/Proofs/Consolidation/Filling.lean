import Scorecard.Proofs.Consolidation.Grid
import Scorecard.Proofs.Consolidation.Order
import Scorecard.Proofs.Formula.References

/-! How the table of a run fills up. First come the series reduced from raw values, then
those of the formulas. When the order is right, a formula finds all that it refers to in
its place, and nothing put in later changes what it found. So the series of a formula is
still its solution over the table as it is in the end. -/
namespace Scorecard.Consolidation

open Formula (Context Program Registry referenceName)
open Kpi (Definition Observation Reduction)

variable {ν : Type}

theorem Table.get?_insert (table : Table ν) (name other : String) (series : Array (Option ν)) :
    (table.insert name series).get? other =
      if name = other then some series else table.get? other := by
  simp [Std.TreeMap.getElem?_insert]

theorem Table.get?_insert_of_ne {table : Table ν} {name other : String} (h : name ≠ other)
    (series : Array (Option ν)) : (table.insert name series).get? other = table.get? other := by
  rw [get?_insert, if_neg h]

theorem Table.context_congr {table other : Table ν} {key : String}
    (h : table.get? (referenceName key) = other.get? (referenceName key)) (index : Nat) :
    table.context index key = other.context index key := by
  simp only [Table.context, h]

variable [Arithmetic ν]

/-! ### Raw values -/

/-- The table holds the series of all definitions but the formulas, and no others. -/
structure Reduced (grid : Grid) (values : String → List (Observation ν))
    (definitions : List (Definition ν)) (table : Table ν) : Prop where
  source {name : String} {series : Array (Option ν)} : table.get? name = some series →
    ∃ d ∈ definitions, d.isFormula = false ∧ d.name = name ∧
      grid.reduce? d.reduction (values name) = some series
  mem {d : Definition ν} : d ∈ definitions → d.isFormula = false → d.name ∈ table

theorem reduced_of_reduceAll {grid : Grid} {values : String → List (Observation ν)}
    {definitions : List (Definition ν)} {table : Table ν}
    (h : reduceAll grid values definitions = .ok table) :
    Reduced grid values definitions table := by
  refine foldlM_induction (Reduced grid values) ⟨by simp, by simp⟩ ?_ h
  intro done d rest table next _ ht hn
  have hsource {name : String} {series : Array (Option ν)}
      (hs : table.get? name = some series) : ∃ e ∈ done ++ [d], e.isFormula = false ∧
        e.name = name ∧ grid.reduce? e.reduction (values name) = some series := by
    obtain ⟨e, he, hr⟩ := ht.source hs
    exact ⟨e, List.mem_append_left _ he, hr⟩
  split at hn
  case isTrue hf =>
    cases hn
    refine ⟨hsource, ?_⟩
    intro e he hef
    rcases List.mem_append.mp he with he | he
    · exact ht.mem he hef
    · rw [List.mem_singleton.mp he, hf] at hef
      contradiction
  case isFalse hf =>
    split at hn
    case h_1 series hr =>
      cases hn
      refine ⟨?_, ?_⟩
      · intro name other ho
        rw [Table.get?_insert] at ho
        split at ho
        case isTrue heq =>
          cases ho
          subst heq
          exact ⟨d, by simp, by simpa using hf, rfl, hr⟩
        case isFalse => exact hsource ho
      · intro e he hef
        rw [Std.TreeMap.mem_insert, Std.LawfulEqOrd.compare_eq_iff_eq]
        rcases List.mem_append.mp he with he | he
        · exact .inr (ht.mem he hef)
        · rw [List.mem_singleton.mp he]
          exact .inl rfl
    case h_2 => contradiction

section Distinct

variable {grid : Grid} {values : String → List (Observation ν)} {definitions : List (Definition ν)}
  {table : Table ν} (h : Reduced grid values definitions table)
  (hn : (definitions.map Definition.name).Nodup)
include h hn

theorem Reduced.get?_of_mem {d : Definition ν} (hd : d ∈ definitions) (hf : d.isFormula = false) :
    ∃ series, grid.reduce? d.reduction (values d.name) = some series ∧
      table.get? d.name = some series := by
  obtain ⟨series, hs⟩ : ∃ series, table.get? d.name = some series :=
    Option.isSome_iff_exists.mp (by simpa using h.mem hd hf)
  obtain ⟨e, he, -, hname, hr⟩ := h.source hs
  obtain rfl := List.inj_on_of_nodup_map hn he hd hname
  exact ⟨series, hr, hs⟩

/-- The table is known from the definitions, whatever their order is. -/
theorem Reduced.get?_eq_some_iff {name : String} {series : Array (Option ν)} :
    table.get? name = some series ↔ ∃ d ∈ definitions, d.isFormula = false ∧ d.name = name ∧
      grid.reduce? d.reduction (values name) = some series := by
  constructor
  · exact h.source
  · rintro ⟨d, hd, hf, rfl, hr⟩
    obtain ⟨found, hfound, hs⟩ := h.get?_of_mem hn hd hf
    rw [hs, ← hfound, hr]

end Distinct

/-- The table can be filled where every series can be reduced. -/
theorem exists_reduceAll {grid : Grid} {values : String → List (Observation ν)}
    {definitions : List (Definition ν)} (h : ∀ d ∈ definitions, d.isFormula = false →
      ∃ series, grid.reduce? d.reduction (values d.name) = some series) :
    ∃ table, reduceAll grid values definitions = .ok table := by
  refine exists_foldlM (fun d hd table => ?_) ∅
  cases hf : d.isFormula with
  | true => exact ⟨table, rfl⟩
  | false =>
    obtain ⟨series, hr⟩ := h d hd hf
    exact ⟨table.insert d.name series, by simp [hr]⟩

/-! ### Formulas -/

/-- What a program comes to in each bucket. -/
def solution (table : Table ν) (size : Nat) (program : Program ν) : Array (Option ν) :=
  ((evaluateBuckets table program size).map Except.toOption).toArray

theorem size_solution (table : Table ν) (size : Nat) (program : Program ν) :
    (solution table size program).size = size := by
  simp [solution, evaluateBuckets]

theorem getElem?_solution {table : Table ν} {size index : Nat} {program : Program ν}
    (h : index < size) : (solution table size program)[index]? =
      some (program.evaluate (table.context index) Registry.standard).toOption := by
  simp [solution, evaluateBuckets, h]

section Congr

variable {table other : Table ν} {program : Program ν}
  (h : ∀ key ∈ program.references,
    table.get? (referenceName key) = other.get? (referenceName key))
include h

theorem evaluateBuckets_congr (size : Nat) :
    evaluateBuckets table program size = evaluateBuckets other program size := by
  refine List.map_congr_left fun index _ => ?_
  exact Program.evaluate_congr (fun key hk => Table.context_congr (h key hk) index) _

theorem solution_congr (size : Nat) :
    solution table size program = solution other size program := by
  rw [solution, solution, evaluateBuckets_congr h]

end Congr

/-- In an order a name comes once, and its program refers only to what came before. -/
def Supports (programs : Std.TreeMap String (Program ν)) (order : List String) : Prop :=
  ∀ before name after, order = before ++ name :: after → name ∉ before ∧
    ∀ program, programs.get? name = some program →
      ∀ key ∈ program.references, referenceName key ∈ before

/-- The formulas among the names done have their solutions over the table as it is, and
apart from these the table is as it was at the start. -/
structure Filled (programs : Std.TreeMap String (Program ν)) (size : Nat) (start : Table ν)
    (done : List String) (table : Table ν) : Prop where
  kept {name : String} : (name ∈ done → programs.get? name = none) →
    table.get? name = start.get? name
  solved {name : String} {program : Program ν} : name ∈ done →
    programs.get? name = some program → table.get? name = some (solution table size program)
  references {name : String} {program : Program ν} : name ∈ done →
    programs.get? name = some program → ∀ key ∈ program.references, referenceName key ∈ done

theorem Filled.skip {programs : Std.TreeMap String (Program ν)} {size : Nat} {start table : Table ν}
    {done : List String} {name : String} (h : Filled programs size start done table)
    (hp : programs.get? name = none) : Filled programs size start (done ++ [name]) table := by
  have hdone {n : String} {program : Program ν} (hn : n ∈ done ++ [name])
      (hs : programs.get? n = some program) : n ∈ done := by
    rcases List.mem_append.mp hn with hn | hn
    · exact hn
    · rw [List.mem_singleton.mp hn, hp] at hs
      contradiction
  refine ⟨fun hk => h.kept fun hd => hk (List.mem_append_left _ hd), ?_, ?_⟩
  · intro n program hn hs
    exact h.solved (hdone hn hs) hs
  · intro n program hn hs key hk
    exact List.mem_append_left _ (h.references (hdone hn hs) hs key hk)

theorem Filled.insert {programs : Std.TreeMap String (Program ν)} {size : Nat}
    {start table : Table ν} {done : List String} {name : String} {program : Program ν}
    (h : Filled programs size start done table) (hp : programs.get? name = some program)
    (hn : name ∉ done) (hr : ∀ key ∈ program.references, referenceName key ∈ done) :
    Filled programs size start (done ++ [name])
      (table.insert name (solution table size program)) := by
  -- What is put in under a new name is nothing that a program so far refers to.
  have hsame {p : Program ν} (hrefs : ∀ key ∈ p.references, referenceName key ∈ done) :
      solution (table.insert name (solution table size program)) size p =
        solution table size p := by
    refine solution_congr (fun key hk => Table.get?_insert_of_ne ?_ _) size
    rintro rfl
    exact hn (hrefs key hk)
  refine ⟨?_, ?_, ?_⟩
  · intro other hk
    have hne : name ≠ other := by
      rintro rfl
      have hnone := hk (List.mem_append_right _ List.mem_cons_self)
      rw [hp] at hnone
      contradiction
    rw [Table.get?_insert_of_ne hne]
    exact h.kept fun hd => hk (List.mem_append_left _ hd)
  · intro other p ho hs
    rcases List.mem_append.mp ho with ho | ho
    · have hne : name ≠ other := fun he => hn (he ▸ ho)
      rw [Table.get?_insert_of_ne hne, h.solved ho hs, hsame (h.references ho hs)]
    · obtain rfl := List.mem_singleton.mp ho
      obtain rfl : program = p := Option.some.inj (hp.symm.trans hs)
      rw [Table.get?_insert, if_pos rfl, hsame hr]
  · intro other p ho hs key hk
    rcases List.mem_append.mp ho with ho | ho
    · exact List.mem_append_left _ (h.references ho hs key hk)
    · obtain rfl := List.mem_singleton.mp ho
      obtain rfl : program = p := Option.some.inj (hp.symm.trans hs)
      exact List.mem_append_left _ (hr key hk)

end Scorecard.Consolidation
