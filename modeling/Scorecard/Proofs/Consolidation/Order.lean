import Scorecard.Consolidation.Run
import Scorecard.Proofs.Dependency.Likeness
import Scorecard.Proofs.Fallible

/-! From definitions to an order of their names. The names are distinct, every formula
has its program, and the order has each name once, behind the names that it refers to. -/
namespace Scorecard.Consolidation

open Dependency (Graph IsOrder)
open Formula (Program referenceName)
open Kpi (Definition)

variable {ν : Type}

/-- Definitions pass where each is sound and their names are distinct. -/
theorem check_eq_ok_iff {seen : Std.TreeSet String} {definitions : List (Definition ν)} :
    check seen definitions = .ok () ↔ (∀ d ∈ definitions, d.flaw? = none ∧ d.name ∉ seen) ∧
      (definitions.map Definition.name).Nodup := by
  induction definitions generalizing seen with
  | nil => simp [check]
  | cons d rest ih =>
    rw [check, List.forall_mem_cons, List.map_cons, List.nodup_cons, List.mem_map]
    cases hf : d.flaw? with
    | some flaw => simp
    | none =>
      by_cases hs : d.name ∈ seen
      · simp [hs]
      · simp only [Std.TreeSet.contains_iff_mem, hs, if_false, ih, Dependency.Names.mem_insert]
        grind

/-- The first definition that does not pass is not sound, or has a name that came before. -/
theorem check_eq_error {seen : Std.TreeSet String} {definitions : List (Definition ν)} {e : Error}
    (h : check seen definitions = .error e) : ∃ before d after,
      definitions = before ++ d :: after ∧ check seen before = .ok () ∧
        ((∃ flaw, d.flaw? = some flaw ∧ e = .invalidDefinition d.name flaw) ∨
          (d.flaw? = none ∧ (d.name ∈ seen ∨ d.name ∈ before.map Definition.name) ∧
            e = .duplicate d.name)) := by
  induction definitions generalizing seen with
  | nil => contradiction
  | cons d rest ih =>
    rw [check] at h
    cases hf : d.flaw? with
    | some flaw =>
      rw [hf] at h
      cases h
      exact ⟨[], d, rest, rfl, rfl, .inl ⟨flaw, hf, rfl⟩⟩
    | none =>
      simp only [hf] at h
      by_cases hs : d.name ∈ seen
      · rw [if_pos (Std.TreeSet.contains_iff_mem.mpr hs)] at h
        cases h
        exact ⟨[], d, rest, rfl, rfl, .inr ⟨hf, .inl hs, rfl⟩⟩
      · have hc : ¬ seen.contains d.name = true := fun hc => hs (Std.TreeSet.contains_iff_mem.mp hc)
        rw [if_neg hc] at h
        obtain ⟨before, found, after, rfl, hbefore, hfound⟩ := ih h
        refine ⟨d :: before, found, after, rfl, ?_, hfound.imp_right ?_⟩
        · rw [check, hf]
          exact (if_neg hc).trans hbefore
        · rintro ⟨hnone, hm, he⟩
          rw [Dependency.Names.mem_insert] at hm
          exact ⟨hnone, by grind, he⟩

/-- The names of definitions, with the names that their formulas refer to, as a graph. -/
structure Represents (compiled : List (Compiled ν)) (g : Graph) : Prop where
  closed : g.Closed
  mem_nameList (name : String) : name ∈ g.nameList ↔
    ∃ c ∈ compiled, c.definition.name = name ∨ name ∈ c.references
  mem_precedentsOf (name reference : String) : reference ∈ g.precedentsOf name ↔
    ∃ c ∈ compiled, c.definition.name = name ∧ reference ∈ c.references

theorem Represents.nil : Represents ([] : List (Compiled ν)) Graph.empty where
  closed := Graph.closed_empty
  mem_nameList name := by simp [Graph.mem_nameList, Graph.empty]
  mem_precedentsOf name reference := by
    simp [Graph.mem_precedentsOf, Dependency.Neighbours.of, Graph.empty]

theorem Compiled.addTo_eq_ok_iff {known : Std.TreeSet String} {g next : Graph} {c : Compiled ν} :
    c.addTo known g = .ok next ↔ (∀ reference ∈ c.references, reference ∈ known) ∧
      next = (g.addName c.definition.name).addDependencies c.references c.definition.name := by
  unfold addTo
  generalize g.addName c.definition.name = start
  generalize c.references = references
  induction references generalizing start with
  | nil =>
    rw [List.foldlM_nil]
    exact ⟨fun h => ⟨by simp, (Except.ok.inj h).symm⟩, fun h => congrArg Except.ok h.2.symm⟩
  | cons first rest ih =>
    rw [List.foldlM_cons, List.forall_mem_cons]
    by_cases hk : known.contains first = true
    · rw [if_pos hk]
      exact (ih _).trans (and_congr_left fun _ => (and_iff_right hk).symm)
    · rw [if_neg hk]
      exact ⟨fun h => by contradiction, fun h => absurd h.1.1 hk⟩

theorem Compiled.addTo_eq_error {known : Std.TreeSet String} {g : Graph} {c : Compiled ν}
    {e : Error} (h : c.addTo known g = .error e) : ∃ reference,
      c.references.find? (!known.contains ·) = some reference ∧
        e = .unknownReference c.definition.name reference := by
  unfold addTo at h
  generalize g.addName c.definition.name = start at h
  generalize c.references = references at h
  induction references generalizing start with
  | nil => contradiction
  | cons first rest ih =>
    rw [List.foldlM_cons] at h
    by_cases hk : known.contains first = true
    · rw [if_pos hk] at h
      obtain ⟨reference, hr, he⟩ := ih _ h
      exact ⟨reference, by rw [List.find?_cons_of_neg (by simp [hk]), hr], he⟩
    · rw [if_neg hk] at h
      cases h
      exact ⟨first, List.find?_cons_of_pos (by simp [hk]), rfl⟩

theorem Represents.addTo {known : Std.TreeSet String} {compiled : List (Compiled ν)}
    {g next : Graph} {c : Compiled ν} (hg : Represents compiled g)
    (h : c.addTo known g = .ok next) : Represents (compiled ++ [c]) next := by
  obtain ⟨-, rfl⟩ := Compiled.addTo_eq_ok_iff.mp h
  refine ⟨(hg.closed.addName _).addDependencies _, ?_, ?_⟩
  · intro name
    rw [Graph.mem_nameList_addDependencies (Graph.mem_nameList_addName.mpr (.inl rfl)),
      Graph.mem_nameList_addName, hg.mem_nameList]
    simp only [List.mem_append, List.mem_singleton, or_and_right, exists_or, exists_eq_left]
    grind
  · intro name reference
    have ha : reference ∈ (g.addName c.definition.name).precedentsOf name ↔ _ :=
      hg.mem_precedentsOf name reference
    rw [Graph.mem_precedentsOf_addDependencies, ha]
    simp only [List.mem_append, List.mem_singleton, or_and_right, exists_or, exists_eq_left]
    exact or_comm

/-- The names of all definitions, each once and behind the names that it refers to. -/
structure Orders (compiled : List (Compiled ν)) (order : List String) : Prop where
  nodup : order.Nodup
  mem_iff (name : String) : name ∈ order ↔ ∃ c ∈ compiled, c.definition.name = name
  references {before after : List String} {c : Compiled ν} : c ∈ compiled →
    order = before ++ c.definition.name :: after →
    ∀ reference ∈ c.references, reference ∈ before

/-- The formulas refer only to names that are defined. -/
def Known (compiled : List (Compiled ν)) : Prop :=
  ∀ c ∈ compiled, ∀ reference ∈ c.references, ∃ d ∈ compiled, d.definition.name = reference

theorem Represents.orders {compiled : List (Compiled ν)} {g : Graph} {order : List String}
    (hg : Represents compiled g) (ho : IsOrder g order) (hk : Known compiled) :
    Orders compiled order where
  nodup := ho.nodup
  mem_iff name := by
    rw [ho.perm.mem_iff, hg.mem_nameList]
    constructor
    · rintro ⟨c, hc, hn | hr⟩
      · exact ⟨c, hc, hn⟩
      · exact hk c hc name hr
    · rintro ⟨c, hc, hn⟩
      exact ⟨c, hc, .inl hn⟩
  references hc he reference hr :=
    ho.precedents he reference ((hg.mem_precedentsOf _ reference).mpr ⟨_, hc, rfl, hr⟩)

/-- A graph of the definitions is built where they refer to known names only. -/
theorem represents_of_foldlM {known : Std.TreeSet String} {compiled : List (Compiled ν)}
    {g : Graph} (h : compiled.foldlM (Compiled.addTo known) Graph.empty = .ok g) :
    Represents compiled g ∧ ∀ c ∈ compiled, ∀ reference ∈ c.references, reference ∈ known := by
  refine foldlM_induction (fun done g => Represents done g ∧
    ∀ c ∈ done, ∀ reference ∈ c.references, reference ∈ known) ⟨Represents.nil, by simp⟩ ?_ h
  intro done c rest g next _ hd hn
  refine ⟨hd.1.addTo hn, ?_⟩
  intro d hm
  rcases List.mem_append.mp hm with hm | hm
  · exact hd.2 d hm
  · obtain rfl := List.mem_singleton.mp hm
    exact (Compiled.addTo_eq_ok_iff.mp hn).1

theorem mem_ofList_names {compiled : List (Compiled ν)} {name : String} :
    name ∈ Std.TreeSet.ofList (compiled.map (·.definition.name)) ↔
      ∃ d ∈ compiled, d.definition.name = name := by
  rw [Std.TreeSet.mem_ofList, List.contains_iff_mem, List.mem_map]

theorem Represents.alike {compiled : List (Compiled ν)} {g other : Graph}
    (hg : Represents compiled g) (ho : Represents compiled other) : g.Alike other :=
  Graph.alike_of_mem (fun name => (hg.mem_nameList name).trans (ho.mem_nameList name).symm)
    fun name reference =>
      (hg.mem_precedentsOf name reference).trans (ho.mem_precedentsOf name reference).symm

/-- The order is that of any graph that represents the definitions. -/
theorem evaluationOrder_eq_ok_iff {compiled : List (Compiled ν)} {order : List String} :
    evaluationOrder compiled = .ok order ↔
      Known compiled ∧ ∃ g, Represents compiled g ∧ g.evaluationOrder = .ok order := by
  have hmap (g : Graph) : g.evaluationOrder.mapError Error.circular = .ok order ↔
      g.evaluationOrder = .ok order := by
    cases g.evaluationOrder <;> simp [Except.mapError]
  constructor
  · intro h
    obtain ⟨g, hg, ho⟩ := bind_eq_ok.mp h
    obtain ⟨hr, hk⟩ := represents_of_foldlM hg
    exact ⟨fun c hc reference hm => mem_ofList_names.mp (hk c hc reference hm), g, hr,
      (hmap g).mp ho⟩
  · rintro ⟨hk, g, hr, ho⟩
    obtain ⟨built, hb⟩ : ∃ built, compiled.foldlM (Compiled.addTo
        (Std.TreeSet.ofList (compiled.map (·.definition.name)))) Graph.empty = .ok built :=
      exists_foldlM (fun c hc g => ⟨_, Compiled.addTo_eq_ok_iff.mpr
        ⟨fun reference hm => mem_ofList_names.mpr (hk c hc reference hm), rfl⟩⟩) _
    have hbuilt := (represents_of_foldlM hb).1
    refine bind_eq_ok.mpr ⟨built, hb, (hmap built).mpr ?_⟩
    rw [← ho]
    exact (hbuilt.alike hr).evaluationOrder_eq hbuilt.closed

/-- There is no order if a formula refers to an unknown name, or formulas refer to each other
in a circle. -/
theorem evaluationOrder_eq_error {compiled : List (Compiled ν)} {e : Error}
    (h : evaluationOrder compiled = .error e) :
    (∃ before c after reference, compiled = before ++ c :: after ∧
      (∀ b ∈ before, ∀ reference ∈ b.references, reference ∈ compiled.map (·.definition.name)) ∧
        c.references.find? (· ∉ compiled.map (·.definition.name)) = some reference ∧
          e = .unknownReference c.definition.name reference) ∨
      Known compiled ∧ ∃ g cycle, Represents compiled g ∧ Dependency.IsCycle g cycle ∧
        e = .circular cycle := by
  rcases bind_eq_error.mp h with h | ⟨g, hg, h⟩
  · obtain ⟨before, c, after, g, hsplit, hg, hc⟩ := exists_of_foldlM_eq_error h
    obtain ⟨reference, hr, he⟩ := Compiled.addTo_eq_error hc
    refine .inl ⟨before, c, after, reference, hsplit, fun b hb reference hm => ?_, ?_, he⟩
    · exact List.mem_map.mpr (mem_ofList_names.mp ((represents_of_foldlM hg).2 b hb reference hm))
    · rw [← hr]
      congr 1
      funext name
      rw [Std.TreeSet.contains_ofList, List.contains_eq_mem, decide_not]
  · obtain ⟨hr, hk⟩ := represents_of_foldlM hg
    refine .inr ⟨fun c hc reference hm => mem_ofList_names.mp (hk c hc reference hm), g, ?_⟩
    cases hcycle : g.evaluationOrder with
    | ok order => simp [hcycle, Except.mapError] at h
    | error cycle =>
      rw [hcycle] at h
      cases h
      exact ⟨cycle, hr, hr.closed.isCycle hcycle, rfl⟩

theorem orders_of_evaluationOrder {compiled : List (Compiled ν)} {order : List String}
    (h : evaluationOrder compiled = .ok order) : Orders compiled order := by
  obtain ⟨hk, g, hg, ho⟩ := evaluationOrder_eq_ok_iff.mp h
  exact hg.orders (hg.closed.isOrder ho) hk

theorem get?_ofList_eq_some {α : Type} {entries : List (String × α)} {key : String} {value : α}
    (h : (entries.map Prod.fst).Nodup) :
    (Std.TreeMap.ofList entries).get? key = some value ↔ (key, value) ∈ entries := by
  have hdistinct : entries.Pairwise fun a b => ¬ compare a.1 b.1 = .eq := by
    refine (List.pairwise_map.mp h).imp fun hne => ?_
    rwa [Std.LawfulEqOrd.compare_eq_iff_eq]
  constructor
  · intro hget
    by_cases hk : (entries.map Prod.fst).contains key
    · obtain ⟨⟨k, v⟩, hm, rfl⟩ := List.mem_map.mp (List.contains_iff_mem.mp hk)
      have hv := Std.TreeMap.getElem?_ofList_of_mem Std.ReflOrd.compare_self hdistinct hm
      have heq : some v = some value := hv.symm.trans hget
      cases heq
      exact hm
    · have hnone : (Std.TreeMap.ofList entries)[key]? = none :=
        Std.TreeMap.getElem?_ofList_of_contains_eq_false (Bool.eq_false_of_not_eq_true hk)
      have heq : none = some value := hnone.symm.trans hget
      contradiction
  · intro hm
    exact Std.TreeMap.getElem?_ofList_of_mem Std.ReflOrd.compare_self hdistinct hm

/-- The programs of the formulas by their names. -/
def programs (compiled : List (Compiled ν)) : Std.TreeMap String (Program ν) :=
  Std.TreeMap.ofList
    (compiled.filterMap fun c => c.program?.map fun program => (c.definition.name, program))

theorem get?_programs {compiled : List (Compiled ν)} {name : String} {program : Program ν}
    (h : (compiled.map (·.definition.name)).Nodup) :
    (programs compiled).get? name = some program ↔
      ∃ c ∈ compiled, c.definition.name = name ∧ c.program? = some program := by
  have hn : ((compiled.filterMap fun c => c.program?.map fun program =>
      (c.definition.name, program)).map Prod.fst).Nodup := by
    rw [List.Nodup, List.pairwise_map, List.pairwise_filterMap]
    refine (List.pairwise_map.mp h).imp fun hne => ?_
    intro entry he other ho
    obtain ⟨_, -, rfl⟩ := Option.map_eq_some_iff.mp he
    obtain ⟨_, -, rfl⟩ := Option.map_eq_some_iff.mp ho
    exact hne
  rw [programs, get?_ofList_eq_some hn, List.mem_filterMap]
  simp only [Option.map_eq_some_iff, Prod.mk.injEq]
  constructor
  · rintro ⟨c, hc, p, hp, rfl, rfl⟩
    exact ⟨c, hc, rfl, hp⟩
  · rintro ⟨c, hc, rfl, hp⟩
    exact ⟨c, hc, program, hp, rfl, rfl⟩

variable [Arithmetic ν]

theorem definition_of_compileOne {d : Definition ν} {c : Compiled ν} (h : compileOne d = .ok c) :
    c.definition = d ∧ (c.program?.isSome ↔ d.isFormula) := by
  simp only [compileOne] at h
  split at h
  case isTrue hf =>
    split at h
    · cases h
      simp [hf]
    · contradiction
  case isFalse hf =>
    cases h
    simp [hf]

theorem compileOne_of_mapM {definitions : List (Definition ν)} {compiled : List (Compiled ν)}
    (h : definitions.mapM compileOne = .ok compiled) :
    compiled.map Compiled.definition = definitions ∧
      ∀ c ∈ compiled, compileOne c.definition = .ok c := by
  induction mapM_eq_ok_iff.mp h with
  | nil => exact ⟨rfl, by simp⟩
  | @cons d c rest more hc hm ih =>
    obtain ⟨hmap, hall⟩ := ih (mapM_eq_ok_iff.mpr hm)
    have hd := (definition_of_compileOne hc).1
    rw [List.map_cons, hmap, hd]
    exact ⟨rfl, List.forall_mem_cons.mpr ⟨by rwa [hd], hall⟩⟩

end Scorecard.Consolidation
