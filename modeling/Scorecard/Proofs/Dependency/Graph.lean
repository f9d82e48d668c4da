import Mathlib.Algebra.Order.BigOperators.Group.Finset
import Scorecard.Dependency.Graph

/-! Names and edges of a graph, read off its tables. A graph that grows by names and
dependencies is closed: its edges join names that it has. -/
namespace Scorecard.Dependency

theorem Names.mem_insert {names : Names} {name x : String} :
    x ∈ names.insert name ↔ x = name ∨ x ∈ names := by
  rw [Std.TreeSet.mem_insert, Std.LawfulEqOrd.compare_eq_iff_eq, eq_comm]

theorem Names.mem_erase {names : Names} {name x : String} :
    x ∈ names.erase name ↔ x ≠ name ∧ x ∈ names := by
  rw [Std.TreeSet.mem_erase, ne_eq, Std.LawfulEqOrd.compare_eq_iff_eq, eq_comm]

theorem Names.nodup_toList (names : Names) : names.toList.Nodup :=
  names.distinct_toList.imp Std.ReflCmp.ne_of_cmp_ne_eq

namespace Neighbours

/-- The neighbour sets in the order of the names they belong to. -/
theorem values_eq_map (m : Neighbours) : m.values = m.keys.map m.of := by
  have hv : m.values = m.toList.map Prod.snd := by
    have h : m.values = m.foldr (fun _ names rest => names :: rest) [] := rfl
    rw [h, Std.TreeMap.foldr_eq_foldr_toList, List.map_eq_foldr]
  rw [hv, ← Std.TreeMap.map_fst_toList_eq_keys, List.map_map]
  refine List.map_congr_left fun entry hentry => ?_
  have hget := Std.TreeMap.mem_toList_iff_getElem?_eq_some.mp hentry
  simp [of, hget]

theorem of_eq_empty {m : Neighbours} {name : String} (h : name ∉ m.keys) : m.of name = ∅ := by
  have hget : m[name]? = none :=
    Std.TreeMap.getElem?_eq_none fun hm => h (Std.TreeMap.mem_keys.mpr hm)
  simp [of, hget]

end Neighbours

namespace Graph

variable {g : Graph} {name precedent dependent x : String}

theorem mem_nameList : name ∈ g.nameList ↔ name ∈ g.names :=
  Std.TreeSet.mem_toList

theorem nodup_nameList (g : Graph) : g.nameList.Nodup :=
  g.names.nodup_toList

theorem mem_precedentsOf : x ∈ g.precedentsOf name ↔ x ∈ Neighbours.of g.precedents name :=
  Std.TreeSet.mem_toList

theorem mem_nameList_addName : x ∈ (g.addName name).nameList ↔ x = name ∨ x ∈ g.nameList := by
  rw [mem_nameList, mem_nameList, addName, Names.mem_insert]

theorem mem_nameList_addDependency :
    x ∈ (g.addDependency precedent dependent).nameList ↔
      x = dependent ∨ x = precedent ∨ x ∈ g.nameList := by
  rw [mem_nameList, mem_nameList, addDependency, Names.mem_insert, Names.mem_insert]

theorem mem_precedentsOf_addDependency :
    x ∈ (g.addDependency precedent dependent).precedentsOf name ↔
      (dependent = name ∧ precedent = x) ∨ x ∈ g.precedentsOf name := by
  simp only [mem_precedentsOf]
  exact Neighbours.mem_of_add g.precedents dependent precedent name x

/-- Every edge joins two names of the graph. -/
def Closed (g : Graph) : Prop :=
  ∀ name precedent, precedent ∈ g.precedentsOf name → precedent ∈ g.nameList ∧ name ∈ g.nameList

theorem closed_empty : empty.Closed := by
  intro name precedent h
  simp [mem_precedentsOf, Neighbours.of, empty] at h

theorem Closed.addName (h : g.Closed) (name : String) : (g.addName name).Closed := by
  intro n p hp
  obtain ⟨hpm, hnm⟩ := h n p hp
  exact ⟨mem_nameList_addName.mpr (.inr hpm), mem_nameList_addName.mpr (.inr hnm)⟩

theorem Closed.addDependency (h : g.Closed) (precedent dependent : String) :
    (g.addDependency precedent dependent).Closed := by
  intro n p hp
  rcases mem_precedentsOf_addDependency.mp hp with ⟨rfl, rfl⟩ | hp
  · exact ⟨mem_nameList_addDependency.mpr (.inr (.inl rfl)),
      mem_nameList_addDependency.mpr (.inl rfl)⟩
  · obtain ⟨hpm, hnm⟩ := h n p hp
    exact ⟨mem_nameList_addDependency.mpr (.inr (.inr hpm)),
      mem_nameList_addDependency.mpr (.inr (.inr hnm))⟩

/-- Let `dependent` depend on several names. -/
def addDependencies (g : Graph) (precedents : List String) (dependent : String) : Graph :=
  precedents.foldl (fun g precedent => g.addDependency precedent dependent) g

theorem Closed.addDependencies {precedents : List String} (h : g.Closed) (dependent : String) :
    (g.addDependencies precedents dependent).Closed := by
  induction precedents generalizing g with
  | nil => exact h
  | cons first rest ih => exact ih (h.addDependency first dependent)

theorem mem_precedentsOf_addDependencies {precedents : List String} :
    x ∈ (g.addDependencies precedents dependent).precedentsOf name ↔
      (dependent = name ∧ x ∈ precedents) ∨ x ∈ g.precedentsOf name := by
  induction precedents generalizing g with
  | nil => simp [addDependencies]
  | cons first rest ih =>
    have h := ih (g := g.addDependency first dependent)
    rw [mem_precedentsOf_addDependency] at h
    rw [addDependencies, List.foldl_cons, ← addDependencies, h, List.mem_cons]
    tauto

theorem mem_nameList_addDependencies {precedents : List String} (hd : dependent ∈ g.nameList) :
    x ∈ (g.addDependencies precedents dependent).nameList ↔
      x ∈ precedents ∨ x ∈ g.nameList := by
  induction precedents generalizing g with
  | nil => simp [addDependencies]
  | cons first rest ih =>
    have h := ih (g := g.addDependency first dependent) (mem_nameList_addDependency.mpr (.inl rfl))
    rw [mem_nameList_addDependency] at h
    rw [addDependencies, List.foldl_cons, ← addDependencies, h, List.mem_cons]
    have hx : x = dependent → x ∈ g.nameList := fun he => he ▸ hd
    tauto

/-- The edges into the names of a graph are among those it counts. -/
theorem length_flatMap_precedentsOf_le (g : Graph) :
    (g.nameList.flatMap g.precedentsOf).length ≤ g.edgeCount := by
  have hlength (name : String) :
      (g.precedentsOf name).length = (Neighbours.of g.precedents name).size :=
    Std.TreeSet.length_toList
  have hcount : g.edgeCount =
      (g.precedents.keys.map fun name => (g.precedentsOf name).length).sum := by
    rw [edgeCount, Neighbours.values_eq_map, List.foldl_map, List.sum_eq_foldl, List.foldl_map]
    simp only [hlength]
  rw [hcount, List.length_flatMap, ← List.sum_toFinset _ g.nodup_nameList,
    ← List.sum_toFinset _ Std.TreeMap.nodup_keys]
  refine Finset.sum_le_sum_of_ne_zero fun name _ hne => List.mem_toFinset.mpr ?_
  by_contra hkey
  rw [hlength, Neighbours.of_eq_empty hkey] at hne
  exact hne rfl

end Graph

end Scorecard.Dependency
