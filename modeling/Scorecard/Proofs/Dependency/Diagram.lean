import Mathlib.Data.Set.Insert
import Scorecard.Proofs.Dependency.Changes
import Scorecard.Proofs.Text.ByteOrder

/-! Graphs as names and edges. A graph keeps every edge at both of its ends, and each change
has to mend both tables. The diagram of a graph has every edge once; what a graph lists of
its names and neighbours is what its diagram has, whatever the changes were. -/
namespace Scorecard.Dependency

/-- Names, and edges from a precedent to a dependent. -/
structure Diagram where
  names : Set String
  edges : Set (String × String)

/-- The names that a change brings into a graph. -/
def Change.names : Change → List String
  | .addName name => [name]
  | .addDependency precedent dependent => [precedent, dependent]
  | .clear _ => []

namespace Diagram

def empty : Diagram := ⟨∅, ∅⟩

def change (d : Diagram) (c : Change) : Diagram where
  names := d.names ∪ {name | name ∈ c.names}
  edges :=
    match c with
    | .addName _ => d.edges
    | .addDependency precedent dependent => insert (precedent, dependent) d.edges
    | .clear name => {edge ∈ d.edges | edge.1 ≠ name ∧ edge.2 ≠ name}

/-- The diagram that changes make out of the empty one, the first change first. -/
def after (changes : List Change) : Diagram :=
  changes.foldl change empty

/-- A name that was brought in once stays. -/
theorem mem_names_after {changes : List Change} {name : String} :
    name ∈ (after changes).names ↔ ∃ c ∈ changes, name ∈ c.names := by
  suffices h : ∀ d : Diagram, name ∈ (changes.foldl change d).names ↔
      name ∈ d.names ∨ ∃ c ∈ changes, name ∈ c.names by
    rw [after, h empty]
    exact or_iff_right (Set.notMem_empty name)
  induction changes with
  | nil => simp
  | cons c rest ih =>
    intro d
    rw [List.foldl_cons, ih, List.exists_mem_cons_iff, ← or_assoc]
    rfl

end Diagram

namespace Graph

variable {g : Graph} {d : Diagram} {name other x precedent dependent : String}

theorem mem_dependentsOf : x ∈ g.dependentsOf name ↔ x ∈ Neighbours.of g.dependents name :=
  Std.TreeSet.mem_toList

theorem mem_dependentsOf_addDependency :
    x ∈ (g.addDependency precedent dependent).dependentsOf name ↔
      (precedent = name ∧ dependent = x) ∨ x ∈ g.dependentsOf name := by
  simp only [mem_dependentsOf]
  exact Neighbours.mem_of_add g.dependents precedent dependent name x

theorem mem_dependentsOf_clear :
    x ∈ (g.clear name).dependentsOf other ↔
      name ≠ other ∧ ¬ (other ∈ g.precedentsOf name ∧ name = x) ∧ x ∈ g.dependentsOf other := by
  simp only [mem_dependentsOf, mem_precedentsOf, clear, Neighbours.mem_of_erase,
    Neighbours.mem_of_foldl_remove, Std.TreeSet.mem_toList]

theorem mem_precedentsOf_clear :
    x ∈ (g.clear name).precedentsOf other ↔
      ¬ ((¬ (name ∈ g.precedentsOf name ∧ name = other) ∧ other ∈ g.dependentsOf name) ∧ name = x) ∧
        name ≠ other ∧ x ∈ g.precedentsOf other := by
  simp only [mem_dependentsOf, mem_precedentsOf, clear, Neighbours.mem_of_erase,
    Neighbours.mem_of_foldl_remove, Std.TreeSet.mem_toList]

/-- A graph lists the names and the edges of a diagram, the edges from either end. -/
structure Depicts (g : Graph) (d : Diagram) : Prop where
  names : ∀ name, name ∈ g.nameList ↔ name ∈ d.names
  dependents : ∀ precedent dependent,
    dependent ∈ g.dependentsOf precedent ↔ (precedent, dependent) ∈ d.edges
  precedents : ∀ precedent dependent,
    precedent ∈ g.precedentsOf dependent ↔ (precedent, dependent) ∈ d.edges

theorem depicts_empty : empty.Depicts .empty where
  names := by simp [nameList, empty, Diagram.empty]
  dependents := by simp [mem_dependentsOf, Neighbours.of, empty, Diagram.empty]
  precedents := by simp [mem_precedentsOf, Neighbours.of, empty, Diagram.empty]

theorem Depicts.addName (h : g.Depicts d) (name : String) :
    (g.addName name).Depicts (d.change (.addName name)) where
  names := by
    intro x
    rw [mem_nameList_addName, h.names]
    simp [Diagram.change, Change.names, or_comm]
  dependents := h.dependents
  precedents := h.precedents

theorem Depicts.addDependency (h : g.Depicts d) (precedent dependent : String) :
    (g.addDependency precedent dependent).Depicts
      (d.change (.addDependency precedent dependent)) where
  names := by
    intro x
    rw [mem_nameList_addDependency, h.names]
    simp only [Diagram.change, Change.names, Set.mem_union, Set.mem_ofPred_eq, List.mem_cons,
      List.not_mem_nil, or_false]
    tauto
  dependents := by
    intro p q
    rw [mem_dependentsOf_addDependency, h.dependents]
    simp only [Diagram.change, Set.mem_insert_iff, Prod.mk.injEq, eq_comm]
  precedents := by
    intro p q
    rw [mem_precedentsOf_addDependency, h.precedents]
    simp only [Diagram.change, Set.mem_insert_iff, Prod.mk.injEq, eq_comm, and_comm]

/-- The edges that are taken out of one table are found by way of the other. -/
theorem Depicts.clear (h : g.Depicts d) (name : String) :
    (g.clear name).Depicts (d.change (.clear name)) where
  names := by
    intro x
    show x ∈ g.nameList ↔ _
    rw [h.names]
    simp [Diagram.change, Change.names]
  dependents := by
    intro p q
    rw [mem_dependentsOf_clear, h.dependents, h.precedents]
    -- An edge into the cleared name is listed under its other end, which has to be among
    -- the precedents of that name.
    constructor
    · rintro ⟨hp, hq, hedge⟩
      refine ⟨hedge, hp.symm, ?_⟩
      rintro rfl
      exact hq ⟨hedge, rfl⟩
    · rintro ⟨hedge, hp, hq⟩
      exact ⟨hp.symm, fun hn => hq hn.2.symm, hedge⟩
  precedents := by
    intro p q
    rw [mem_precedentsOf_clear, h.precedents, h.precedents, h.dependents]
    constructor
    · rintro ⟨hp, hq, hedge⟩
      refine ⟨hedge, ?_, hq.symm⟩
      rintro rfl
      exact hp ⟨⟨fun hn => hq hn.2, hedge⟩, rfl⟩
    · rintro ⟨hedge, hp, hq⟩
      exact ⟨fun hn => hp hn.2.symm, hq.symm, hedge⟩

theorem Depicts.change (h : g.Depicts d) : (c : Change) → (g.change c).Depicts (d.change c)
  | .addName name => h.addName name
  | .addDependency precedent dependent => h.addDependency precedent dependent
  | .clear name => h.clear name

theorem depicts_after (changes : List Change) : (after changes).Depicts (.after changes) := by
  suffices h : ∀ (g : Graph) (d : Diagram), g.Depicts d →
      (changes.foldl Graph.change g).Depicts (changes.foldl Diagram.change d) from
    h empty .empty depicts_empty
  induction changes with
  | nil => exact fun _ _ h => h
  | cons c rest ih => exact fun g d h => ih (g.change c) (d.change c) (h.change c)

end Graph

/-! ### Listings -/

/-- Every name comes once, in the order of the bytes. -/
def Ascending (names : List String) : Prop :=
  names.Nodup ∧ names.Pairwise fun first later => Text.bytes first < Text.bytes later

theorem Names.ascending_toList (names : Names) : Ascending names.toList := by
  have hlt : names.toList.Pairwise fun first later => compare first later = .lt :=
    names.ordered_toList
  exact ⟨names.nodup_toList,
    hlt.imp fun h => Text.bytes_lt (Text.compare_eq_lt_iff.mp h)⟩

/-- After any changes a graph has the names that were ever brought in, and the edges that
were added and not cleared away since. It lists them from either end, without repeats and
in the order of the bytes. -/
theorem after_depicts (changes : List Change) :
    let g := Graph.after changes
    g.Depicts (.after changes) ∧
      (∀ name, name ∈ g.nameList ↔ ∃ c ∈ changes, name ∈ c.names) ∧
      (∀ precedent dependent, dependent ∈ g.dependentsOf precedent →
        precedent ∈ g.nameList ∧ dependent ∈ g.nameList) ∧
      (∀ precedent dependent,
        dependent ∈ g.dependentsOf precedent ↔ precedent ∈ g.precedentsOf dependent) ∧
      Ascending g.nameList ∧
      ∀ name, Ascending (g.dependentsOf name) ∧ Ascending (g.precedentsOf name) := by
  intro g
  have hg : g.Depicts (.after changes) := Graph.depicts_after changes
  have hends (precedent dependent : String) :
      dependent ∈ g.dependentsOf precedent ↔ precedent ∈ g.precedentsOf dependent := by
    rw [hg.dependents, hg.precedents]
  refine ⟨hg, fun name => ?_, fun precedent dependent h => ?_, hends, g.names.ascending_toList,
    fun name => ⟨Names.ascending_toList _, Names.ascending_toList _⟩⟩
  · rw [hg.names, Diagram.mem_names_after]
  · exact Graph.closed_after changes dependent precedent ((hends precedent dependent).mp h)

/-- A loop and an edge back are cleared with the rest; other names keep theirs. -/
example :
    let g := Graph.after [.addDependency "a" "a", .addDependency "a" "b", .addDependency "b" "a",
      .addDependency "c" "b", .clear "a"]
    g.nameList = ["a", "b", "c"] ∧ g.precedentsOf "b" = ["c"] ∧ g.dependentsOf "b" = [] := by
  decide +kernel

end Scorecard.Dependency
