import Scorecard.Proofs.Dependency.Graph

/-! Graphs as they come about: from the empty graph by adding names, adding dependencies
and clearing names, in any order. Whatever the changes, the edges of the graph join names
that it has. -/
namespace Scorecard.Dependency

namespace Neighbours

theorem mem_of_erase {m : Neighbours} {name other x : String} :
    x ∈ of (m.erase name) other ↔ name ≠ other ∧ x ∈ m.of other := by
  by_cases h : name = other
  · subst h
    simp [of]
  · simp [of, Std.TreeMap.getElem?_erase, h]

/-- Forgetting a name as a neighbour of several others leaves all else in place. -/
theorem mem_of_foldl_remove {m : Neighbours} {names : List String} {name other x : String} :
    x ∈ (names.foldl (fun m neighbour => m.remove neighbour name) m).of other ↔
      ¬(other ∈ names ∧ name = x) ∧ x ∈ m.of other := by
  induction names generalizing m with
  | nil => simp
  | cons first rest ih =>
    rw [List.foldl_cons, ih, mem_of_remove, List.mem_cons]
    tauto

end Neighbours

/-- A change to a graph. -/
inductive Change where
  | addName (name : String)
  | addDependency (precedent dependent : String)
  /-- Remove the edges into and out of a name. -/
  | clear (name : String)
  deriving DecidableEq, Repr

namespace Graph

def change (g : Graph) : Change → Graph
  | .addName name => g.addName name
  | .addDependency precedent dependent => g.addDependency precedent dependent
  | .clear name => g.clear name

/-- The graph that changes make out of the empty one, the first change first. -/
def after (changes : List Change) : Graph :=
  changes.foldl change empty

theorem mem_precedentsOf_of_clear {g : Graph} {cleared name x : String}
    (h : x ∈ (g.clear cleared).precedentsOf name) : x ∈ g.precedentsOf name := by
  rw [mem_precedentsOf, clear, Neighbours.mem_of_foldl_remove, Neighbours.mem_of_erase] at h
  exact mem_precedentsOf.mpr h.2.2

theorem Closed.clear {g : Graph} (h : g.Closed) (name : String) : (g.clear name).Closed :=
  fun dependent precedent hp => h dependent precedent (mem_precedentsOf_of_clear hp)

theorem Closed.change {g : Graph} (h : g.Closed) : (c : Change) → (g.change c).Closed
  | .addName name => h.addName name
  | .addDependency precedent dependent => h.addDependency precedent dependent
  | .clear name => h.clear name

theorem closed_after (changes : List Change) : (after changes).Closed := by
  suffices h : ∀ g : Graph, g.Closed → (changes.foldl Graph.change g).Closed from
    h empty closed_empty
  induction changes with
  | nil => exact fun g hg => hg
  | cons c rest ih => exact fun g hg => ih (g.change c) (hg.change c)

end Graph

end Scorecard.Dependency
