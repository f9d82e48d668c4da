import Std.Data.TreeMap
import Std.Data.TreeSet

/-! Which names depend on which. An edge leads from a precedent to a dependent
and is kept at both ends, so either can be asked for its neighbours; all listings
are in ascending order of names. -/
namespace Scorecard.Dependency

abbrev Names := Std.TreeSet String

/-- The neighbours of every name that has some. -/
abbrev Neighbours := Std.TreeMap String Names

namespace Neighbours

def of (m : Neighbours) (name : String) : Names :=
  (m.get? name).getD ∅

def add (m : Neighbours) (name neighbour : String) : Neighbours :=
  Std.TreeMap.insert m name ((m.of name).insert neighbour)

def remove (m : Neighbours) (name neighbour : String) : Neighbours :=
  Std.TreeMap.insert m name ((m.of name).erase neighbour)

theorem mem_of_add (m : Neighbours) (name neighbour other x : String) :
    x ∈ (m.add name neighbour).of other ↔
      (name = other ∧ neighbour = x) ∨ x ∈ m.of other := by
  by_cases h : name = other
  · subst h
    simp [of, add, Std.TreeSet.mem_insert]
  · simp [of, add, Std.TreeMap.getElem?_insert, h]

theorem mem_of_remove (m : Neighbours) (name neighbour other x : String) :
    x ∈ (m.remove name neighbour).of other ↔
      ¬(name = other ∧ neighbour = x) ∧ x ∈ m.of other := by
  by_cases h : name = other
  · subst h
    simp [of, remove, Std.TreeSet.mem_erase]
  · simp [of, remove, Std.TreeMap.getElem?_insert, h]

end Neighbours

structure Graph where
  names : Names
  /-- What depends on a name. -/
  dependents : Neighbours
  /-- What a name depends on. -/
  precedents : Neighbours

namespace Graph

def empty : Graph := ⟨∅, ∅, ∅⟩

def addName (g : Graph) (name : String) : Graph :=
  { g with names := g.names.insert name }

/-- Let `dependent` depend on `precedent`. -/
def addDependency (g : Graph) (precedent dependent : String) : Graph where
  names := (g.names.insert precedent).insert dependent
  dependents := g.dependents.add precedent dependent
  precedents := g.precedents.add dependent precedent

/-- Remove every edge into and out of a name; the name itself stays. -/
def clear (g : Graph) (name : String) : Graph :=
  let forget (m : Neighbours) (neighbour : String) : Neighbours := m.remove neighbour name
  let dependents := (Neighbours.of g.precedents name).toList.foldl forget g.dependents
  let precedents := (Neighbours.of dependents name).toList.foldl forget (g.precedents.erase name)
  { g with dependents := dependents.erase name, precedents }

def dependentsOf (g : Graph) (name : String) : List String :=
  (Neighbours.of g.dependents name).toList

def precedentsOf (g : Graph) (name : String) : List String :=
  (Neighbours.of g.precedents name).toList

def nameList (g : Graph) : List String :=
  g.names.toList

/-- The number of edges. -/
def edgeCount (g : Graph) : Nat :=
  g.precedents.values.foldl (fun count names => count + names.size) 0

end Graph

end Scorecard.Dependency
