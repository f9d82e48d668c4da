import Scorecard.Dependency.Graph

/-! An order in which every name comes after all it depends on. The search goes
depth first, roots and precedents in ascending order, and places a name once all
its precedents are placed. Meeting a name that is still on the current path
closes a cycle. The path is kept explicitly, each name with the precedents it has
yet to visit, so that deep chains need no deep recursion. -/
namespace Scorecard.Dependency

/-- A name on the current path and its precedents yet to visit. -/
structure Visit where
  name : String
  waiting : List String

/-- A search under way; `path` and `order` hold the latest name first. -/
structure Search where
  roots : List String
  path : List Visit
  onPath : Names
  placed : Names
  order : List String

/-- Where one step leads. -/
inductive Progress where
  | going (s : Search)
  | ordered (names : List String)
  | cyclic (cycle : List String)

namespace Search

/-- Put a name on the path, with all its precedents to visit. -/
def enter (g : Graph) (s : Search) (name : String) : Search :=
  { s with path := ⟨name, g.precedentsOf name⟩ :: s.path, onPath := s.onPath.insert name }

/-- Take the latest name off the path and place it. -/
def place (s : Search) (name : String) (below : List Visit) : Search :=
  { s with
    path := below
    onPath := s.onPath.erase name
    placed := s.placed.insert name
    order := name :: s.order }

/-- The path from `name` on, each name followed by a precedent of it. -/
def cycleFrom (s : Search) (name : String) : List String :=
  (s.path.reverse.map Visit.name).dropWhile (· != name)

def step (g : Graph) (s : Search) : Progress :=
  match s.path with
  | [] =>
    match s.roots with
    | [] => .ordered s.order.reverse
    | root :: roots =>
      if s.placed.contains root then .going { s with roots }
      else .going ({ s with roots }.enter g root)
  | ⟨name, []⟩ :: below => .going (s.place name below)
  | ⟨name, next :: waiting⟩ :: below =>
    let s := { s with path := ⟨name, waiting⟩ :: below }
    if s.placed.contains next then .going s
    else if s.onPath.contains next then .cyclic (s.cycleFrom next)
    else .going (s.enter g next)

/-- Take up to `steps` steps; `none` if the search is still going after them. -/
def run (g : Graph) (s : Search) : (steps : Nat) → Option (Except (List String) (List String))
  | 0 => none
  | steps + 1 =>
    match s.step g with
    | .going s => s.run g steps
    | .ordered names => some (.ok names)
    | .cyclic cycle => some (.error cycle)

def start (g : Graph) : Search :=
  ⟨g.nameList, [], ∅, ∅, []⟩

end Search

namespace Graph

/-- Every name is a root once and placed once, and every edge is followed once;
one more step ends the search. -/
def searchBound (g : Graph) : Nat :=
  2 * g.nameList.length + g.edgeCount + 1

/-- Every name with its precedents before it, or the names of one cycle. -/
def evaluationOrder (g : Graph) : Except (List String) (List String) :=
  ((Search.start g).run g g.searchBound).getD (.ok [])

def findCycle? (g : Graph) : Option (List String) :=
  match g.evaluationOrder with
  | .ok _ => none
  | .error cycle => some cycle

end Graph

end Scorecard.Dependency
