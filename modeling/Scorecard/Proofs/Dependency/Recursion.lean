import Scorecard.Proofs.Dependency.Diagram
import Scorecard.Proofs.Dependency.Likeness

/-! The search for an order as a recursion. To visit a name is to visit its precedents and then
to place it; a name that is met on the path to itself closes a cycle. What the recursion comes
to from the middle of a search is read off its path: each name on it has its waiting precedents
to visit and is placed then, the latest first. No step of the search changes that, so the search
ends with what the recursion comes to. -/
namespace Scorecard.Dependency

namespace Graph

/-- The names with precedents that are not on a path. -/
def ahead (g : Graph) (path : List String) : List String :=
  g.precedents.keys.filter (· ∉ path)

theorem ahead_append (g : Graph) (path : List String) (name : String) :
    g.ahead (path ++ [name]) = (g.ahead path).filter (· != name) := by
  simp only [ahead, List.filter_filter]
  refine List.filter_congr fun n _ => ?_
  by_cases h : n = name <;> simp [h]

theorem mem_ahead {g : Graph} {path : List String} {name : String} (hn : name ∉ path)
    (hp : g.precedentsOf name ≠ []) : name ∈ g.ahead path := by
  refine List.mem_filter.mpr ⟨?_, by simpa using hn⟩
  by_contra hkey
  rw [precedentsOf, Neighbours.of_eq_empty hkey] at hp
  exact hp rfl

mutual

/-- Place a name behind its precedents, unless it is among the names placed before. The `path`
leads to the name from one that depends on it; if it has the name already, the names from there
on are a cycle. -/
def visit (g : Graph) (path placed : List String) (name : String) :
    Except (List String) (List String) :=
  if name ∈ placed then .ok placed
  else if name ∈ path then .error (path.dropWhile (· != name))
  else do
    let placed ← g.visitAll (path ++ [name]) placed (g.precedentsOf name)
    return placed ++ [name]
termination_by ((g.ahead path).length, 1)
decreasing_by
  have hle := List.length_filter_le (· != name) (g.ahead path)
  rw [ahead_append, Prod.lex_def]
  by_cases hp : g.precedentsOf name = []
  · rw [hp, List.length_nil]
    omega
  · refine .inl (List.length_filter_lt_length_iff_exists.mpr ⟨name, ?_, ?_⟩)
    · exact mem_ahead ‹name ∉ path› hp
    · simp

/-- Visit names one after the other. -/
def visitAll (g : Graph) (path placed : List String) :
    List String → Except (List String) (List String)
  | [] => .ok placed
  | name :: rest => do
    let placed ← g.visit path placed name
    g.visitAll path placed rest
termination_by names => ((g.ahead path).length, 2 * names.length)

end

/-- Visit all names of the graph. -/
def depthFirst (g : Graph) : Except (List String) (List String) :=
  g.visitAll [] [] g.nameList

section Visit
variable {g : Graph} {path placed : List String} {name : String}

theorem visit_of_placed (h : name ∈ placed) : g.visit path placed name = .ok placed := by
  rw [visit, if_pos h]

theorem visit_of_path (hp : name ∉ placed) (h : name ∈ path) :
    g.visit path placed name = .error (path.dropWhile (· != name)) := by
  rw [visit, if_neg hp, if_pos h]

theorem visit_of_fresh (hp : name ∉ placed) (h : name ∉ path) :
    g.visit path placed name =
      g.visitAll (path ++ [name]) placed (g.precedentsOf name) >>= fun placed =>
        pure (placed ++ [name]) := by
  rw [visit, if_neg hp, if_neg h]

theorem visitAll_nil : g.visitAll path placed [] = .ok placed := by
  rw [visitAll]

theorem visitAll_cons (rest : List String) :
    g.visitAll path placed (name :: rest) =
      g.visit path placed name >>= fun placed => g.visitAll path placed rest := by
  rw [visitAll]

end Visit

end Graph

open Dependency.Graph

namespace Search

/-- The names on a path, the first one first. -/
def trail (path : List Visit) : List String :=
  (path.map Visit.name).reverse

/-- What is left to the recursion when the names of a path are under way: each of them has its
waiting precedents to visit and is placed behind them. The roots come last. -/
def rest (g : Graph) (roots : List String) :
    (path : List Visit) → (placed : List String) → Except (List String) (List String)
  | [], placed => g.visitAll [] placed roots
  | ⟨name, waiting⟩ :: below, placed => do
    let placed ← g.visitAll (trail (⟨name, waiting⟩ :: below)) placed waiting
    rest g roots below (placed ++ [name])

variable {g : Graph} {roots placed : List String} {path below : List Visit} {name : String}

theorem rest_root (root : String) :
    rest g (root :: roots) [] placed = g.visit [] placed root >>= rest g roots [] :=
  visitAll_cons roots

theorem rest_waiting (next : String) (waiting : List String) :
    rest g roots (⟨name, next :: waiting⟩ :: below) placed =
      g.visit (trail (⟨name, waiting⟩ :: below)) placed next >>=
        rest g roots (⟨name, waiting⟩ :: below) := by
  rw [rest, visitAll_cons, bind_assoc]
  rfl

/-- To put a name on the path is to begin a visit of it. -/
theorem rest_enter (hp : name ∉ placed) (h : name ∉ trail path) :
    rest g roots (⟨name, g.precedentsOf name⟩ :: path) placed =
      g.visit (trail path) placed name >>= rest g roots path := by
  rw [visit_of_fresh hp h, rest, trail, List.map_cons, List.reverse_cons, bind_assoc]
  simp only [pure_bind]
  rfl

/-- To take a name off the path is to place it. -/
theorem rest_place :
    rest g roots (⟨name, []⟩ :: below) placed = rest g roots below (placed ++ [name]) := by
  rw [rest, visitAll_nil]
  rfl

/-- What the recursion comes to from where a search is. -/
def outcome (g : Graph) (s : Search) : Except (List String) (List String) :=
  rest g s.roots s.path s.order.reverse

end Search

/-- What the recursion comes to behind a step. -/
def Progress.outcome (g : Graph) : Progress → Except (List String) (List String)
  | .going s => s.outcome g
  | .ordered names => .ok names
  | .cyclic cycle => .error cycle

namespace Search

variable {g : Graph} {fresh : List String} {s : Search}

/-- No step changes what the recursion comes to. -/
theorem Sound.outcome_step (h : Sound g fresh none s) : (s.step g).outcome g = s.outcome g := by
  have hplaced (name : String) : name ∈ s.placed ↔ name ∈ s.order.reverse := by
    rw [h.mem_placed, List.mem_reverse]
  have honPath (name : String) : name ∈ s.onPath ↔ name ∈ trail s.path := by
    rw [h.mem_onPath, trail, List.mem_reverse]
  have hstep := step_spec g s
  generalize s.step g = progress at hstep
  cases hstep with
  | finish hp hr =>
    rw [outcome, hp, hr]
    exact visitAll_nil.symm
  | @skipRoot root roots hp hr hm =>
    rw [outcome, hp, hr, rest_root, visit_of_placed ((hplaced root).mp hm)]
    rfl
  | @enterRoot root roots hp hr hm =>
    have hfresh : root ∉ trail [] := List.not_mem_nil
    rw [outcome, hp, hr, rest_root]
    exact rest_enter (mt (hplaced root).mpr hm) hfresh
  | place hp =>
    rw [outcome, hp, rest_place, ← List.reverse_cons]
    rfl
  | @skip name precedent waiting below hp hm =>
    rw [outcome, hp, rest_waiting, visit_of_placed ((hplaced precedent).mp hm)]
    rfl
  | @enter name precedent waiting below hp hm hon =>
    have hfresh : precedent ∉ trail (⟨name, waiting⟩ :: below) := by
      rw [honPath, hp] at hon
      exact hon
    rw [outcome, hp, rest_waiting]
    exact rest_enter (mt (hplaced precedent).mpr hm) hfresh
  | @close name precedent waiting below hp hm hon =>
    have hmet : precedent ∈ trail (⟨name, waiting⟩ :: below) := by
      rw [honPath, hp] at hon
      exact hon
    rw [outcome, hp, rest_waiting, visit_of_path (mt (hplaced precedent).mpr hm) hmet, trail,
      ← List.map_reverse]
    rfl

/-- A search that ends has come to what the recursion comes to. -/
theorem Sound.outcome_eq (h : Sound g fresh none s) (hc : g.Closed) {steps : Nat}
    {result : Except (List String) (List String)} (hr : s.run g steps = some result) :
    s.outcome g = result := by
  induction steps generalizing fresh s with
  | zero => contradiction
  | succ steps ih =>
    rw [← h.outcome_step]
    rw [Search.run] at hr
    cases hs : s.step g with
    | going next =>
      rw [hs] at hr
      obtain ⟨rest, hrest, -⟩ := h.going hc hs
      exact ih hrest hr
    | ordered names =>
      rw [hs] at hr
      exact Option.some.inj hr
    | cyclic cycle =>
      rw [hs] at hr
      exact Option.some.inj hr

end Search

theorem Graph.Closed.evaluationOrder_eq {g : Graph} (hc : g.Closed) :
    g.evaluationOrder = g.depthFirst := by
  have hstart : (Search.start g).outcome g = g.depthFirst := rfl
  have hsound := Search.sound_start g
  obtain ⟨result, hr⟩ := hsound.exists_run hc (Search.cost_start_lt g)
  rw [evaluationOrder, hr, Option.getD_some, ← hstart, hsound.outcome_eq hc hr]

/-- The search ends with the order, or the cycle, that the recursion ends with, for which names
are taken in the order of their bytes. Nothing is seen of how a graph came about: where other
changes lead to the same names and the same edges, they lead to the same order or cycle. -/
theorem evaluationOrder_eq_depthFirst (changes : List Change) :
    let g := Graph.after changes
    g.evaluationOrder = g.depthFirst ∧
      Ascending g.nameList ∧ (∀ name, Ascending (g.precedentsOf name)) ∧
      ∀ others, (∀ name, name ∈ (Graph.after others).nameList ↔ name ∈ g.nameList) →
        (∀ name precedent, precedent ∈ (Graph.after others).precedentsOf name ↔
          precedent ∈ g.precedentsOf name) →
        (Graph.after others).evaluationOrder = g.evaluationOrder := by
  intro g
  refine ⟨(Graph.closed_after changes).evaluationOrder_eq, g.names.ascending_toList,
    fun _ => Names.ascending_toList _, fun others hnames hprecedents => ?_⟩
  exact (Graph.alike_of_mem hnames hprecedents).evaluationOrder_eq (Graph.closed_after others)

/-- Cleared edges leave no trace, neither where they were nor in when the rest was added. -/
example :
    (Graph.after [.addDependency "c" "b", .addDependency "a" "c", .clear "c",
      .addDependency "b" "a"]).evaluationOrder =
    (Graph.after [.addName "c", .addDependency "b" "a"]).evaluationOrder := by
  decide +kernel

end Scorecard.Dependency
