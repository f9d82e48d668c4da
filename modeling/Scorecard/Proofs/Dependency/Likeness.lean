import Scorecard.Proofs.Dependency.Search

/-! Graphs that are alike. The search for an order reads a graph through its listings, and
these are sorted, so graphs with the same names and the same dependencies have the same
order, in whichever way they came about. The bounds of the two searches are counted from
different tables, but each is enough, and more steps than are needed change nothing. -/
namespace Scorecard.Dependency

/-- Graphs that list the same names, and the same precedents under each name. -/
structure Graph.Alike (g other : Graph) : Prop where
  nameList : g.nameList = other.nameList
  precedentsOf : g.precedentsOf = other.precedentsOf

theorem Names.toList_eq {names other : Names} (h : ∀ name, name ∈ names ↔ name ∈ other) :
    names.toList = other.toList :=
  (Std.TreeSet.Equiv.of_forall_mem_iff h).toList_eq

/-- Membership is all that counts, since listings are sorted. -/
theorem Graph.alike_of_mem {g other : Graph}
    (hnames : ∀ name, name ∈ g.nameList ↔ name ∈ other.nameList)
    (hprecedents : ∀ name precedent,
      precedent ∈ g.precedentsOf name ↔ precedent ∈ other.precedentsOf name) : g.Alike other where
  nameList := Names.toList_eq fun name => by rw [← mem_nameList, hnames, mem_nameList]
  precedentsOf := funext fun name => Names.toList_eq fun precedent => by
    rw [← mem_precedentsOf, hprecedents, mem_precedentsOf]

namespace Search

variable {g other : Graph}

theorem step_congr (h : g.precedentsOf = other.precedentsOf) (s : Search) :
    s.step g = s.step other := by
  simp only [step, enter, h]

theorem run_congr (h : g.precedentsOf = other.precedentsOf) (s : Search) (steps : Nat) :
    s.run g steps = s.run other steps := by
  induction steps generalizing s with
  | zero => rfl
  | succ steps ih =>
    rw [run, run, step_congr h]
    cases s.step other with
    | going next => exact ih next
    | ordered names => rfl
    | cyclic cycle => rfl

/-- More steps than are needed make no difference. -/
theorem run_mono {s : Search} {steps more : Nat} {result : Except (List String) (List String)}
    (h : s.run g steps = some result) (hle : steps ≤ more) : s.run g more = some result := by
  induction steps generalizing s more with
  | zero => contradiction
  | succ steps ih =>
    obtain ⟨more, rfl⟩ := Nat.exists_eq_add_of_lt hle
    rw [run] at h ⊢
    cases hs : s.step g with
    | going next =>
      rw [hs] at h
      exact ih h (by omega)
    | ordered names =>
      rw [hs] at h
      exact h
    | cyclic cycle =>
      rw [hs] at h
      exact h

end Search

theorem Graph.Alike.cost_eq {g other : Graph} (h : g.Alike other) :
    Search.cost g g.nameList (Search.start g) =
      Search.cost other other.nameList (Search.start other) := by
  simp only [Search.cost, Search.start, h.nameList, h.precedentsOf]

/-- Graphs that are alike have the same order, or the same cycle. -/
theorem Graph.Alike.evaluationOrder_eq {g other : Graph} (h : g.Alike other) (hc : g.Closed) :
    g.evaluationOrder = other.evaluationOrder := by
  have hstart : Search.start g = Search.start other := by
    rw [Search.start, Search.start, h.nameList]
  -- Nothing is known of the two bounds, except that the search needs less than either.
  have hbound := Search.cost_start_lt g
  have hother : Search.cost g g.nameList (Search.start g) < other.searchBound :=
    h.cost_eq ▸ Search.cost_start_lt other
  obtain ⟨result, hr⟩ := (Search.sound_start g).exists_run hc (Nat.lt_succ_self _)
  rw [evaluationOrder, evaluationOrder, ← hstart, ← Search.run_congr h.precedentsOf,
    Search.run_mono hr hbound, Search.run_mono hr hother]

end Scorecard.Dependency
