import Scorecard.Proofs.Dependency.Changes
import Scorecard.Proofs.Dependency.Search

/-! What the evaluation order of a graph is. Where the names have an order with each
behind its precedents, going from a name to a precedent leads towards the front, so no
name depends on itself. A graph therefore has either an order or a cycle, and the search
comes to an order exactly when there is no cycle to be found. -/
namespace Scorecard.Dependency

namespace IsOrder

variable {g : Graph} {names : List String}

theorem idxOf_lt (h : IsOrder g names) {name precedent : String} (hn : name ∈ g.nameList)
    (hd : g.DependsOn name precedent) : names.idxOf precedent < names.idxOf name := by
  obtain ⟨before, after, he⟩ := List.append_of_mem (h.perm.mem_iff.mpr hn)
  have hnodup := h.nodup
  rw [he] at hnodup
  have hname : name ∉ before := fun hb =>
    (List.nodup_append.mp hnodup).2.2 name hb name List.mem_cons_self rfl
  rw [he]
  exact idxOf_lt_idxOf_append (h.precedents he precedent hd) hname after

theorem acyclic (h : IsOrder g names) (hc : g.Closed) : g.Acyclic := by
  have hlt {name precedent : String} (ht : Relation.TransGen g.DependsOn name precedent) :
      names.idxOf precedent < names.idxOf name := by
    induction ht with
    | single hd => exact h.idxOf_lt (hc _ _ hd).2 hd
    | tail _ hd ih => exact (h.idxOf_lt (hc _ _ hd).2 hd).trans ih
  exact fun name ht => Nat.lt_irrefl _ (hlt ht)

end IsOrder

/-- A graph has an evaluation order if and only if no name depends on itself. The order
has each name of the graph once, behind all that it depends on; failing that, the names
given are a cycle. -/
theorem evaluationOrder_after (changes : List Change) :
    let g := Graph.after changes
    ((∃ names, g.evaluationOrder = .ok names) ↔ g.Acyclic) ∧
      (∀ names, g.evaluationOrder = .ok names →
        names.Nodup ∧ (∀ name, name ∈ names ↔ name ∈ g.nameList) ∧
          ∀ name precedent, precedent ∈ g.precedentsOf name →
            names.idxOf precedent < names.idxOf name) ∧
      ∀ cycle, g.evaluationOrder = .error cycle → IsCycle g cycle := by
  intro g
  have hc : g.Closed := Graph.closed_after changes
  refine ⟨⟨?_, ?_⟩, ?_, ?_⟩
  · rintro ⟨names, h⟩
    exact (hc.isOrder h).acyclic hc
  · intro ha
    rcases hc.evaluationOrder_cases with ⟨names, h, -⟩ | ⟨cycle, -, hy⟩
    · exact ⟨names, h⟩
    · exact absurd ha hy.not_acyclic
  · intro names h
    have ho := hc.isOrder h
    exact ⟨ho.nodup, fun name => ho.perm.mem_iff,
      fun name precedent hp => ho.idxOf_lt (hc name precedent hp).2 hp⟩
  · exact fun cycle h => hc.isCycle h

/-- Clearing a name breaks the cycles through it. -/
example :
    (Graph.after [.addDependency "a" "b", .addDependency "b" "a"]).evaluationOrder =
        .error ["a", "b"] ∧
      (Graph.after [.addDependency "a" "b", .addDependency "b" "a", .clear "b"]).evaluationOrder =
        .ok ["a", "b"] := by
  decide +kernel

end Scorecard.Dependency
