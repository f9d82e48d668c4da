import Mathlib.Data.List.Chain
import Mathlib.Logic.Relation
import Scorecard.Proofs.Dependency.Graph

/-! Cycles of a graph. A walk goes from each name to one that it depends on. Where it
comes back to a name, the names from there on are a cycle, and a graph that has a cycle
has a name that depends on itself. -/
namespace Scorecard.Dependency

namespace Graph

/-- An edge of the graph, from the side of the dependent. -/
def DependsOn (g : Graph) (name precedent : String) : Prop :=
  precedent ∈ g.precedentsOf name

/-- No name depends on itself, neither directly nor through others. -/
def Acyclic (g : Graph) : Prop :=
  ∀ name, ¬ Relation.TransGen g.DependsOn name name

end Graph

/-- Distinct names of the graph, each of which depends on the next, and the last one on
the first. -/
structure IsCycle (g : Graph) (cycle : List String) : Prop where
  ne_nil : cycle ≠ []
  nodup : cycle.Nodup
  mem_nameList : ∀ name ∈ cycle, name ∈ g.nameList
  follows : cycle.IsChain g.DependsOn
  closes : ∀ last ∈ cycle.getLast?, ∀ first ∈ cycle.head?, g.DependsOn last first

variable {g : Graph}

theorem transGen_of_isChain {first last : String} {between : List String}
    (h : (first :: between ++ [last]).IsChain g.DependsOn) :
    Relation.TransGen g.DependsOn first last := by
  induction between generalizing first with
  | nil => exact .single (List.isChain_cons_cons.mp h).1
  | cons next rest ih =>
    obtain ⟨hfirst, hrest⟩ := List.isChain_cons_cons.mp h
    exact .head hfirst (ih hrest)

theorem IsCycle.not_acyclic {cycle : List String} (h : IsCycle g cycle) : ¬ g.Acyclic := by
  intro ha
  match cycle, h with
  | [], h => exact h.ne_nil rfl
  | first :: rest, h =>
    have hc : (first :: rest ++ [first]).IsChain g.DependsOn := by
      refine List.isChain_append.mpr ⟨h.follows, List.isChain_singleton first, ?_⟩
      intro last hl next hn
      obtain rfl : first = next := Option.some.inj hn
      exact h.closes last hl first rfl
    exact ha first (transGen_of_isChain hc)

/-- A walk over distinct names that goes on to one of them goes round in a cycle. -/
theorem isCycle_dropWhile {walk : List String} {next : String} (hn : walk.Nodup)
    (hm : ∀ name ∈ walk, name ∈ g.nameList) (hc : (walk ++ [next]).IsChain g.DependsOn)
    (h : next ∈ walk) : IsCycle g (walk.dropWhile (· != next)) := by
  obtain ⟨before, after, rfl⟩ := List.append_of_mem h
  have hb : next ∉ before := fun hb =>
    (List.nodup_append.mp hn).2.2 next hb next List.mem_cons_self rfl
  have hne : ∀ name ∈ before, (name != next) = true := by
    intro name hname
    refine bne_iff_ne.mpr ?_
    rintro rfl
    exact hb hname
  have hd : (before ++ next :: after).dropWhile (· != next) = next :: after := by
    rw [List.dropWhile_append_of_pos hne]
    exact List.dropWhile_cons_of_neg (by simp)
  rw [List.append_assoc] at hc
  obtain ⟨hfollows, -, hcloses⟩ := List.isChain_append.mp (hc.suffix (List.suffix_append ..))
  rw [hd]
  exact {
    ne_nil := List.cons_ne_nil _ _
    nodup := (List.nodup_append.mp hn).2.1
    mem_nameList := fun name hname => hm name (List.mem_append_right _ hname)
    follows := hfollows
    closes := hcloses }

end Scorecard.Dependency
