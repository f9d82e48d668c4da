import Scorecard.Dependency.Order
import Scorecard.Proofs.Dependency.Cycle

/-! The search for an order. At any time each name of the graph is placed, on the path,
or fresh, and the names on the path have gone through their precedents in turn up to the
name above. Each step uses up a root, a precedent to follow or a name to place, so the
search ends within its bound. It ends with an order, or with a precedent that is still on
the path, which closes a cycle. -/
namespace Scorecard.Dependency

/-- Each name of a list, the latest first, has its precedents before it. -/
def Ordered (g : Graph) (order : List String) : Prop :=
  ∀ later name earlier, order = later ++ name :: earlier →
    ∀ precedent ∈ g.precedentsOf name, precedent ∈ earlier

theorem Ordered.cons {g : Graph} {order : List String} {name : String} (h : Ordered g order)
    (hn : ∀ precedent ∈ g.precedentsOf name, precedent ∈ order) : Ordered g (name :: order) := by
  intro later n earlier he
  rcases List.cons_eq_append_iff.mp he with ⟨-, ho⟩ | ⟨more, -, ho⟩
  · obtain ⟨rfl, rfl⟩ := List.cons.inj ho
    exact hn
  · exact h more n earlier ho

theorem idxOf_lt_idxOf_append {name earlier : String} {before : List String}
    (he : earlier ∈ before) (hn : name ∉ before) (after : List String) :
    (before ++ name :: after).idxOf earlier < (before ++ name :: after).idxOf name := by
  rw [List.idxOf_append_of_mem he, List.idxOf_append_of_notMem hn, List.idxOf_cons_self,
    Nat.add_zero]
  exact List.idxOf_lt_length_iff.mpr he

/-- The names of the graph in an order in which each comes after its precedents. -/
structure IsOrder (g : Graph) (names : List String) : Prop where
  perm : names.Perm g.nameList
  precedents {before after : List String} {name : String} : names = before ++ name :: after →
    ∀ precedent ∈ g.precedentsOf name, precedent ∈ before

theorem IsOrder.nodup {g : Graph} {names : List String} (h : IsOrder g names) : names.Nodup :=
  h.perm.nodup_iff.mpr g.nodup_nameList

namespace Search

/-- The steps of a search, by what stands first. -/
inductive Step (g : Graph) : Search → Progress → Prop
  | finish {s} : s.path = [] → s.roots = [] → Step g s (.ordered s.order.reverse)
  | skipRoot {s root roots} : s.path = [] → s.roots = root :: roots → root ∈ s.placed →
    Step g s (.going { s with roots })
  | enterRoot {s root roots} : s.path = [] → s.roots = root :: roots → root ∉ s.placed →
    Step g s (.going ({ s with roots }.enter g root))
  | place {s name below} : s.path = ⟨name, []⟩ :: below → Step g s (.going (s.place name below))
  | skip {s name precedent waiting below} : s.path = ⟨name, precedent :: waiting⟩ :: below →
    precedent ∈ s.placed → Step g s (.going { s with path := ⟨name, waiting⟩ :: below })
  | enter {s name precedent waiting below} : s.path = ⟨name, precedent :: waiting⟩ :: below →
    precedent ∉ s.placed → precedent ∉ s.onPath →
    Step g s (.going ({ s with path := ⟨name, waiting⟩ :: below }.enter g precedent))
  | close {s name precedent waiting below} : s.path = ⟨name, precedent :: waiting⟩ :: below →
    precedent ∉ s.placed → precedent ∈ s.onPath →
    Step g s (.cyclic ({ s with path := ⟨name, waiting⟩ :: below }.cycleFrom precedent))

theorem step_spec (g : Graph) (s : Search) : Step g s (s.step g) := by
  obtain ⟨roots, path, onPath, placed, order⟩ := s
  match path, roots with
  | [], [] => exact .finish rfl rfl
  | [], root :: roots =>
    simp only [Search.step]
    split
    case isTrue hp => exact .skipRoot rfl rfl hp
    case isFalse hp => exact .enterRoot rfl rfl hp
  | ⟨name, []⟩ :: below, roots => exact .place rfl
  | ⟨name, precedent :: waiting⟩ :: below, roots =>
    simp only [Search.step]
    split
    case isTrue hp => exact .skip rfl hp
    case isFalse hp =>
      split
      case isTrue hon => exact .close rfl hp hon
      case isFalse hon => exact .enter rfl hp hon

variable {g : Graph} {fresh : List String} {s : Search}

/-- What the names of a path have done so far: their precedents are those already
placed, then the name above on the path, if there is one, then those that wait. -/
def Followed (g : Graph) (order : List String) : (above : Option String) → List Visit → Prop
  | _, [] => True
  | above, visit :: below =>
    (∃ done, g.precedentsOf visit.name = done ++ above.toList ++ visit.waiting ∧
      ∀ precedent ∈ done, precedent ∈ order) ∧
    Followed g order (some visit.name) below

theorem Followed.mono {order more : List String} (hm : ∀ name ∈ order, name ∈ more)
    {above : Option String} {path : List Visit} (h : Followed g order above path) :
    Followed g more above path := by
  induction path generalizing above with
  | nil => trivial
  | cons visit below ih =>
    obtain ⟨⟨done, heq, hd⟩, hb⟩ := h
    exact ⟨⟨done, heq, fun p hp => hm p (hd p hp)⟩, ih hb⟩

theorem Followed.settle {order : List String} {name : String} {path : List Visit}
    (h : Followed g order (some name) path) (hn : name ∈ order) : Followed g order none path := by
  cases path with
  | nil => trivial
  | cons visit below =>
    obtain ⟨⟨done, heq, hd⟩, hb⟩ := h
    refine ⟨⟨done ++ [name], by simpa using heq, fun p hp => ?_⟩, hb⟩
    rcases List.mem_append.mp hp with hp | hp
    · exact hd p hp
    · rwa [List.mem_singleton.mp hp]

/-- Each name on a path depends on the name above it. -/
theorem Followed.isChain {order : List String} {above : Option String} {path : List Visit}
    (h : Followed g order above path) :
    (above.toList ++ path.map Visit.name).IsChain
      fun precedent name => g.DependsOn name precedent := by
  induction path generalizing above with
  | nil =>
    cases above with
    | none => exact .nil
    | some name => exact .singleton name
  | cons visit below ih =>
    obtain ⟨⟨done, heq, -⟩, hb⟩ := h
    cases above with
    | none => exact ih hb
    | some name =>
      refine .cons_cons ?_ (ih hb)
      rw [Graph.DependsOn, heq]
      simp

/-- What holds of a search at any time. The `fresh` names are those not yet met, and
`above` is the name that the path is about to take on, if it is. -/
structure Sound (g : Graph) (fresh : List String) (above : Option String) (s : Search) :
    Prop where
  mem_placed (name : String) : name ∈ s.placed ↔ name ∈ s.order
  mem_onPath (name : String) : name ∈ s.onPath ↔ name ∈ s.path.map Visit.name
  names : (s.order ++ s.path.map Visit.name ++ fresh).Perm g.nameList
  roots : ∀ name ∈ s.roots, name ∈ g.nameList
  fresh_roots : ∀ name ∈ fresh, name ∈ s.roots ∨ above = some name
  ordered : Ordered g s.order
  followed : Followed g s.order above s.path

/-- The steps still to come, but for the last one: roots to take, names to place and
precedents to follow. -/
def cost (g : Graph) (fresh : List String) (s : Search) : Nat :=
  s.roots.length + s.path.length + (s.path.flatMap Visit.waiting).length + fresh.length +
    (fresh.flatMap g.precedentsOf).length

theorem Sound.nodup {above : Option String} (h : Sound g fresh above s) :
    (s.order ++ s.path.map Visit.name ++ fresh).Nodup :=
  h.names.nodup_iff.mpr g.nodup_nameList

theorem Sound.perm {above : Option String} {other : List String} (h : Sound g fresh above s)
    (hp : fresh.Perm other) : Sound g other above s where
  mem_placed := h.mem_placed
  mem_onPath := h.mem_onPath
  names := (hp.symm.append_left _).trans h.names
  roots := h.roots
  fresh_roots name hn := h.fresh_roots name (hp.mem_iff.mpr hn)
  ordered := h.ordered
  followed := h.followed

theorem cost_perm {other : List String} (hp : fresh.Perm other) :
    cost g fresh s = cost g other s := by
  unfold cost
  rw [hp.length_eq, (hp.flatMap_right _).length_eq]

/-- A name of the graph that is neither placed nor on the path is fresh. -/
theorem Sound.mem_fresh {above : Option String} {name : String} (h : Sound g fresh above s)
    (hn : name ∈ g.nameList) (hp : name ∉ s.placed) (hs : name ∉ s.onPath) : name ∈ fresh := by
  rw [h.mem_placed] at hp
  rw [h.mem_onPath] at hs
  have hm := h.names.mem_iff.mpr hn
  rw [List.mem_append, List.mem_append] at hm
  tauto

/-- The next root is met. -/
theorem Sound.root {root : String} {roots : List String} (h : Sound g fresh none s)
    (hp : s.path = []) (hr : s.roots = root :: roots) :
    Sound g fresh (some root) { s with roots } where
  mem_placed := h.mem_placed
  mem_onPath := h.mem_onPath
  names := h.names
  roots n hn := h.roots n (hr ▸ List.mem_cons_of_mem root hn)
  fresh_roots n hn := by
    rcases h.fresh_roots n hn with hm | ha
    · rw [hr, List.mem_cons] at hm
      rcases hm with rfl | hm
      · exact .inr rfl
      · exact .inl hm
    · contradiction
  ordered := h.ordered
  followed := hp ▸ trivial

/-- The latest name on the path meets its next precedent. -/
theorem Sound.follow {name next : String} {waiting : List String} {below : List Visit}
    (h : Sound g fresh none s) (hp : s.path = ⟨name, next :: waiting⟩ :: below) :
    Sound g fresh (some next) { s with path := ⟨name, waiting⟩ :: below } where
  mem_placed := h.mem_placed
  mem_onPath n := by simpa [hp] using h.mem_onPath n
  names := by simpa [hp] using h.names
  roots := h.roots
  fresh_roots n hn := (h.fresh_roots n hn).imp_right fun ha => by contradiction
  ordered := h.ordered
  followed := by
    have hf := h.followed
    rw [hp] at hf
    obtain ⟨⟨done, heq, hd⟩, hb⟩ := hf
    exact ⟨⟨done, by simpa using heq, hd⟩, hb⟩

/-- A name that is placed needs no more than being met. -/
theorem Sound.skip {name : String} (h : Sound g fresh (some name) s) (hn : name ∈ s.placed) :
    Sound g fresh none s where
  mem_placed := h.mem_placed
  mem_onPath := h.mem_onPath
  names := h.names
  roots := h.roots
  fresh_roots n hf := by
    refine .inl ((h.fresh_roots n hf).resolve_right fun ha => ?_)
    obtain rfl : name = n := Option.some.inj ha
    have ho := List.mem_append_left (s.path.map Visit.name) ((h.mem_placed name).mp hn)
    exact (List.nodup_append.mp h.nodup).2.2 name ho name hf rfl
  ordered := h.ordered
  followed := h.followed.settle ((h.mem_placed name).mp hn)

theorem Sound.enter {name : String} (h : Sound g (name :: fresh) (some name) s) :
    Sound g fresh none (s.enter g name) where
  mem_placed := h.mem_placed
  mem_onPath n := by
    simp only [Search.enter, Names.mem_insert, h.mem_onPath, List.map_cons, List.mem_cons]
  names := by
    refine List.Perm.trans ?_ h.names
    rw [List.append_assoc, List.append_assoc]
    exact List.perm_middle.symm.append_left s.order
  roots := h.roots
  fresh_roots n hn := by
    refine .inl ((h.fresh_roots n (List.mem_cons_of_mem _ hn)).resolve_right fun ha => ?_)
    obtain rfl : name = n := Option.some.inj ha
    exact (List.nodup_cons.mp (List.nodup_append.mp h.nodup).2.1).1 hn
  ordered := h.ordered
  followed := ⟨⟨[], by simp, by simp⟩, h.followed⟩

theorem cost_enter (name : String) :
    cost g fresh (s.enter g name) = cost g (name :: fresh) s := by
  simp only [cost, Search.enter, List.length_cons, List.flatMap_cons, List.length_append]
  omega

/-- The latest name on the path has gone through its precedents. -/
theorem Sound.place {name : String} {below : List Visit} (h : Sound g fresh none s)
    (hp : s.path = ⟨name, []⟩ :: below) : Sound g fresh none (s.place name below) := by
  have hnames := h.names
  have hnodup := h.nodup
  have hon := h.mem_onPath
  have hf := h.followed
  rw [hp] at hnames hnodup hon hf
  obtain ⟨⟨done, heq, hd⟩, hb⟩ := hf
  have hn : name ∉ below.map Visit.name :=
    (List.nodup_cons.mp (List.nodup_append.mp (List.nodup_append.mp hnodup).1).2.1).1
  exact {
    mem_placed := by
      intro n
      simp only [Search.place, Names.mem_insert, h.mem_placed, List.mem_cons]
    mem_onPath := by
      intro n
      simp only [Search.place, Names.mem_erase, hon, List.map_cons, List.mem_cons]
      constructor
      · rintro ⟨hne, hm⟩
        exact hm.resolve_left hne
      · intro hm
        exact ⟨fun he => hn (he ▸ hm), .inr hm⟩
    names := (List.perm_middle.symm.append_right fresh).trans hnames
    roots := h.roots
    fresh_roots := h.fresh_roots
    ordered := h.ordered.cons fun p hp => hd p (by simpa [heq] using hp)
    followed := (hb.mono fun _ => List.mem_cons_of_mem name).settle List.mem_cons_self }

/-- A name that is met is entered if it is fresh. -/
theorem Sound.meet {name : String} (h : Sound g fresh (some name) s) (hn : name ∈ g.nameList)
    (hp : name ∉ s.placed) (hs : name ∉ s.onPath) :
    ∃ rest, Sound g rest none (s.enter g name) ∧ cost g rest (s.enter g name) = cost g fresh s := by
  have hperm := List.perm_cons_erase (h.mem_fresh hn hp hs)
  refine ⟨fresh.erase name, (h.perm hperm).enter, ?_⟩
  rw [cost_enter, cost_perm hperm]

theorem cost_root {root : String} {roots : List String} (hr : s.roots = root :: roots) :
    cost g fresh { s with roots } + 1 = cost g fresh s := by
  simp only [cost, hr, List.length_cons]
  omega

theorem cost_follow {name precedent : String} {waiting : List String} {below : List Visit}
    (hp : s.path = ⟨name, precedent :: waiting⟩ :: below) :
    cost g fresh { s with path := ⟨name, waiting⟩ :: below } + 1 = cost g fresh s := by
  simp only [cost, hp, List.length_cons, List.flatMap_cons, List.length_append]
  omega

theorem cost_place {name : String} {below : List Visit} (hp : s.path = ⟨name, []⟩ :: below) :
    cost g fresh (s.place name below) + 1 = cost g fresh s := by
  simp only [cost, hp, Search.place, List.length_cons, List.flatMap_cons, List.nil_append]
  omega

theorem Sound.waiting_mem {name precedent : String} {waiting : List String} {below : List Visit}
    (h : Sound g fresh none s) (hp : s.path = ⟨name, precedent :: waiting⟩ :: below) :
    precedent ∈ g.precedentsOf name := by
  have hf := h.followed
  rw [hp] at hf
  obtain ⟨⟨done, heq, -⟩, -⟩ := hf
  rw [heq]
  exact List.mem_append_right _ List.mem_cons_self

/-- Each step that does not end the search brings the end one step nearer. -/
theorem Sound.going {next : Search} (h : Sound g fresh none s) (hc : g.Closed)
    (hs : s.step g = .going next) :
    ∃ rest, Sound g rest none next ∧ cost g rest next + 1 = cost g fresh s := by
  have hstep := step_spec g s
  rw [hs] at hstep
  cases hstep with
  | skipRoot hp hr hm => exact ⟨fresh, (h.root hp hr).skip hm, cost_root hr⟩
  | @enterRoot root roots hp hr hm =>
    have hon : root ∉ s.onPath := by
      rw [h.mem_onPath, hp]
      exact List.not_mem_nil
    obtain ⟨rest, hrest, hcost⟩ :=
      (h.root hp hr).meet (h.roots root (hr ▸ List.mem_cons_self)) hm hon
    exact ⟨rest, hrest, by rw [hcost, cost_root hr]⟩
  | place hp => exact ⟨fresh, h.place hp, cost_place hp⟩
  | skip hp hm => exact ⟨fresh, (h.follow hp).skip hm, cost_follow hp⟩
  | enter hp hm hon =>
    have hname := (hc _ _ (h.waiting_mem hp)).1
    obtain ⟨rest, hrest, hcost⟩ := (h.follow hp).meet hname hm hon
    exact ⟨rest, hrest, by rw [hcost, cost_follow hp]⟩

/-- When there is no root left, every name is placed. -/
theorem Sound.isOrder {names : List String} (h : Sound g fresh none s)
    (hs : s.step g = .ordered names) : IsOrder g names := by
  have hstep := step_spec g s
  rw [hs] at hstep
  cases hstep with
  | finish hp hr =>
    have hfresh : fresh = [] := by
      refine List.eq_nil_iff_forall_not_mem.mpr fun n hn => ?_
      rcases h.fresh_roots n hn with hm | ha
      · rw [hr] at hm
        exact List.not_mem_nil hm
      · contradiction
    have hnames := h.names
    rw [hfresh, hp, List.map_nil, List.append_nil, List.append_nil] at hnames
    refine ⟨(List.reverse_perm s.order).trans hnames, ?_⟩
    intro before after name he p hprec
    have ho : s.order = after.reverse ++ name :: before.reverse := by
      rw [← List.reverse_reverse s.order, he]
      simp
    exact List.mem_reverse.mp (h.ordered _ _ _ ho p hprec)

/-- Meeting a name that is on the path closes a cycle. -/
theorem Sound.isCycle_cycleFrom {next : String} (h : Sound g fresh (some next) s)
    (hn : next ∈ s.onPath) : IsCycle g (s.cycleFrom next) := by
  have hnames := (List.nodup_append.mp (List.nodup_append.mp h.nodup).1).2.1
  rw [cycleFrom, List.map_reverse]
  refine isCycle_dropWhile (List.nodup_reverse.mpr hnames) ?_ ?_ ?_
  · intro name hname
    have hpath := List.mem_append_right s.order (List.mem_reverse.mp hname)
    exact h.names.mem_iff.mp (List.mem_append_left _ hpath)
  · rw [← List.reverse_cons, List.isChain_reverse]
    exact h.followed.isChain
  · exact List.mem_reverse.mpr ((h.mem_onPath next).mp hn)

theorem Sound.isCycle {cycle : List String} (h : Sound g fresh none s)
    (hs : s.step g = .cyclic cycle) : IsCycle g cycle := by
  have hstep := step_spec g s
  rw [hs] at hstep
  cases hstep with
  | close hp _ hon => exact (h.follow hp).isCycle_cycleFrom hon

/-- A search that has steps enough comes to an order or to a cycle. -/
theorem Sound.run (h : Sound g fresh none s) (hc : g.Closed) {steps : Nat}
    (hcost : cost g fresh s < steps) :
    (∃ names, s.run g steps = some (.ok names) ∧ IsOrder g names) ∨
      ∃ cycle, s.run g steps = some (.error cycle) ∧ IsCycle g cycle := by
  induction steps generalizing fresh s with
  | zero => contradiction
  | succ steps ih =>
    rw [Search.run]
    cases hs : s.step g with
    | going next =>
      obtain ⟨rest, hrest, hcr⟩ := h.going hc hs
      exact ih hrest (by omega)
    | ordered names => exact .inl ⟨names, rfl, h.isOrder hs⟩
    | cyclic cycle => exact .inr ⟨cycle, rfl, h.isCycle hs⟩

/-- With steps enough a search ends. -/
theorem Sound.exists_run {g : Graph} {fresh : List String} {s : Search} (h : Sound g fresh none s)
    (hc : g.Closed) {steps : Nat} (hlt : cost g fresh s < steps) :
    ∃ result, s.run g steps = some result := by
  rcases h.run hc hlt with ⟨names, hr, -⟩ | ⟨cycle, hr, -⟩
  · exact ⟨_, hr⟩
  · exact ⟨_, hr⟩

theorem sound_start (g : Graph) : Sound g g.nameList none (start g) where
  mem_placed name := by simp [start]
  mem_onPath name := by simp [start]
  names := List.Perm.refl _
  roots _ hn := hn
  fresh_roots _ hn := .inl hn
  ordered := by
    intro later name earlier he
    simp [start] at he
  followed := trivial

theorem cost_start_lt (g : Graph) : cost g g.nameList (start g) < g.searchBound := by
  have hedges := g.length_flatMap_precedentsOf_le
  simp only [cost, start, Graph.searchBound, List.length_nil, List.flatMap_nil]
  omega

end Search

theorem Graph.Closed.evaluationOrder_cases {g : Graph} (hc : g.Closed) :
    (∃ names, g.evaluationOrder = .ok names ∧ IsOrder g names) ∨
      ∃ cycle, g.evaluationOrder = .error cycle ∧ IsCycle g cycle := by
  rcases (Search.sound_start g).run hc (Search.cost_start_lt g) with
    ⟨names, hr, ho⟩ | ⟨cycle, hr, hy⟩
  · exact .inl ⟨names, by rw [evaluationOrder, hr, Option.getD_some], ho⟩
  · exact .inr ⟨cycle, by rw [evaluationOrder, hr, Option.getD_some], hy⟩

theorem Graph.Closed.isOrder {g : Graph} {names : List String} (hc : g.Closed)
    (h : g.evaluationOrder = .ok names) : IsOrder g names := by
  rcases hc.evaluationOrder_cases with ⟨found, hf, ho⟩ | ⟨cycle, hf, -⟩
  · rw [hf] at h
    cases h
    exact ho
  · rw [hf] at h
    contradiction

theorem Graph.Closed.isCycle {g : Graph} {cycle : List String} (hc : g.Closed)
    (h : g.evaluationOrder = .error cycle) : IsCycle g cycle := by
  rcases hc.evaluationOrder_cases with ⟨names, hf, -⟩ | ⟨found, hf, hy⟩
  · rw [hf] at h
    contradiction
  · rw [hf] at h
    cases h
    exact hy

end Scorecard.Dependency
