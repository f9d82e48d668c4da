import Mathlib.Data.List.Flatten
import Mathlib.Data.List.Nodup
import Mathlib.Data.List.Perm.Subperm
import Scorecard.Proofs.Dependency.Changes
import Scorecard.Proofs.Dependency.Search

/-! How much a search does. A step puts a name on the path, takes one off it, follows an edge, or
takes a root. In a whole search each of these happens once at most for every name and for every
edge, for what has happened and what is still to come make up no more than the graph. -/
namespace Scorecard.Dependency

theorem nodup_of_subperm {α : Type} {members whole : List α} (h : members.Subperm whole)
    (hn : whole.Nodup) : members.Nodup := by
  obtain ⟨others, hperm, hsub⟩ := h
  exact hperm.nodup_iff.mp (hsub.nodup hn)

theorem subperm_flatMap {α β : Type} {members whole : List α} (h : members.Subperm whole)
    (f : α → List β) : (members.flatMap f).Subperm (whole.flatMap f) := by
  obtain ⟨others, hperm, hsub⟩ := h
  exact ⟨others.flatMap f, hperm.flatMap_right f, hsub.flatMap f⟩

/-- What a search that has ended has come to. -/
def Progress.result? : Progress → Option (Except (List String) (List String))
  | .going _ => none
  | .ordered names => some (.ok names)
  | .cyclic cycle => some (.error cycle)

namespace Graph

/-- The edges from a name to its precedents. -/
def edgesOf (g : Graph) (name : String) : List (String × String) :=
  (g.precedentsOf name).map fun precedent => (name, precedent)

variable {g : Graph}

theorem mem_edgesOf {name : String} {edge : String × String} :
    edge ∈ g.edgesOf name ↔ edge.1 = name ∧ edge.2 ∈ g.precedentsOf name := by
  simp only [edgesOf, List.mem_map]
  constructor
  · rintro ⟨precedent, hp, rfl⟩
    exact ⟨rfl, hp⟩
  · rintro ⟨rfl, hp⟩
    exact ⟨edge.2, hp, rfl⟩

/-- Names without repeats have edges without repeats. -/
theorem nodup_flatMap_edgesOf {names : List String} (h : names.Nodup) :
    (names.flatMap g.edgesOf).Nodup := by
  refine List.nodup_flatMap.mpr ⟨fun name _ => ?_, h.imp fun hne => ?_⟩
  · have hn : (g.precedentsOf name).Nodup := (Neighbours.of g.precedents name).nodup_toList
    exact hn.map fun _ _ he => (Prod.mk.inj he).2
  · intro edge hedge hother
    exact hne ((mem_edgesOf.mp hedge).1.symm.trans (mem_edgesOf.mp hother).1)

theorem length_flatMap_edgesOf_le (g : Graph) :
    (g.nameList.flatMap g.edgesOf).length ≤ g.edgeCount := by
  refine Nat.le_trans (Nat.le_of_eq ?_) g.length_flatMap_precedentsOf_le
  simp only [List.length_flatMap, edgesOf, List.length_map]

end Graph

namespace Search

/-- The name that the next step puts on the path, if it makes the path longer. -/
def entered? (g : Graph) (s : Search) : Option String :=
  match s.step g with
  | .going next =>
    if s.path.length < next.path.length then next.path.head?.map Visit.name else none
  | .ordered _ | .cyclic _ => none

/-- The name that the next step takes off the path, if it makes the path shorter. -/
def left? (g : Graph) (s : Search) : Option String :=
  match s.step g with
  | .going next =>
    if next.path.length < s.path.length then s.path.head?.map Visit.name else none
  | .ordered _ | .cyclic _ => none

/-- The edge that the next step follows, from the latest name on the path to the first of the
precedents that it has yet to visit. -/
def followed? (s : Search) : Option (String × String) :=
  match s.path with
  | ⟨name, precedent :: _⟩ :: _ => some (name, precedent)
  | _ => none

/-- The names that have been on the path or still are. -/
def met (s : Search) : List String :=
  s.order ++ s.path.map Visit.name

/-- The edges to the precedents that the names on the path have yet to visit. -/
def ahead (s : Search) : List (String × String) :=
  s.path.flatMap fun visit => visit.waiting.map fun precedent => (visit.name, precedent)

variable {g : Graph} {s next : Search}

/-- What a step does to the names met and placed and to the edges ahead. -/
structure Moves (g : Graph) (s next : Search) : Prop where
  met : next.met.Perm ((entered? g s).toList ++ s.met)
  order : next.order = (left? g s).toList ++ s.order
  ahead : ((followed? s).toList ++ next.ahead).Perm
    (s.ahead ++ (entered? g s).toList.flatMap g.edgesOf)

theorem moves_of_step (hs : s.step g = .going next) : Moves g s next := by
  have hstep := step_spec g s
  rw [hs] at hstep
  cases hstep with
  | skipRoot hp hr hm =>
    have he : entered? g s = none := by simp [entered?, hs]
    have hl : left? g s = none := by simp [left?, hs]
    have hf : followed? s = none := by simp [followed?, hp]
    refine ⟨?_, ?_, ?_⟩
    · rw [he]
      exact .refl _
    · rw [hl]
      rfl
    · simp [hf, he, ahead]
  | @enterRoot root roots hp hr hm =>
    have he : entered? g s = some root := by simp [entered?, hs, enter]
    have hl : left? g s = none := by simp [left?, hs, enter]
    have hf : followed? s = none := by simp [followed?, hp]
    refine ⟨?_, ?_, ?_⟩
    · rw [he]
      exact List.perm_middle
    · rw [hl]
      rfl
    · simp [hf, he, ahead, enter, hp, Graph.edgesOf]
  | @place name below hp =>
    have he : entered? g s = none := by simp [entered?, hs, place, hp]
    have hl : left? g s = some name := by simp [left?, hs, place, hp]
    have hf : followed? s = none := by simp [followed?, hp]
    refine ⟨?_, ?_, ?_⟩
    · rw [he, met, met, hp]
      exact List.perm_middle.symm
    · rw [hl]
      rfl
    · simp [hf, he, ahead, place, hp]
  | @skip name precedent waiting below hp hm =>
    have he : entered? g s = none := by simp [entered?, hs, hp]
    have hl : left? g s = none := by simp [left?, hs, hp]
    have hf : followed? s = some (name, precedent) := by simp [followed?, hp]
    refine ⟨?_, ?_, ?_⟩
    · rw [he, met, met, hp]
      exact .refl _
    · rw [hl]
      rfl
    · simp [hf, he, ahead, hp]
  | @enter name precedent waiting below hp hm hon =>
    have he : entered? g s = some precedent := by simp [entered?, hs, enter, hp]
    have hl : left? g s = none := by simp [left?, hs, enter, hp]
    have hf : followed? s = some (name, precedent) := by simp [followed?, hp]
    refine ⟨?_, ?_, ?_⟩
    · rw [he, met, met, hp]
      exact List.perm_middle
    · rw [hl]
      rfl
    · simp only [hf, he, ahead, enter, hp, Graph.edgesOf, Option.toList_some, List.flatMap_cons,
        List.flatMap_nil, List.append_nil, List.map_cons, List.cons_append, List.nil_append]
      exact (List.perm_append_comm).cons _

/-! ### Whole searches -/

/-- A search goes through these states from the first of them on. -/
inductive Passes (g : Graph) : Search → List Search → Prop
  | here (s : Search) : Passes g s [s]
  | step {s next : Search} {states : List Search} :
    s.step g = .going next → Passes g next states → Passes g s (s :: states)

theorem filterMap_cons_toList {α : Type} (event? : Search → Option α) (s : Search)
    (states : List Search) :
    (s :: states).filterMap event? = (event? s).toList ++ states.filterMap event? := by
  cases h : event? s <;> simp [h]

/-- The last step neither enters a name nor takes one off. -/
theorem unmoved_of_end (hs : ∀ next, s.step g ≠ .going next) :
    entered? g s = none ∧ left? g s = none := by
  cases h : s.step g with
  | going next => exact absurd h (hs next)
  | ordered names => simp [entered?, left?, h]
  | cyclic cycle => simp [entered?, left?, h]

variable {fresh : List String} {states : List Search}

theorem Passes.sound (hp : Passes g s states) (hc : g.Closed) (h : Sound g fresh none s) :
    ∀ t ∈ states, ∃ rest, Sound g rest none t := by
  induction hp generalizing fresh with
  | here s =>
    intro t ht
    rw [List.mem_singleton.mp ht]
    exact ⟨fresh, h⟩
  | step hs _ ih =>
    obtain ⟨rest, hrest, -⟩ := h.going hc hs
    intro t ht
    rcases List.mem_cons.mp ht with rfl | ht
    · exact ⟨fresh, h⟩
    · exact ih hrest t ht

theorem Passes.length_le (hp : Passes g s states) (hc : g.Closed) (h : Sound g fresh none s) :
    states.length ≤ cost g fresh s + 1 := by
  induction hp generalizing fresh with
  | here s => exact Nat.le_add_left _ _
  | step hs _ ih =>
    obtain ⟨rest, hrest, hcost⟩ := h.going hc hs
    have hlater := ih hrest
    rw [List.length_cons]
    omega

/-- If what has happened is never more than there is of its kind, then neither is what happens in
a search together with what had happened before. -/
theorem Passes.subperm {α : Type} {event? : Search → Option α} {past : Search → List α}
    {whole : List α} (hp : Passes g s states) (hc : g.Closed) (h : Sound g fresh none s)
    (hgoing : ∀ s next, s.step g = .going next →
      (past next).Perm ((event? s).toList ++ past s))
    (hend : ∀ s, (∀ next, s.step g ≠ .going next) → event? s = none)
    (hwhole : ∀ s fresh, Sound g fresh none s → (past s).Subperm whole) :
    (states.filterMap event? ++ past s).Subperm whole := by
  induction hp generalizing fresh with
  | here s =>
    rw [filterMap_cons_toList, List.filterMap_nil, List.append_nil]
    by_cases hs : ∃ next, s.step g = .going next
    · obtain ⟨next, hs⟩ := hs
      obtain ⟨rest, hrest, -⟩ := h.going hc hs
      exact (hgoing s next hs).subperm_right.mp (hwhole next rest hrest)
    · rw [hend s (not_exists.mp hs)]
      exact hwhole s fresh h
  | @step s next states hs _ ih =>
    obtain ⟨rest, hrest, -⟩ := h.going hc hs
    have hlater := ih hrest
    rw [((hgoing s next hs).append_left _).subperm_right, ← List.append_assoc] at hlater
    rw [filterMap_cons_toList]
    exact (List.perm_append_comm.append_right _).subperm_right.mp hlater

/-- The names entered are not among those met before. -/
theorem Passes.entered_subperm (hp : Passes g s states) (hc : g.Closed)
    (h : Sound g fresh none s) :
    (states.filterMap (entered? g) ++ s.met).Subperm g.nameList := by
  refine hp.subperm hc h (fun s next hs => (moves_of_step hs).met)
    (fun s hs => (unmoved_of_end hs).1) fun s fresh h => ?_
  exact h.names.subperm_left.mp (List.sublist_append_left _ _).subperm

theorem Passes.left_subperm (hp : Passes g s states) (hc : g.Closed) (h : Sound g fresh none s) :
    (states.filterMap (left? g) ++ s.order).Subperm g.nameList := by
  refine hp.subperm hc h (fun s next hs => .of_eq (moves_of_step hs).order)
    (fun s hs => (unmoved_of_end hs).2) fun s fresh h => ?_
  refine h.names.subperm_left.mp ?_
  rw [List.append_assoc]
  exact (List.sublist_append_left _ _).subperm

theorem followed_sublist_ahead (s : Search) : (followed? s).toList.Sublist s.ahead := by
  obtain ⟨roots, path, onPath, placed, order⟩ := s
  match path with
  | [] => exact List.nil_sublist _
  | ⟨name, []⟩ :: below => exact List.nil_sublist _
  | ⟨name, precedent :: waiting⟩ :: below => simp [followed?, ahead]

/-- The edges followed lie ahead at first or lead from a name that is entered. -/
theorem Passes.followed_subperm (hp : Passes g s states) :
    (states.filterMap followed?).Subperm
      (s.ahead ++ (states.filterMap (entered? g)).flatMap g.edgesOf) := by
  induction hp with
  | here s =>
    rw [filterMap_cons_toList, List.filterMap_nil, List.append_nil]
    exact ((followed_sublist_ahead s).trans (List.sublist_append_left _ _)).subperm
  | step hs _ ih =>
    rw [filterMap_cons_toList followed?, filterMap_cons_toList (entered? g), List.flatMap_append,
      ← List.append_assoc, ← ((moves_of_step hs).ahead.append_right _).subperm_left,
      List.append_assoc]
    exact (List.subperm_append_left _).mpr ih

/-- A step on the path follows an edge or takes a name off. -/
theorem followed_or_left (g : Graph) (h : s.path ≠ []) :
    (followed? s).isSome ∨ (left? g s).isSome := by
  match hp : s.path with
  | [] => exact absurd hp h
  | ⟨name, []⟩ :: below =>
    right
    simp [left?, Search.step, hp, place]
  | ⟨name, precedent :: waiting⟩ :: below =>
    left
    simp [followed?, hp]

theorem countP_path_le (g : Graph) (states : List Search) :
    states.countP (fun s => !s.path.isEmpty) ≤
      (states.filterMap followed?).length + (states.filterMap (left? g)).length := by
  rw [List.length_filterMap_eq_countP, List.length_filterMap_eq_countP]
  induction states with
  | nil => exact Nat.le_refl _
  | cons s states ih =>
    simp only [List.countP_cons]
    by_cases hp : s.path = []
    · simp only [hp, List.isEmpty_nil, Bool.not_true, Bool.false_eq_true, if_false]
      omega
    · rcases followed_or_left g hp with h | h
      all_goals
        simp only [h, if_true]
        split <;> split <;> omega

/-- A run that has a result passes states up to one whose step ends with it. -/
theorem exists_passes {steps : Nat} {result : Except (List String) (List String)}
    (h : s.run g steps = some result) :
    ∃ states last, Passes g s states ∧ states.getLast? = some last ∧
      (last.step g).result? = some result := by
  induction steps generalizing s with
  | zero => contradiction
  | succ steps ih =>
    rw [Search.run] at h
    cases hs : s.step g with
    | going next =>
      rw [hs] at h
      obtain ⟨states, last, hp, hlast, hresult⟩ := ih h
      exact ⟨s :: states, last, .step hs hp, by rw [List.getLast?_cons, hlast]; rfl, hresult⟩
    | ordered names =>
      rw [hs] at h
      exact ⟨[s], s, .here s, rfl, by rw [hs]; exact h⟩
    | cyclic cycle =>
      rw [hs] at h
      exact ⟨[s], s, .here s, rfl, by rw [hs]; exact h⟩

/-! ### Between the steps -/

/-- How the path, the names placed and the order of a search go together. -/
structure Orderly (g : Graph) (s : Search) : Prop where
  /-- Each name on the path is a precedent of the one below it. -/
  path : (s.path.map Visit.name).IsChain fun upper lower => upper ∈ g.precedentsOf lower
  nodup : (s.path.map Visit.name).Nodup
  mem_onPath (name : String) : name ∈ s.onPath ↔ name ∈ s.path.map Visit.name
  mem_placed (name : String) : name ∈ s.placed ↔ name ∈ s.order
  closed : ∀ name ∈ s.placed, ∀ precedent ∈ g.precedentsOf name, precedent ∈ s.placed
  /-- Where an edge closes a cycle, the name that it leads to is found on the path. -/
  found : ∀ cycle, s.step g = .cyclic cycle → ∃ edge place, followed? s = some edge ∧
    (s.path.map Visit.name).reverse.idxOf? edge.2 = some place ∧
    cycle = (s.path.map Visit.name).reverse.drop place

theorem Sound.orderly (h : Sound g fresh none s) : Orderly g s where
  path := h.followed.isChain
  nodup := (List.nodup_append.mp (List.nodup_append.mp h.nodup).1).2.1
  mem_onPath := h.mem_onPath
  mem_placed := h.mem_placed
  closed name hn precedent hp := by
    rw [h.mem_placed] at hn ⊢
    obtain ⟨later, earlier, horder⟩ := List.append_of_mem hn
    have hearlier := h.ordered later name earlier horder precedent hp
    rw [horder]
    exact List.mem_append_right _ (List.mem_cons_of_mem name hearlier)
  found cycle hs := by
    have hstep := step_spec g s
    rw [hs] at hstep
    cases hstep with
    | @close name precedent waiting below hp hm hon =>
      have hmem : precedent ∈ (s.path.map Visit.name).reverse :=
        List.mem_reverse.mpr ((h.mem_onPath precedent).mp hon)
      have hplace : (s.path.map Visit.name).reverse.idxOf? precedent =
          some ((s.path.map Visit.name).reverse.idxOf precedent) :=
        List.findIdx?_eq_some_of_exists ⟨precedent, hmem, beq_self_eq_true precedent⟩
      refine ⟨(name, precedent), _, by simp [followed?, hp], hplace, ?_⟩
      rw [cycleFrom, List.dropWhile_eq_drop_findIdx_not]
      simp [hp, List.idxOf, bne]

end Search

/-- A search comes to its end. On the way there every name is put on the path once at most and
every edge is followed once at most, so that the steps on the path are no more than the names and
the edges, and with the roots, of which there are as many as names, and the step at the end there
are no more than `searchBound` allows. At any time the path leads from each name to a precedent,
the names placed are those of the order and have their precedents among them, and a cycle starts
at the place of a name that is found on the path. -/
theorem search_once (changes : List Change) :
    let g := Graph.after changes
    (∃ states last, Search.Passes g (Search.start g) states ∧ states.getLast? = some last ∧
      (last.step g).result? = some g.evaluationOrder) ∧
    ∀ states, Search.Passes g (Search.start g) states →
      (states.filterMap (Search.entered? g)).Nodup ∧
      (states.filterMap Search.followed?).Nodup ∧
      (∀ edge ∈ states.filterMap Search.followed?, edge.2 ∈ g.precedentsOf edge.1) ∧
      states.countP (fun s => !s.path.isEmpty) ≤ g.nameList.length + g.edgeCount ∧
      states.length ≤ 2 * g.nameList.length + g.edgeCount + 1 ∧
      ∀ s ∈ states, s.Orderly g := by
  intro g
  have hc : g.Closed := Graph.closed_after changes
  have hsound := Search.sound_start g
  constructor
  · obtain ⟨result, hr⟩ := hsound.exists_run hc (Search.cost_start_lt g)
    obtain ⟨states, last, hp, hlast, hresult⟩ := Search.exists_passes hr
    exact ⟨states, last, hp, hlast, by rw [Graph.evaluationOrder, hr]; exact hresult⟩
  · intro states hp
    have hentered : (states.filterMap (Search.entered? g)).Subperm g.nameList := by
      simpa [Search.start, Search.met] using hp.entered_subperm hc hsound
    have hleft : (states.filterMap (Search.left? g)).Subperm g.nameList := by
      simpa [Search.start] using hp.left_subperm hc hsound
    have hfollowed : (states.filterMap Search.followed?).Subperm
        ((states.filterMap (Search.entered? g)).flatMap g.edgesOf) := by
      simpa [Search.start, Search.ahead] using hp.followed_subperm
    have hnodup := nodup_of_subperm hentered g.nodup_nameList
    refine ⟨hnodup, nodup_of_subperm hfollowed (Graph.nodup_flatMap_edgesOf hnodup), ?_, ?_, ?_, ?_⟩
    · intro edge hedge
      obtain ⟨name, -, hm⟩ := List.mem_flatMap.mp (hfollowed.subset hedge)
      obtain ⟨rfl, hprecedent⟩ := Graph.mem_edgesOf.mp hm
      exact hprecedent
    · have hedges : (states.filterMap Search.followed?).length ≤ g.edgeCount :=
        (hfollowed.trans (subperm_flatMap hentered g.edgesOf)).length_le.trans
          g.length_flatMap_edgesOf_le
      have hsteps := Search.countP_path_le g states
      have hnames := hleft.length_le
      omega
    · have hlength := hp.length_le hc hsound
      have hcost := Search.cost_start_lt g
      rw [Graph.searchBound] at hcost
      omega
    · intro s hs
      obtain ⟨rest, hrest⟩ := hp.sound hc hsound s hs
      exact hrest.orderly

end Scorecard.Dependency
