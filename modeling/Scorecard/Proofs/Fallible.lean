import Mathlib.Data.List.Perm.Basic

/-! Computations that may fail, seen from the end: what must have happened before a
result came out, or before the failure. -/
namespace Scorecard

variable {α β ε : Type}

theorem bind_eq_ok {x : Except ε α} {f : α → Except ε β} {b : β} :
    x >>= f = .ok b ↔ ∃ a, x = .ok a ∧ f a = .ok b := by
  cases x with
  | ok a => simp [bind, Except.bind]
  | error fault => simp [bind, Except.bind]

theorem bind_eq_error {x : Except ε α} {f : α → Except ε β} {fault : ε} :
    x >>= f = .error fault ↔ x = .error fault ∨ ∃ a, x = .ok a ∧ f a = .error fault := by
  cases x with
  | ok a => simp [bind, Except.bind]
  | error found => simp [bind, Except.bind]

/-- What is only made of a result cannot fail by itself. -/
theorem bind_pure_eq_error {x : Except ε α} {f : α → β} {fault : ε} :
    (x >>= fun a => pure (f a)) = .error fault ↔ x = .error fault := by
  cases x with
  | ok a => simp [bind, Except.bind, pure, Except.pure]
  | error found => simp [bind, Except.bind]

theorem exists_eq_ok {x : Except ε α} (h : x.isOk = true) : ∃ a, x = .ok a := by
  cases x with
  | ok a => exact ⟨a, rfl⟩
  | error fault => contradiction

/-- What each step carries from the members before it over to one more member, a whole
fold carries from none to all. -/
theorem foldlM_induction {f : β → α → Except ε β} {members : List α} {first last : β}
    (P : List α → β → Prop) (hfirst : P [] first)
    (hstep : ∀ done a rest b next, members = done ++ a :: rest → P done b → f b a = .ok next →
      P (done ++ [a]) next)
    (h : members.foldlM f first = .ok last) : P members last := by
  have hrest : ∀ rest done b, members = done ++ rest → P done b → rest.foldlM f b = .ok last →
      P members last := by
    intro rest
    induction rest with
    | nil =>
      intro done b hm hb hl
      cases hl
      rwa [hm, List.append_nil]
    | cons a rest ih =>
      intro done b hm hb hl
      rw [List.foldlM_cons] at hl
      obtain ⟨next, hn, hl⟩ := bind_eq_ok.mp hl
      refine ih (done ++ [a]) next ?_ (hstep done a rest b next hm hb hn) hl
      rw [hm, List.append_assoc, List.singleton_append]
  exact hrest members [] first rfl hfirst h

/-- Where each step can be taken, so can a whole fold. -/
theorem exists_foldlM {f : β → α → Except ε β} {members : List α}
    (h : ∀ a ∈ members, ∀ b, ∃ next, f b a = .ok next) (first : β) :
    ∃ last, members.foldlM f first = .ok last := by
  induction members generalizing first with
  | nil => exact ⟨first, rfl⟩
  | cons a rest ih =>
    obtain ⟨next, hn⟩ := h a List.mem_cons_self first
    obtain ⟨last, hl⟩ := ih (fun b hb => h b (List.mem_cons_of_mem a hb)) next
    exact ⟨last, by rw [List.foldlM_cons]; exact bind_eq_ok.mpr ⟨next, hn, hl⟩⟩

/-- A fold fails at the first member whose step cannot be taken. -/
theorem exists_of_foldlM_eq_error {f : β → α → Except ε β} {members : List α} {first : β}
    {fault : ε} (h : members.foldlM f first = .error fault) : ∃ before a after b,
      members = before ++ a :: after ∧ before.foldlM f first = .ok b ∧ f b a = .error fault := by
  induction members generalizing first with
  | nil => cases h
  | cons a rest ih =>
    rw [List.foldlM_cons] at h
    rcases bind_eq_error.mp h with ha | ⟨next, hn, h⟩
    · exact ⟨[], a, rest, first, rfl, rfl, ha⟩
    · obtain ⟨before, b, after, last, rfl, hl, hb⟩ := ih h
      refine ⟨a :: before, b, after, last, rfl, ?_, hb⟩
      rw [List.foldlM_cons]
      exact bind_eq_ok.mpr ⟨next, hn, hl⟩

/-- Where each step can be taken alike from what is alike, so can a whole fold. -/
theorem foldlM_congr (Alike : β → β → Prop) {f g : β → α → Except ε β} {members : List α}
    (hstep : ∀ a b c next, Alike b c → f b a = .ok next → ∃ other, g c a = .ok other ∧
      Alike next other) {first start last : β} (hf : Alike first start)
    (h : members.foldlM f first = .ok last) :
    ∃ other, members.foldlM g start = .ok other ∧ Alike last other := by
  induction members generalizing first start with
  | nil =>
    cases h
    exact ⟨start, rfl, hf⟩
  | cons a rest ih =>
    rw [List.foldlM_cons] at h
    obtain ⟨next, hn, h⟩ := bind_eq_ok.mp h
    obtain ⟨second, hs, hsecond⟩ := hstep a first start next hf hn
    obtain ⟨other, ho, halike⟩ := ih hsecond h
    exact ⟨other, by rw [List.foldlM_cons]; exact bind_eq_ok.mpr ⟨second, hs, ho⟩, halike⟩

theorem mapM_eq_ok_iff {f : α → Except ε β} {members : List α} {results : List β} :
    members.mapM f = .ok results ↔ List.Forall₂ (fun a b => f a = .ok b) members results := by
  induction members generalizing results with
  | nil =>
    rw [List.forall₂_nil_left_iff]
    exact ⟨fun h => (Except.ok.inj h).symm, fun h => h ▸ rfl⟩
  | cons a rest ih =>
    rw [List.mapM_cons, List.forall₂_cons_left_iff]
    constructor
    · intro h
      obtain ⟨b, hb, h⟩ := bind_eq_ok.mp h
      obtain ⟨more, hm, h⟩ := bind_eq_ok.mp h
      exact ⟨b, more, hb, ih.mp hm, (Except.ok.inj h).symm⟩
    · rintro ⟨b, more, hb, hm, rfl⟩
      exact bind_eq_ok.mpr ⟨b, hb, bind_eq_ok.mpr ⟨more, ih.mpr hm, rfl⟩⟩

theorem exists_of_mapM_eq_error {f : α → Except ε β} {members : List α} {fault : ε}
    (h : members.mapM f = .error fault) : ∃ before a after results,
      members = before ++ a :: after ∧ before.mapM f = .ok results ∧ f a = .error fault := by
  induction members with
  | nil => cases h
  | cons a rest ih =>
    rw [List.mapM_cons] at h
    rcases bind_eq_error.mp h with ha | ⟨b, hb, h⟩
    · exact ⟨[], a, rest, [], rfl, rfl, ha⟩
    · rcases bind_eq_error.mp h with h | ⟨more, hm, h⟩
      · obtain ⟨before, c, after, results, rfl, hr, hc⟩ := ih h
        refine ⟨a :: before, c, after, b :: results, rfl, ?_, hc⟩
        rw [List.mapM_cons]
        exact bind_eq_ok.mpr ⟨b, hb, bind_eq_ok.mpr ⟨results, hr, rfl⟩⟩
      · cases h

/-- The results of a rearranged list are the results rearranged. -/
theorem exists_mapM_of_perm {f : α → Except ε β} {members others : List α} {results : List β}
    (hp : members.Perm others) (h : members.mapM f = .ok results) :
    ∃ more, others.mapM f = .ok more ∧ results.Perm more := by
  obtain ⟨more, hm, hperm⟩ := List.perm_comp_forall₂ hp.symm (mapM_eq_ok_iff.mp h)
  exact ⟨more, mapM_eq_ok_iff.mpr hm, hperm.symm⟩

/-- Where every member has a result, these are all the results. -/
theorem mapM_eq_some {f : α → Option β} {members : List α} {results : List β}
    (h : members.mapM f = some results) : members.map f = results.map some := by
  induction members generalizing results with
  | nil =>
    cases h
    rfl
  | cons a rest ih =>
    rw [List.mapM_cons] at h
    obtain ⟨b, hb, h⟩ := Option.bind_eq_some_iff.mp h
    obtain ⟨more, hm, h⟩ := Option.bind_eq_some_iff.mp h
    cases h
    rw [List.map_cons, List.map_cons, ih hm, hb]

theorem exists_mapM_eq_some_iff {f : α → Option β} {members : List α} :
    (∃ results, members.mapM f = some results) ↔ ∀ a ∈ members, ∃ b, f a = some b := by
  simp only [← Option.isSome_iff_exists]
  induction members with
  | nil => simp
  | cons a rest ih =>
    rw [List.mapM_cons, List.forall_mem_cons, ← ih]
    cases f a with
    | none => simp
    | some b => cases rest.mapM f <;> simp

end Scorecard
