import Mathlib.Data.List.Basic
import Mathlib.Data.List.Induction
import Scorecard.Formula.Evaluation

/-! What an evaluation depends on. The reference keys of a program are listed without
repeats, each where it first appears. Contexts that agree on them and registries that agree
on the called functions cannot be told apart by the program. -/
namespace Scorecard.Formula

/-! ### The members of a list without repeats -/

/-- Whether a member at the end is listed depends on whether it is listed already. -/
theorem distinct_concat (keys : List String) (key : String) :
    distinct (keys ++ [key]) =
      if key ∈ distinct keys then distinct keys else distinct keys ++ [key] := by
  simp only [distinct, List.foldl_append, List.foldl_cons, List.foldl_nil, List.mem_reverse,
    List.contains_iff_mem]
  split
  · rfl
  · rw [List.reverse_cons]

theorem mem_distinct {keys : List String} {key : String} : key ∈ distinct keys ↔ key ∈ keys := by
  induction keys using List.reverseRecOn with
  | nil => rfl
  | append_singleton keys last ih =>
    rw [distinct_concat, List.mem_append, List.mem_singleton]
    split
    case isTrue h =>
      constructor
      · exact fun hk => .inl (ih.mp hk)
      · rintro (hk | rfl)
        · exact ih.mpr hk
        · exact h
    case isFalse => rw [List.mem_append, List.mem_singleton, ih]

/-- Of the members that pass a test, the first is kept. -/
theorem find?_distinct (keys : List String) (test : String → Bool) :
    (distinct keys).find? test = keys.find? test := by
  induction keys using List.reverseRecOn with
  | nil => rfl
  | append_singleton keys last ih =>
    rw [distinct_concat, List.find?_append]
    split
    case isTrue h =>
      -- A member that comes again does not pass where it passed over before.
      rw [ih]
      cases hfound : keys.find? test with
      | some found => rfl
      | none =>
        have hlast := List.find?_eq_none.mp hfound last (mem_distinct.mp h)
        simp [hlast]
    case isFalse => rw [List.find?_append, ih]

/-- The members stand in the order in which they first appear. -/
theorem distinct_ordered (keys : List String) :
    (distinct keys).Pairwise fun first later => keys.idxOf first < keys.idxOf later := by
  induction keys using List.reverseRecOn with
  | nil => exact .nil
  | append_singleton keys last ih =>
    have hkeys : (distinct keys).Pairwise fun first later =>
        (keys ++ [last]).idxOf first < (keys ++ [last]).idxOf later := by
      refine ih.imp_of_mem fun hfirst hlater h => ?_
      rwa [List.idxOf_append_of_mem (mem_distinct.mp hfirst),
        List.idxOf_append_of_mem (mem_distinct.mp hlater)]
    rw [distinct_concat]
    split
    case isTrue => exact hkeys
    case isFalse hnew =>
      refine List.pairwise_append.mpr ⟨hkeys, List.pairwise_singleton _ _, ?_⟩
      intro first hfirst later hlater
      rw [mem_distinct] at hfirst hnew
      have hlt := List.idxOf_lt_length_of_mem hfirst
      rw [List.mem_singleton.mp hlater, List.idxOf_append_of_mem hfirst,
        List.idxOf_append_of_notMem hnew]
      omega

theorem nodup_distinct (keys : List String) : (distinct keys).Nodup := by
  refine (distinct_ordered keys).imp fun hlt heq => ?_
  subst heq
  exact Nat.lt_irrefl _ hlt

variable {ν : Type}

theorem Instruction.key?_eq_some_iff {instruction : Instruction ν} {key : String} :
    instruction.key? = some key ↔ instruction = .reference key := by
  cases instruction with
  | reference found => rw [key?, Option.some.injEq, reference.injEq]
  | number | operator | negate | call => simp [key?]

theorem Program.mem_references {program : Program ν} {key : String} :
    key ∈ program.references ↔ key ∈ program.instructions.filterMap Instruction.key? :=
  mem_distinct

/-! ### What cannot be told apart -/

variable [Arithmetic ν] {context other : Context ν} {registry others : Registry ν}

theorem Machine.step_congr {instruction : Instruction ν}
    (hc : ∀ key ∈ instruction.key?, context key = other key)
    (hr : ∀ name ∈ instruction.callee?, registry.get? name = others.get? name) (m : Machine ν) :
    m.step context registry instruction = m.step other others instruction := by
  cases instruction with
  | reference key => simp only [Machine.step, hc key rfl]
  | call name => simp only [Machine.step, Machine.call, hr name rfl]
  | number | operator | negate => rfl

theorem Machine.run_congr {instructions : List (Instruction ν)}
    (hc : ∀ key ∈ instructions.filterMap Instruction.key?, context key = other key)
    (hr : ∀ name ∈ instructions.filterMap Instruction.callee?,
      registry.get? name = others.get? name)
    (asked : List String) (m : Machine ν) :
    m.run context registry asked instructions = m.run other others asked instructions := by
  induction instructions generalizing asked m with
  | nil => rfl
  | cons instruction rest ih =>
    simp only [List.mem_filterMap, List.mem_cons, exists_eq_or_imp, or_imp, forall_and] at hc hr
    have hstep : m.step context registry instruction = m.step other others instruction :=
      m.step_congr hc.1 hr.1
    have hrest := ih (by simpa only [List.mem_filterMap] using hc.2)
      (by simpa only [List.mem_filterMap] using hr.2)
    rw [Machine.run, Machine.run, hstep]
    cases m.step other others instruction with
    | ok next => exact hrest _ next
    | error fault => rfl

theorem Program.trace_congr {program : Program ν}
    (hc : ∀ key ∈ program.references, context key = other key)
    (hr : ∀ name ∈ program.functions, registry.get? name = others.get? name) :
    program.trace context registry = program.trace other others :=
  Machine.run_congr (fun key hk => hc key (mem_references.mpr hk)) hr _ _

theorem Program.evaluate_congr {program : Program ν}
    (h : ∀ key ∈ program.references, context key = other key) (registry : Registry ν) :
    program.evaluate context registry = program.evaluate other registry := by
  rw [Program.evaluate, Program.evaluate, Program.trace_congr h fun _ _ => rfl]

end Scorecard.Formula
