import Scorecard.Proofs.Formula.Evaluation
import Scorecard.Proofs.Formula.References

/-! Looking up references beforehand. Whatever a program is made of, it asks for its
reference keys in the order of its instructions, so for no key that its references do not
list. A table of the values of these keys therefore takes the place of the context. -/
namespace Scorecard.Formula

variable {ν : Type}

/-- The values that some keys have, kept in a table. -/
def Context.prefetch (context : Context ν) (keys : List String) : Std.TreeMap String ν :=
  keys.foldl (fun table key =>
    match context key with
    | some value => table.insert key value
    | .none => table) ∅

/-- The table answers as the context does for the keys it was made for, and knows no others. -/
theorem Context.get?_prefetch (context : Context ν) (keys : List String) (key : String) :
    (context.prefetch keys).get? key = if key ∈ keys then context key else .none := by
  induction keys using List.reverseRecOn with
  | nil => simp [prefetch]
  | append_singleton keys last ih =>
    have hfold : context.prefetch (keys ++ [last]) =
        match context last with
        | some value => (context.prefetch keys).insert last value
        | .none => context.prefetch keys := by
      simp only [prefetch, List.foldl_append, List.foldl_cons, List.foldl_nil]
    rw [hfold]
    by_cases hkey : key = last
    · subst hkey
      cases hv : context key with
      | some value => simp
      | none =>
        rw [ih, hv]
        simp
    · have hmem : key ∈ keys ++ [last] ↔ key ∈ keys := by simp [hkey]
      simp only [hmem, ← ih]
      cases context last with
      | some value => simp [Std.TreeMap.getElem?_insert, Ne.symm hkey]
      | none => rfl

variable [Arithmetic ν]

/-- A run asks for the keys of its instructions in their order. It may stop early, but not if
it comes to a value. -/
theorem Machine.run_asks (context : Context ν) (registry : Registry ν) (asked : List String)
    (m : Machine ν) (instructions : List (Instruction ν)) :
    (m.run context registry asked instructions).Asks
      (asked.reverse ++ instructions.filterMap Instruction.key?) := by
  induction instructions generalizing asked m with
  | nil =>
    rw [List.filterMap_nil, List.append_nil]
    exact ⟨List.prefix_rfl, fun _ _ => rfl⟩
  | cons instruction rest ih =>
    have hkeys : asked.reverse ++ (instruction :: rest).filterMap Instruction.key? =
        (instruction.key?.toList ++ asked).reverse ++ rest.filterMap Instruction.key? := by
      cases h : instruction.key? with
      | none => simp [h]
      | some key => simp [h]
    rw [Machine.run, hkeys]
    cases m.step context registry instruction with
    | ok next => exact ih _ next
    | error fault => exact ⟨List.prefix_append _ _, fun _ h => by cases h⟩

theorem Program.trace_asks (program : Program ν) (context : Context ν) (registry : Registry ν) :
    (program.trace context registry).Asks (program.instructions.filterMap Instruction.key?) :=
  Machine.run_asks context registry [] _ _

/-- Any program, sound or not, comes to the same value or the same failure and asks for the same
keys wherever its references have the same values and its functions the same definitions. The
references are listed without repeats in the order in which they first appear, and nothing else
is ever asked for, so a table made for exactly the references takes the place of the context. -/
theorem Program.trace_determined (program : Program ν) :
    let keys := program.instructions.filterMap Instruction.key?
    (∀ (context other : Context ν) (registry others : Registry ν),
      (∀ key ∈ program.references, context key = other key) →
      (∀ name ∈ program.functions, registry.get? name = others.get? name) →
      program.evaluate context registry = program.evaluate other others ∧
        program.trace context registry = program.trace other others) ∧
    program.references.Nodup ∧
    program.references.Pairwise (fun first later => keys.idxOf first < keys.idxOf later) ∧
    (∀ key, key ∈ program.references ↔ key ∈ keys) ∧
    (∀ (context : Context ν) (registry : Registry ν),
      (program.trace context registry).lookups <+: keys ∧
        ∀ key ∈ (program.trace context registry).lookups, key ∈ program.references) ∧
    ∀ (context : Context ν) (registry : Registry ν),
      program.evaluate (context.prefetch program.references).get? registry =
        program.evaluate context registry := by
  intro keys
  refine ⟨?_, nodup_distinct keys, distinct_ordered keys, fun key => mem_references, ?_, ?_⟩
  · intro context other registry others hc hr
    have htrace := Program.trace_congr hc hr
    exact ⟨congrArg Outcome.result htrace, htrace⟩
  · intro context registry
    have hasked := (program.trace_asks context registry).isPrefix
    exact ⟨hasked, fun key hk => mem_references.mpr (hasked.subset hk)⟩
  · intro context registry
    apply Program.evaluate_congr
    intro key hk
    rw [Context.get?_prefetch, if_pos hk]

/-- A program whose stack runs dry asks for the first of its keys only. -/
example :
    let program : Program Float :=
      ⟨[.reference "\"b\"", .operator .add, .reference "\"a\"", .reference "\"b\""], [7]⟩
    program.references = ["\"b\"", "\"a\""] ∧
      (program.trace (fun _ => some 1) .standard).lookups = ["\"b\""] := by
  decide +kernel

end Scorecard.Formula
