import Scorecard.Proofs.Formula.Evaluation

/-! What an evaluation fails with. Operators and the standard functions fail because of the
values that they are given, and never for want of a value. So where an expression comes to
a value, none of its references is missing; and the reference of which a failure says that it
has no value is one of its own, and has none. -/
namespace Scorecard.Formula

variable {ν : Type}

/-- A failure because of the values that something was given. -/
def EvaluationError.IsArithmetic : EvaluationError → Prop
  | divisionByZero | invalidArgument _ _ => True
  | _ => False

/-- A function that fails does so because of the values of its arguments. -/
def Registry.FailsOnValues (registry : Registry ν) : Prop :=
  ∀ name f arguments fault, registry.get? name = some f → f.run arguments = .error fault →
    fault.IsArithmetic

namespace Registry

theorem failsOnValues_empty : (empty : Registry ν).FailsOnValues := by
  intro name f arguments fault hf
  rw [get?_empty] at hf
  contradiction

theorem FailsOnValues.register {registry : Registry ν} (hr : registry.FailsOnValues) (name : String)
    {f : Function ν}
    (h : ∀ arguments fault, f.run arguments = .error fault → fault.IsArithmetic) :
    (registry.register name f).FailsOnValues := by
  intro other g arguments fault hg
  rw [get?_register] at hg
  split at hg
  · cases hg
    exact h arguments fault
  · exact hr other g arguments fault hg

end Registry

namespace Aggregate

theorem isArithmetic_of_requireArguments {function : String} {values : List ν}
    {next : Unit → Except EvaluationError ν} {fault : EvaluationError}
    (hnext : next () = .error fault → fault.IsArithmetic)
    (h : (requireArguments function values >>= next) = .error fault) : fault.IsArithmetic := by
  unfold requireArguments at h
  split at h
  · cases h
    trivial
  · exact hnext h

theorem isArithmetic_of_weighted [Arithmetic ν] {values : List ν} {fault : EvaluationError}
    (h : weighted values = .error fault) : fault.IsArithmetic := by
  refine isArithmetic_of_requireArguments (fun hnext => ?_) h
  split at hnext
  · cases hnext
    trivial
  · dsimp only at hnext
    split at hnext
    · cases hnext
      trivial
    · contradiction

end Aggregate

theorem Registry.failsOnValues_standard [Arithmetic ν] :
    (standard : Registry ν).FailsOnValues := by
  -- Once there is an argument, these functions do not fail.
  have hmean (values : List ν) (fault : EvaluationError)
      (h : Aggregate.mean values = .error fault) : fault.IsArithmetic :=
    Aggregate.isArithmetic_of_requireArguments (fun hnext => by cases hnext) h
  have hleast (values : List ν) (fault : EvaluationError)
      (h : Aggregate.minimum values = .error fault) : fault.IsArithmetic :=
    Aggregate.isArithmetic_of_requireArguments (fun hnext => by cases hnext) h
  have hgreatest (values : List ν) (fault : EvaluationError)
      (h : Aggregate.maximum values = .error fault) : fault.IsArithmetic :=
    Aggregate.isArithmetic_of_requireArguments (fun hnext => by cases hnext) h
  exact (((((failsOnValues_empty.register "SUM" (fun _ _ h => by cases h)).register "MEAN"
    hmean).register "AVERAGE" hmean).register "MIN" hleast).register "MAX" hgreatest).register
      "WEIGHTED" fun _ _ => Aggregate.isArithmetic_of_weighted

/-- A call can also fail before the function is run. -/
theorem Registry.FailsOnValues.apply_ne {registry : Registry ν} (hr : registry.FailsOnValues)
    (name : String) (values : List ν) (key : String) :
    registry.apply name values ≠ .error (.unresolvedReference key) := by
  unfold Registry.apply
  split
  case h_1 => simp
  case h_2 hf => exact fun h => hr name _ values _ hf h
  case h_3 hf =>
    split
    · exact fun h => hr name _ values _ hf h
    · simp

theorem BinaryOperator.isArithmetic_of_apply [Arithmetic ν] {op : BinaryOperator} {left right : ν}
    {fault : EvaluationError} (h : op.apply left right = .error fault) : fault.IsArithmetic := by
  cases op with
  | add | subtract | multiply | power => cases h
  | divide | modulo =>
    simp only [apply] at h
    split at h
    · cases h
      trivial
    · contradiction

/-! ### Missing values -/

namespace Outcome

variable {α β : Type} {context : Context ν}

/-- With a value, all the keys have values. A failure for want of a value names one of the
keys, and that one has none. -/
structure Resolves (o : Outcome α) (context : Context ν) (keys : List String) : Prop where
  found (value : α) : o.result = .ok value → ∀ key ∈ keys, (context key).isSome
  missing (key : String) :
    o.result = .error (.unresolvedReference key) → key ∈ keys ∧ context key = none

theorem resolves_unasked {result : Except EvaluationError α}
    (h : ∀ key, result ≠ .error (.unresolvedReference key)) :
    (unasked result).Resolves context [] :=
  ⟨fun _ _ => by simp, fun key hk => absurd hk (h key)⟩

theorem Resolves.bind {o : Outcome α} {f : α → Outcome β} {keys more : List String}
    (h : o.Resolves context keys) (hf : ∀ value, (f value).Resolves context more) :
    (o >>= f).Resolves context (keys ++ more) := by
  obtain ⟨result, lookups⟩ := o
  cases result with
  | ok value =>
    refine ⟨fun v hv => ?_, fun key hk => ?_⟩
    · exact List.forall_mem_append.mpr ⟨h.found value rfl, (hf value).found v hv⟩
    · obtain ⟨hmem, hnone⟩ := (hf value).missing key hk
      exact ⟨List.mem_append_right _ hmem, hnone⟩
  | error fault =>
    refine ⟨fun v hv => by contradiction, fun key hk => ?_⟩
    obtain rfl : fault = .unresolvedReference key := Except.error.inj hk
    obtain ⟨hmem, hnone⟩ := h.missing key rfl
    exact ⟨List.mem_append_left _ hmem, hnone⟩

theorem Resolves.last {o : Outcome α} {keys : List String} (h : o.Resolves context keys)
    {f : α → Except EvaluationError β}
    (hf : ∀ value key, f value ≠ .error (.unresolvedReference key)) :
    (o >>= fun value => unasked (f value)).Resolves context keys := by
  have hlast : (o >>= fun value => unasked (f value)).Resolves context (keys ++ []) :=
    h.bind fun value => resolves_unasked (hf value)
  rwa [List.append_nil] at hlast

end Outcome

namespace Expression

variable [Arithmetic ν] {context : Context ν} {registry : Registry ν}

mutual

theorem evaluate_resolves (hr : registry.FailsOnValues) :
    (e : Expression ν) → (e.evaluate context registry).Resolves context e.keys
  | number _ => Outcome.resolves_unasked (by simp)
  | reference key => by
    rw [evaluate, keys]
    cases h : context key with
    | some value => exact ⟨by simp [h], by simp⟩
    | none => exact ⟨by simp, by simp_all⟩
  | binary op left right =>
    (evaluate_resolves hr left).bind fun _ => (evaluate_resolves hr right).last fun _ _ h =>
      BinaryOperator.isArithmetic_of_apply h
  | sign .negate operand => (evaluate_resolves hr operand).last (by simp)
  | sign .plus operand => evaluate_resolves hr operand
  | call name arguments => (evaluateAll_resolves hr arguments).last (hr.apply_ne name)

theorem evaluateAll_resolves (hr : registry.FailsOnValues) : (es : List (Expression ν)) →
    (evaluateAll context registry es).Resolves context (keysAll es)
  | [] => Outcome.resolves_unasked (by simp)
  | e :: rest =>
    (evaluate_resolves hr e).bind fun value => (evaluateAll_resolves hr rest).last (by simp)

end

/-- Where a program comes to a value, none of its references is missing. -/
theorem isSome_of_evaluate_program {e : Expression ν} {value : ν}
    (h : e.program.evaluate context Registry.standard = .ok value) :
    ∀ key ∈ e.keys, (context key).isSome := by
  rw [Program.evaluate, e.trace_program] at h
  exact (evaluate_resolves Registry.failsOnValues_standard e).found value h

theorem missing_of_evaluate_program {e : Expression ν} {key : String}
    (h : e.program.evaluate context Registry.standard = .error (.unresolvedReference key)) :
    key ∈ e.keys ∧ context key = none := by
  rw [Program.evaluate, e.trace_program] at h
  exact (evaluate_resolves Registry.failsOnValues_standard e).missing key h

end Expression

end Scorecard.Formula
