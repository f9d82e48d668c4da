import Mathlib.Algebra.GroupWithZero.Nat
import Mathlib.Logic.Relation
import Scorecard.Proofs.Formula.Evaluation
import Scorecard.Proofs.Formula.References

/-! Formulas that refer to formulas. A key may stand for an expression; a reference by that
key may give way to the expression, and so may the references that come in with it. Where
the keys of an expression are of lower rank than the key that stands for it, this ends
whichever reference goes first, and always with the same expression. In a context in which
each key has the value of what it stands for, no value changes on the way. -/
namespace Scorecard.Formula

theorem Outcome.toOption_bind {α β : Type} (o : Outcome α) (f : α → Outcome β) :
    (o >>= f).result.toOption = o.result.toOption.bind fun a => (f a).result.toOption := by
  obtain ⟨result, lookups⟩ := o
  cases result with
  | ok a => rfl
  | error fault => rfl

namespace Expression

variable {ν : Type}

/-- One reference gives way to the expression that its key stands for. -/
inductive Replaces (meaning : String → Expression ν → Prop) : Expression ν → Expression ν → Prop
  | reference {key e} : meaning key e → Replaces meaning (.reference key) e
  | left {op l l' r} : Replaces meaning l l' → Replaces meaning (.binary op l r) (.binary op l' r)
  | right {op l r r'} : Replaces meaning r r' → Replaces meaning (.binary op l r) (.binary op l r')
  | sign {s e e'} : Replaces meaning e e' → Replaces meaning (.sign s e) (.sign s e')
  | argument {name before e e' after} : Replaces meaning e e' →
    Replaces meaning (.call name (before ++ e :: after)) (.call name (before ++ e' :: after))

/-- Replacing has led to an expression with no reference left to replace. -/
structure Inlined (meaning : String → Expression ν → Prop) (e whole : Expression ν) : Prop where
  reached : Relation.ReflTransGen (Replaces meaning) e whole
  plain : ∀ key ∈ whole.keys, ∀ inner, ¬ meaning key inner

variable {meaning : String → Expression ν → Prop} {e e' whole : Expression ν}

/-- The key that is replaced gives way to the keys of what it stands for. -/
theorem Replaces.keys_eq (h : Replaces meaning e e') : ∃ before key inner after,
    meaning key inner ∧ e.keys = before ++ key :: after ∧
      e'.keys = before ++ inner.keys ++ after := by
  induction h with
  | @reference key e h => exact ⟨[], key, e, [], h, rfl, by simp⟩
  | @left _ _ _ r _ ih =>
    obtain ⟨before, key, inner, after, hm, he, he'⟩ := ih
    exact ⟨before, key, inner, after ++ r.keys, hm, by simp [keys, he], by simp [keys, he']⟩
  | @right _ l _ _ _ ih =>
    obtain ⟨before, key, inner, after, hm, he, he'⟩ := ih
    exact ⟨l.keys ++ before, key, inner, after, hm, by simp [keys, he], by simp [keys, he']⟩
  | sign _ ih => exact ih
  | @argument _ front _ _ back _ ih =>
    obtain ⟨before, key, inner, after, hm, he, he'⟩ := ih
    exact ⟨keysAll front ++ before, key, inner, after ++ keysAll back, hm,
      by simp [keys, keysAll_append, keysAll, he], by simp [keys, keysAll_append, keysAll, he']⟩

mutual

/-- A reference that stands for something can be replaced wherever it is. -/
theorem exists_replaces {key : String} {inner : Expression ν} (hm : meaning key inner) :
    (e : Expression ν) → key ∈ e.keys → ∃ e', Replaces meaning e e'
  | number _, hk => by simp [keys] at hk
  | reference _, hk => by
    obtain rfl := List.mem_singleton.mp hk
    exact ⟨inner, .reference hm⟩
  | binary op left right, hk => by
    rcases List.mem_append.mp hk with hk | hk
    · obtain ⟨left', h⟩ := exists_replaces hm left hk
      exact ⟨.binary op left' right, .left h⟩
    · obtain ⟨right', h⟩ := exists_replaces hm right hk
      exact ⟨.binary op left right', .right h⟩
  | sign s operand, hk => by
    obtain ⟨operand', h⟩ := exists_replaces hm operand hk
    exact ⟨.sign s operand', .sign h⟩
  | call name arguments, hk => by
    obtain ⟨before, e, after, e', rfl, h⟩ := exists_replaces_argument hm arguments hk
    exact ⟨_, .argument h⟩

theorem exists_replaces_argument {key : String} {inner : Expression ν} (hm : meaning key inner) :
    (es : List (Expression ν)) → key ∈ keysAll es →
      ∃ before e after e', es = before ++ e :: after ∧ Replaces meaning e e'
  | [], hk => by simp [keysAll] at hk
  | e :: rest, hk => by
    rcases List.mem_append.mp hk with hk | hk
    · obtain ⟨e', h⟩ := exists_replaces hm e hk
      exact ⟨[], e, rest, e', rfl, h⟩
    · obtain ⟨before, f, after, f', rfl, h⟩ := exists_replaces_argument hm rest hk
      exact ⟨e :: before, f, after, f', rfl, h⟩

end

/-! ### Substitution -/

mutual

/-- Put an expression in for every reference at once. -/
def substitute (σ : String → Expression ν) : Expression ν → Expression ν
  | number value => number value
  | reference key => σ key
  | binary op left right => binary op (left.substitute σ) (right.substitute σ)
  | sign s operand => sign s (operand.substitute σ)
  | call name arguments => call name (substituteAll σ arguments)

def substituteAll (σ : String → Expression ν) : List (Expression ν) → List (Expression ν)
  | [] => []
  | e :: rest => e.substitute σ :: substituteAll σ rest

end

variable {σ τ : String → Expression ν}

theorem substituteAll_append (xs ys : List (Expression ν)) :
    substituteAll σ (xs ++ ys) = substituteAll σ xs ++ substituteAll σ ys := by
  induction xs with
  | nil => rfl
  | cons e rest ih => rw [List.cons_append, substituteAll, ih, substituteAll, List.cons_append]

mutual

theorem substitute_congr : (e : Expression ν) → (∀ key ∈ e.keys, σ key = τ key) →
    e.substitute σ = e.substitute τ
  | number _, _ => rfl
  | reference key, h => h key List.mem_cons_self
  | binary op left right, h => by
    rw [substitute, substitute,
      left.substitute_congr fun key hk => h key (List.mem_append_left _ hk),
      right.substitute_congr fun key hk => h key (List.mem_append_right _ hk)]
  | sign s operand, h => by rw [substitute, substitute, operand.substitute_congr h]
  | call name arguments, h => by rw [substitute, substitute, substituteAll_congr arguments h]

theorem substituteAll_congr : (es : List (Expression ν)) → (∀ key ∈ keysAll es, σ key = τ key) →
    substituteAll σ es = substituteAll τ es
  | [], _ => rfl
  | e :: rest, h => by
    rw [substituteAll, substituteAll,
      e.substitute_congr fun key hk => h key (List.mem_append_left _ hk),
      substituteAll_congr rest fun key hk => h key (List.mem_append_right _ hk)]

end

mutual

theorem substitute_reference : (e : Expression ν) → e.substitute .reference = e
  | number _ => rfl
  | reference _ => rfl
  | binary _ left right => by
    rw [substitute, left.substitute_reference, right.substitute_reference]
  | sign _ operand => by rw [substitute, operand.substitute_reference]
  | call _ arguments => by rw [substitute, substituteAll_reference arguments]

theorem substituteAll_reference : (es : List (Expression ν)) →
    substituteAll .reference es = es
  | [] => rfl
  | e :: rest => by rw [substituteAll, e.substitute_reference, substituteAll_reference rest]

end

/-- A replacement makes no difference to a substitution that does it anyway. -/
theorem Replaces.substitute_eq (hσ : ∀ key inner, meaning key inner → σ key = inner.substitute σ)
    (h : Replaces meaning e e') : e.substitute σ = e'.substitute σ := by
  induction h with
  | reference h => exact hσ _ _ h
  | left _ ih | right _ ih | sign _ ih => rw [substitute, substitute, ih]
  | argument _ ih =>
    rw [substitute, substitute, substituteAll_append, substituteAll_append, substituteAll, ih,
      substituteAll]

/-- Replacing ends with what the substitution makes of the expression at once. -/
theorem Inlined.eq_substitute (hσ : ∀ key inner, meaning key inner → σ key = inner.substitute σ)
    (hplain : ∀ key, (∀ inner, ¬ meaning key inner) → σ key = .reference key)
    (h : Inlined meaning e whole) : whole = e.substitute σ := by
  have hreached : e.substitute σ = whole.substitute σ := by
    obtain ⟨hr, -⟩ := h
    induction hr with
    | refl => rfl
    | tail _ hstep ih => exact ih.trans (hstep.substitute_eq hσ)
  calc whole
      = whole.substitute .reference := whole.substitute_reference.symm
    _ = whole.substitute σ :=
      whole.substitute_congr fun key hk => (hplain key (h.plain key hk)).symm
    _ = e.substitute σ := hreached.symm

/-! ### Ranks -/

/-- A key stands for one expression at most, and the keys in it are of lower rank. -/
structure Ranked (meaning : String → Expression ν → Prop) (rank : String → Nat) : Prop where
  unique {key : String} {inner other : Expression ν} :
    meaning key inner → meaning key other → other = inner
  descends {key : String} {inner : Expression ν} :
    meaning key inner → ∀ k ∈ inner.keys, rank k < rank key

namespace Ranked

variable {rank : String → Nat} (h : Ranked meaning rank)
include h

/-- What is worked out of an expression from its keys can be worked out of all keys along
the ranks. -/
theorem exists_fold {α : Type} (plain : String → α) (combine : (String → α) → Expression ν → α)
    (hc : ∀ s t inner, (∀ key ∈ inner.keys, s key = t key) → combine s inner = combine t inner) :
    ∃ s : String → α, (∀ key inner, meaning key inner → s key = combine s inner) ∧
      ∀ key, (∀ inner, ¬ meaning key inner) → s key = plain key := by
  classical
  let step (key : String) (s : (k : String) → rank k < rank key → α) : α :=
    if hm : ∃ inner, meaning key inner then
      combine (fun k => if hk : rank k < rank key then s k hk else plain k) hm.choose
    else plain key
  refine ⟨(measure rank).wf.fix step, fun key inner hm => ?_, fun key hn => ?_⟩
  · have hinner : ∃ inner, meaning key inner := ⟨inner, hm⟩
    rw [WellFounded.fix_eq]
    simp only [step, dif_pos hinner, h.unique hm hinner.choose_spec]
    exact hc _ _ _ fun k hk => dif_pos (h.descends hm k hk)
  · rw [WellFounded.fix_eq]
    exact dif_neg (not_exists.mpr hn)

/-- With suitable weights of the keys each replacement takes the weight down by one. -/
theorem exists_weight : ∃ weight : String → Nat, ∀ e e', Replaces meaning e e' →
    (e'.keys.map weight).sum + 1 = (e.keys.map weight).sum := by
  -- A key weighs one more than all the keys in what it stands for.
  obtain ⟨weight, hw, -⟩ := h.exists_fold (fun _ => 0)
    (fun s inner => (inner.keys.map s).sum + 1) fun s t inner hst => by
      rw [List.map_congr_left hst]
  refine ⟨weight, fun e e' hr => ?_⟩
  obtain ⟨before, key, inner, after, hm, he, he'⟩ := hr.keys_eq
  simp only [he, he', List.map_append, List.map_cons, List.sum_append, List.sum_cons,
    hw key inner hm]
  omega

/-- There is no replacing without end. -/
theorem wellFounded : WellFounded fun after before => Replaces meaning before after := by
  obtain ⟨weight, hw⟩ := h.exists_weight
  refine Subrelation.wf ?_ (measure fun e : Expression ν => (e.keys.map weight).sum).wf
  intro after before hr
  have heq := hw before after hr
  show (after.keys.map weight).sum < (before.keys.map weight).sum
  omega

theorem exists_inlined (e : Expression ν) : ∃ whole, Inlined meaning e whole := by
  induction e using h.wellFounded.induction with
  | _ e ih =>
    by_cases hp : ∃ key ∈ e.keys, ∃ inner, meaning key inner
    · obtain ⟨key, hk, inner, hm⟩ := hp
      obtain ⟨e', hr⟩ := exists_replaces hm e hk
      obtain ⟨whole, hw⟩ := ih e' hr
      exact ⟨whole, .head hr hw.reached, hw.plain⟩
    · exact ⟨e, .refl, fun key hk inner hm => hp ⟨key, hk, inner, hm⟩⟩

theorem inlined_unique {other : Expression ν} (hw : Inlined meaning e whole)
    (ho : Inlined meaning e other) : other = whole := by
  obtain ⟨σ, hσ, hplain⟩ := h.exists_fold .reference
    (fun σ inner => inner.substitute σ) fun _ _ inner => inner.substitute_congr
  rw [hw.eq_substitute hσ hplain, ho.eq_substitute hσ hplain]

end Ranked

/-! ### Values -/

section Values

variable [Arithmetic ν] (context : Context ν) (registry : Registry ν)

/-- The value of an expression, whatever the reason if there is none. -/
def value? (e : Expression ν) : Option ν :=
  (e.evaluate context registry).result.toOption

theorem value?_reference (key : String) :
    (reference key).value? context registry = context key := by
  rw [value?, evaluate]
  cases context key <;> rfl

theorem value?_binary (op : BinaryOperator) (left right : Expression ν) :
    (binary op left right).value? context registry =
      (left.value? context registry).bind fun l =>
        (right.value? context registry).bind fun r => (op.apply l r).toOption := by
  rw [value?, evaluate, Outcome.toOption_bind]
  simp only [Outcome.toOption_bind]
  rfl

theorem value?_sign (s : Sign) (operand : Expression ν) :
    (sign s operand).value? context registry =
      (operand.value? context registry).map fun value =>
        match s with
        | .negate => Arithmetic.neg value
        | .plus => value := by
  cases s with
  | negate =>
    rw [value?, evaluate, Outcome.toOption_bind, Option.map_eq_bind]
    rfl
  | plus => exact Option.map_id'.symm

theorem toOption_evaluateAll (es : List (Expression ν)) :
    (evaluateAll context registry es).result.toOption = es.mapM (value? context registry) := by
  induction es with
  | nil => rfl
  | cons e rest ih =>
    rw [evaluateAll, Outcome.toOption_bind, List.mapM_cons, ← ih]
    simp only [Outcome.toOption_bind]
    rfl

theorem value?_call (name : String) (arguments : List (Expression ν)) :
    (call name arguments).value? context registry =
      (arguments.mapM (value? context registry)).bind fun values =>
        (registry.apply name values).toOption := by
  rw [value?, evaluate, Outcome.toOption_bind, toOption_evaluateAll]
  rfl

variable {context}

/-- A replacement leaves the value as it is where the key has the value of what it stands for. -/
theorem Replaces.value?_eq
    (hc : ∀ key inner, meaning key inner → context key = inner.value? context registry)
    (h : Replaces meaning e e') : e'.value? context registry = e.value? context registry := by
  induction h with
  | reference h => rw [value?_reference, hc _ _ h]
  | left _ ih | right _ ih => rw [value?_binary, value?_binary, ih]
  | sign _ ih => rw [value?_sign, value?_sign, ih]
  | argument _ ih => simp only [value?_call, List.mapM_append, List.mapM_cons, ih]

theorem Inlined.value?_eq
    (hc : ∀ key inner, meaning key inner → context key = inner.value? context registry)
    (h : Inlined meaning e whole) : whole.value? context registry = e.value? context registry := by
  obtain ⟨hr, -⟩ := h
  induction hr with
  | refl => rfl
  | tail _ hstep ih => exact (hstep.value?_eq registry hc).trans ih

end Values

/-! ### Keys of programs -/

mutual

theorem filterMap_key?_postorder : (e : Expression ν) →
    e.postorder.filterMap Instruction.key? = e.keys
  | number _ => rfl
  | reference _ => rfl
  | binary op left right => by
    rw [postorder, List.filterMap_append, List.filterMap_append, left.filterMap_key?_postorder,
      right.filterMap_key?_postorder]
    exact List.append_nil _
  | sign .negate operand => by
    rw [postorder, List.filterMap_append, operand.filterMap_key?_postorder]
    exact List.append_nil _
  | sign .plus operand => operand.filterMap_key?_postorder
  | call name arguments => by
    rw [postorder, List.filterMap_append, filterMap_key?_postorderAll arguments]
    exact List.append_nil _

theorem filterMap_key?_postorderAll : (es : List (Expression ν)) →
    (postorderAll es).filterMap Instruction.key? = keysAll es
  | [] => rfl
  | e :: rest => by
    rw [postorderAll, List.filterMap_append, e.filterMap_key?_postorder,
      filterMap_key?_postorderAll rest, keysAll]

end

theorem references_program : e.program.references = distinct e.keys := by
  rw [Program.references, program, filterMap_key?_postorder]

theorem mem_references_program {key : String} : key ∈ e.program.references ↔ key ∈ e.keys := by
  rw [references_program, mem_distinct]

theorem find?_map_references_program (f : String → String) (test : String → Bool) :
    (e.program.references.map f).find? test = (e.keys.map f).find? test := by
  rw [references_program, List.find?_map, List.find?_map, find?_distinct]

theorem toOption_evaluate_program [Arithmetic ν] (e : Expression ν) (context : Context ν)
    (registry : Registry ν) :
    (e.program.evaluate context registry).toOption = e.value? context registry := by
  rw [Program.evaluate, trace_program, value?]

end Expression

end Scorecard.Formula
