import Scorecard.Proofs.Consolidation.Filling

/-! What the formulas of a run come to in each bucket. A formula is evaluated over the table
as far as it is filled, but it comes to the same over the table in the end. So a run can be
told from the table in the end: it counts the results by their kinds, and a strict run ends
at the first of them that is a failure for more than a missing value. -/
namespace Scorecard.Consolidation

open Formula (Context EvaluationError Program Registry referenceName)

variable {ν : Type}

/-! ### Counts of results -/

/-- A value that the formula refers to is missing. -/
def isUnresolved : Except EvaluationError ν → Bool
  | .ok _ => false
  | .error fault => fault.isRecoverable

/-- The formula fails for more than a missing value. -/
def isFailed : Except EvaluationError ν → Bool
  | .ok _ => false
  | .error fault => !fault.isRecoverable

theorem isRecoverable_iff {fault : EvaluationError} :
    fault.isRecoverable ↔ ∃ key, fault = .unresolvedReference key := by
  cases fault <;> simp [EvaluationError.isRecoverable]

theorem exists_of_isUnresolved {result : Except EvaluationError ν} (h : isUnresolved result) :
    ∃ key, result = .error (.unresolvedReference key) := by
  cases result with
  | ok value => contradiction
  | error fault =>
    obtain ⟨key, rfl⟩ := isRecoverable_iff.mp h
    exact ⟨key, rfl⟩

/-- The failure of a result, if it is more than a missing value. -/
def failure? : Except EvaluationError ν → Option EvaluationError
  | .error fault => if fault.isRecoverable then none else some fault
  | .ok _ => none

theorem firstFailure?_eq (results : List (Except EvaluationError ν)) :
    firstFailure? results = results.findSome? failure? := rfl

theorem failure?_eq_none_iff {result : Except EvaluationError ν} :
    failure? result = none ↔ isFailed result = false := by
  cases result with
  | ok value => simp [failure?, isFailed]
  | error fault => simp [failure?, isFailed]

theorem failure?_eq_some_iff {result : Except EvaluationError ν} {fault : EvaluationError} :
    failure? result = some fault ↔ result = .error fault ∧ fault.isRecoverable = false := by
  cases result with
  | ok value => simp [failure?]
  | error found =>
    simp only [failure?, Except.error.injEq]
    cases h : found.isRecoverable <;> grind

theorem firstFailure?_eq_none_iff {results : List (Except EvaluationError ν)} :
    firstFailure? results = none ↔ ∀ result ∈ results, isFailed result = false := by
  rw [firstFailure?_eq, List.findSome?_eq_none_iff]
  exact forall₂_congr fun _ _ => failure?_eq_none_iff

/-- The first failure is that of the first member that fails. -/
theorem firstFailure?_map_eq_some_iff {α : Type} {f : α → Except EvaluationError ν}
    {members : List α} {fault : EvaluationError} :
    firstFailure? (members.map f) = some fault ↔ ∃ before a after,
      members = before ++ a :: after ∧ (f a = .error fault ∧ fault.isRecoverable = false) ∧
        ∀ b ∈ before, isFailed (f b) = false := by
  rw [firstFailure?_eq, List.findSome?_map, List.findSome?_eq_some_iff]
  simp only [Function.comp_apply, failure?_eq_some_iff, failure?_eq_none_iff]

namespace Tally

instance : Add Tally where
  add a b := ⟨a.evaluated + b.evaluated, a.unresolved + b.unresolved, a.failed + b.failed⟩

theorem add_assoc (a b c : Tally) : a + b + c = a + (b + c) := by
  show Tally.mk (_ + _ + _) (_ + _ + _) (_ + _ + _) = Tally.mk _ _ _
  simp only [Nat.add_assoc]
  rfl

def total (tally : Tally) : Nat :=
  tally.evaluated + tally.unresolved + tally.failed

theorem total_add (a b : Tally) : (a + b).total = a.total + b.total := by
  show (_ + _) + (_ + _) + (_ + _) = (_ + _ + _) + (_ + _ + _)
  omega

/-- How many results there are of each kind. -/
def of (results : List (Except EvaluationError ν)) : Tally where
  evaluated := results.countP Except.isOk
  unresolved := results.countP isUnresolved
  failed := results.countP isFailed

theorem of_append (results more : List (Except EvaluationError ν)) :
    of (results ++ more) = of results + of more := by
  simp only [of, List.countP_append]
  rfl

theorem of_perm {results others : List (Except EvaluationError ν)} (h : results.Perm others) :
    of results = of others := by
  simp only [of, h.countP_eq]

theorem count_eq_add (tally : Tally) (result : Except EvaluationError ν) :
    tally.count result = tally + of [result] := by
  cases result with
  | ok value => rfl
  | error fault =>
    cases h : fault.isRecoverable with
    | true =>
      simp only [count, of, isUnresolved, isFailed, h, List.countP_singleton]
      rfl
    | false =>
      simp only [count, of, isUnresolved, isFailed, h, List.countP_singleton]
      rfl

theorem foldl_count (results : List (Except EvaluationError ν)) (tally : Tally) :
    results.foldl count tally = tally + of results := by
  induction results generalizing tally with
  | nil => rfl
  | cons result rest ih =>
    rw [List.foldl_cons, ih, count_eq_add, add_assoc, ← of_append, List.singleton_append]

/-- Every result is of one kind. -/
theorem total_of (results : List (Except EvaluationError ν)) :
    (of results).total = results.length := by
  induction results with
  | nil => rfl
  | cons result rest ih =>
    have hone : (of [result]).total = 1 := by
      cases result with
      | ok value => rfl
      | error fault =>
        cases h : fault.isRecoverable <;>
          simp only [of, isUnresolved, isFailed, h, List.countP_singleton] <;> rfl
    rw [← List.singleton_append, of_append, total_add, hone, ih, List.length_append,
      List.length_singleton]

end Tally

/-! ### The formulas of a run -/

theorem Supports.left {programs : Std.TreeMap String (Program ν)} {order more : List String}
    (h : Supports programs (order ++ more)) :
    Supports programs order := by
  rintro before name after rfl
  exact h before name (after ++ more) (by rw [List.append_assoc, List.cons_append])

variable [Arithmetic ν]

section Formulas

section Order

variable (programs : Std.TreeMap String (Program ν)) (table : Table ν) (size : Nat)

/-- What the formula of a name comes to in each bucket; other names come to nothing. -/
def resultsOf (name : String) : List (Except EvaluationError ν) :=
  match programs.get? name with
  | some program => evaluateBuckets table program size
  | none => []

/-- The first name in an order whose formula fails, and its first failure. -/
def firstFault? (order : List String) : Option (String × EvaluationError) :=
  order.findSome? fun name =>
    (firstFailure? (resultsOf programs table size name)).map (name, ·)

end Order

variable {programs : Std.TreeMap String (Program ν)} {table : Table ν} {size : Nat}
  {order : List String}

/-- A formula put in under a new name changes nothing for those before it. -/
theorem resultsOf_insert {name earlier : String}
    (hs : ∀ program, programs.get? earlier = some program →
      ∀ key ∈ program.references, referenceName key ≠ name) (series : Array (Option ν)) :
    resultsOf programs (table.insert name series) size earlier =
      resultsOf programs table size earlier := by
  unfold resultsOf
  split
  case h_1 program hp =>
    refine evaluateBuckets_congr (fun key hk => ?_) size
    exact Table.get?_insert_of_ne (hs program hp key hk).symm series
  case h_2 => rfl

theorem firstFault?_congr {other : Table ν} (h : ∀ name ∈ order,
    resultsOf programs table size name = resultsOf programs other size name) :
    firstFault? programs table size order = firstFault? programs other size order := by
  induction order with
  | nil => rfl
  | cons name rest ih =>
    obtain ⟨hname, hrest⟩ := List.forall_mem_cons.mp h
    unfold firstFault? at ih ⊢
    rw [List.findSome?_cons, List.findSome?_cons, hname, ih hrest]

theorem flatMap_resultsOf_congr {other : Table ν} (h : ∀ name ∈ order,
    resultsOf programs table size name = resultsOf programs other size name) :
    order.flatMap (resultsOf programs table size) =
      order.flatMap (resultsOf programs other size) := by
  rw [List.flatMap_def, List.flatMap_def, List.map_congr_left h]

/-- How the formulas come out, told from the table in the end. -/
def conclude (strict : Bool) (programs : Std.TreeMap String (Program ν)) (table : Table ν)
    (size : Nat) (order : List String) : Except Error (Table ν × Tally) :=
  match if strict then firstFault? programs table size order else none with
  | some (name, fault) => .error (.formula name (.evaluation fault))
  | none => .ok (table, .of (order.flatMap (resultsOf programs table size)))

theorem evaluateAll_snoc (strict : Bool) (order : List String) (name : String)
    (start : Table ν) : evaluateAll strict size programs (order ++ [name]) start =
      (evaluateAll strict size programs order start >>= fun state =>
        match programs.get? name with
        | some program => evaluateFormula strict size state name program
        | none => .ok state) := by
  unfold evaluateAll
  rw [List.foldlM_append]
  congr 1
  funext state
  exact bind_pure _

theorem firstFault?_snoc (name : String) : firstFault? programs table size (order ++ [name]) =
    (firstFault? programs table size order).or
      ((firstFailure? (resultsOf programs table size name)).map (name, ·)) := by
  rw [firstFault?, List.findSome?_append, List.findSome?_singleton]
  rfl

theorem flatMap_snoc {α : Type} (f : String → List α) (order : List String) (name : String) :
    (order ++ [name]).flatMap f = order.flatMap f ++ f name := by
  rw [List.flatMap_append, List.flatMap_singleton]

theorem conclude_skip {name : String} (hp : programs.get? name = none) (strict : Bool) :
    conclude strict programs table size (order ++ [name]) =
      conclude strict programs table size order := by
  have hnone : resultsOf programs table size name = [] := by rw [resultsOf, hp]
  unfold conclude
  rw [firstFault?_snoc, flatMap_snoc, hnone, List.append_nil]
  show (match if strict then (firstFault? programs table size order).or none else none with
    | some (name, fault) => _ | none => _) = _
  rw [Option.or_none]

theorem conclude_insert {name : String} {program : Program ν}
    (hp : programs.get? name = some program) {next : Table ν}
    (hsame : ∀ earlier ∈ order ++ [name],
      resultsOf programs next size earlier = resultsOf programs table size earlier)
    (hnext : next = table.insert name (solution table size program)) (strict : Bool) :
    conclude strict programs next size (order ++ [name]) =
      conclude strict programs table size order >>= fun state =>
        evaluateFormula strict size state name program := by
  have hresults : resultsOf programs table size name = evaluateBuckets table program size := by
    rw [resultsOf, hp]
  unfold conclude
  rw [firstFault?_congr hsame, flatMap_resultsOf_congr hsame, firstFault?_snoc, flatMap_snoc,
    Tally.of_append, hresults]
  cases strict with
  | false =>
    simp only [Bool.false_eq_true, if_false]
    show _ = evaluateFormula false size (table, _) name program
    simp only [evaluateFormula, Tally.foldl_count, hnext]
    rfl
  | true =>
    simp only [if_true]
    cases firstFault? programs table size order with
    | some fault => rfl
    | none =>
      show _ = evaluateFormula true size (table, _) name program
      simp only [evaluateFormula, Tally.foldl_count, hnext, Option.none_or]
      cases firstFailure? (evaluateBuckets table program size) with
      | some fault => rfl
      | none => rfl

/-- A formula that fails makes no difference to the table of a run that is not strict. Where
no formula fails, a strict run has the same table. -/
theorem exists_evaluateAll (hs : Supports programs order) (start : Table ν) :
    ∃ table, Filled programs size start order table ∧ ∀ strict,
      evaluateAll strict size programs order start = conclude strict programs table size order := by
  induction order using List.reverseRecOn with
  | nil =>
    refine ⟨start, ⟨fun _ => rfl, by simp, by simp⟩, fun strict => ?_⟩
    cases strict <;> rfl
  | append_singleton order name ih =>
    obtain ⟨table, hfilled, heq⟩ := ih hs.left
    obtain ⟨hfresh, hrefs⟩ := hs order name [] rfl
    cases hp : programs.get? name with
    | none =>
      refine ⟨table, hfilled.skip hp, fun strict => ?_⟩
      rw [evaluateAll_snoc, heq, conclude_skip hp, hp]
      exact bind_pure _
    | some program =>
      refine ⟨_, hfilled.insert hp hfresh (hrefs program hp), fun strict => ?_⟩
      rw [evaluateAll_snoc, heq, hp]
      refine (conclude_insert hp (fun earlier he => resultsOf_insert ?_ _) rfl strict).symm
      rintro other ho key hk rfl
      rcases List.mem_append.mp he with he | he
      · exact hfresh (hfilled.references he ho key hk)
      · rw [List.mem_singleton.mp he] at ho
        exact hfresh (hrefs other ho key hk)

/-! ### Failures -/

theorem firstFault?_eq_some_iff {name : String} {fault : EvaluationError} :
    firstFault? programs table size order = some (name, fault) ↔ ∃ before after,
      order = before ++ name :: after ∧
        (∀ earlier ∈ before, firstFailure? (resultsOf programs table size earlier) = none) ∧
        firstFailure? (resultsOf programs table size name) = some fault := by
  rw [firstFault?, List.findSome?_eq_some_iff]
  simp only [Option.map_eq_some_iff, Option.map_eq_none_iff, Prod.mk.injEq]
  constructor
  · rintro ⟨before, _, after, rfl, ⟨_, hf, rfl, rfl⟩, hnone⟩
    exact ⟨before, after, rfl, hnone, hf⟩
  · rintro ⟨before, after, rfl, hnone, hf⟩
    exact ⟨before, name, after, rfl, ⟨fault, hf, rfl, rfl⟩, hnone⟩

/-- No formula fails where no failure is counted. -/
theorem firstFault?_eq_none_iff : firstFault? programs table size order = none ↔
    (Tally.of (order.flatMap (resultsOf programs table size))).failed = 0 := by
  rw [firstFault?, List.findSome?_eq_none_iff, Tally.of, List.countP_eq_zero]
  simp only [List.mem_flatMap, Option.map_eq_none_iff, firstFailure?_eq_none_iff,
    Bool.not_eq_true]
  constructor
  · rintro h result ⟨name, hn, hr⟩
    exact h name hn result hr
  · intro h name hn result hr
    exact h result ⟨name, hn, hr⟩

end Formulas

end Scorecard.Consolidation
