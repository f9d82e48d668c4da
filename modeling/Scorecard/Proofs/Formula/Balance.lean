import Scorecard.Formula.Source
import Scorecard.Proofs.Formula.Faults

/-! A static check of programs. It walks over the instructions with the number of values
on the stack in place of the values themselves. A run that goes through to a value has
passed the check on the way, and a run that ends because the program is malformed fails it
at the same instruction. Programs of expressions pass, so whatever is converted does. -/
namespace Scorecard.Formula

/-- What can be told of a machine without its values. -/
structure Balance where
  /-- How many values are on the stack. -/
  depth : Nat
  /-- The argument counts not yet used. -/
  arities : List Nat
  deriving DecidableEq, Repr

namespace Balance

variable {ν : Type}

/-- One instruction; `none` if there are too few values for it, or no argument count. -/
def step? (b : Balance) : Instruction ν → Option Balance
  | .number _ | .reference _ => some { b with depth := b.depth + 1 }
  | .operator _ => if 2 ≤ b.depth then some { b with depth := b.depth - 1 } else none
  | .negate => if 1 ≤ b.depth then some b else none
  | .call _ =>
    match b.arities with
    | [] => none
    | count :: arities =>
      if count ≤ b.depth then some ⟨b.depth - count + 1, arities⟩ else none

theorem step?_call (depth count : Nat) (arities : List Nat) (name : String) :
    step? ⟨depth, count :: arities⟩ (.call name : Instruction ν) =
      if count ≤ depth then some ⟨depth - count + 1, arities⟩ else none := rfl

def run? (b : Balance) : List (Instruction ν) → Option Balance
  | [] => some b
  | instruction :: rest => (b.step? instruction).bind fun next => next.run? rest

/-- One value is left, and every argument count is used. -/
def settled : Balance := ⟨1, []⟩

end Balance

/-- The walk over a program ends with one value and no argument count left. -/
def Program.Balanced {ν : Type} (p : Program ν) : Prop :=
  Balance.run? ⟨0, p.arities⟩ p.instructions = some .settled

instance {ν : Type} (p : Program ν) : Decidable p.Balanced :=
  inferInstanceAs (Decidable (Balance.run? ⟨0, p.arities⟩ p.instructions = some .settled))

/-- No function blames the program that calls it. -/
def Registry.Blameless {ν : Type} (registry : Registry ν) : Prop :=
  ∀ name f arguments malformation, registry.get? name = some f →
    f.run arguments ≠ .error (.malformedProgram malformation)

variable {ν : Type}

theorem Registry.blameless_standard [Arithmetic ν] : (standard : Registry ν).Blameless :=
  fun name f arguments _ => failsOnValues_standard name f arguments _

/-! ### Runs and the walk -/

theorem Registry.Blameless.apply_ne {registry : Registry ν} (hr : registry.Blameless)
    (name : String) (values : List ν) (malformation : Malformation) :
    registry.apply name values ≠ .error (.malformedProgram malformation) := by
  unfold Registry.apply
  split
  case h_1 => simp
  case h_2 hf => exact hr name _ values malformation hf
  case h_3 hf =>
    split
    · exact hr name _ values malformation hf
    · simp

namespace Machine

def balance (m : Machine ν) : Balance :=
  ⟨m.stack.length, m.arities⟩

/-- The walk goes along with what a step came to, unless the step failed for a reason
that the walk knows nothing of. -/
def Seen : Except EvaluationError (Machine ν) → Option Balance → Prop
  | .ok next, seen => seen = some next.balance
  | .error (.malformedProgram _), seen => seen = none
  | .error _, _ => True

theorem seen_error {fault : EvaluationError} {seen : Option Balance}
    (h : ∀ malformation, fault ≠ .malformedProgram malformation) :
    Seen (.error fault : Except EvaluationError (Machine ν)) seen := by
  cases fault with
  | malformedProgram malformation => exact absurd rfl (h malformation)
  | unresolvedReference | divisionByZero | unknownFunction | argumentCount | invalidArgument =>
    trivial

theorem call_seen {registry : Registry ν} (hr : registry.Blameless) (m : Machine ν)
    (name : String) :
    Seen (m.call registry name) (m.balance.step? (.call name : Instruction ν)) := by
  obtain ⟨stack, arities⟩ := m
  cases arities with
  | nil => rfl
  | cons count arities =>
    show Seen _ (Balance.step? ⟨stack.length, count :: arities⟩ _)
    rw [Balance.step?_call]
    by_cases hc : count ≤ stack.length
    · rw [if_pos hc]
      have hcall :=
        call_eq_apply registry name (stack.take count).reverse (stack.drop count) arities
      rw [List.reverse_reverse, List.take_append_drop, List.length_reverse,
        List.length_take_of_le hc] at hcall
      rw [hcall]
      cases hv : registry.apply name (stack.take count).reverse with
      | ok value => simp [Except.map, Seen, balance]
      | error fault =>
        exact seen_error fun malformation he => hr.apply_ne name _ malformation (he ▸ hv)
    · rw [if_neg hc]
      simp only [call, if_pos (Nat.lt_of_not_le hc)]
      rfl

/-- A machine has its value if it is settled, and otherwise the program is malformed. -/
theorem value_cases (m : Machine ν) :
    (∃ value, m.value = .ok value ∧ m.balance = .settled) ∨
      ∃ malformation, m.value = .error (.malformedProgram malformation) ∧ m.balance ≠ .settled := by
  obtain ⟨stack, arities⟩ := m
  match stack, arities with
  | [value], [] => exact .inl ⟨value, rfl, rfl⟩
  | [], [] => exact .inr ⟨_, rfl, by simp [balance, Balance.settled]⟩
  | first :: second :: rest, [] => exact .inr ⟨_, rfl, by simp [balance, Balance.settled]⟩
  | _, count :: arities => exact .inr ⟨_, rfl, by simp [balance, Balance.settled]⟩

variable [Arithmetic ν] {registry : Registry ν}

theorem step_seen (hr : registry.Blameless) (context : Context ν) (m : Machine ν)
    (instruction : Instruction ν) :
    Seen (m.step context registry instruction) (m.balance.step? instruction) := by
  obtain ⟨stack, arities⟩ := m
  cases instruction with
  | number value => rfl
  | reference key =>
    simp only [step]
    cases context key with
    | none => trivial
    | some value => rfl
  | operator op =>
    rcases stack with - | ⟨right, - | ⟨left, below⟩⟩
    · rfl
    · rfl
    · simp only [step]
      cases ha : op.apply left right with
      | ok value => rfl
      | error fault =>
        have harithmetic := BinaryOperator.isArithmetic_of_apply ha
        exact seen_error fun malformation he => by rwa [he] at harithmetic
  | negate =>
    cases stack with
    | nil => rfl
    | cons value below => rfl
  | call name => exact call_seen hr _ name

/-- A run that comes to a value has a walk that ends settled; the walk along a run that
finds the program malformed does not. -/
theorem run_seen (hr : registry.Blameless) (context : Context ν) (asked : List String)
    (instructions : List (Instruction ν)) (m : Machine ν) :
    (∀ value, (m.run context registry asked instructions).result = .ok value →
      m.balance.run? instructions = some .settled) ∧
    ∀ malformation,
      (m.run context registry asked instructions).result = .error (.malformedProgram malformation) →
      m.balance.run? instructions ≠ some .settled := by
  induction instructions generalizing asked m with
  | nil =>
    rcases m.value_cases with ⟨value, hv, hb⟩ | ⟨malformation, hv, hb⟩
    · exact ⟨fun _ _ => congrArg some hb, fun _ he => by simp [run, hv] at he⟩
    · exact ⟨fun _ he => by simp [run, hv] at he, fun _ _ he => hb (Option.some.inj he)⟩
  | cons instruction rest ih =>
    have hs := step_seen hr context m instruction
    rw [run, Balance.run?]
    cases hm : m.step context registry instruction with
    | ok next =>
      rw [hm, Seen] at hs
      rw [hs, Option.bind_some]
      exact ih _ next
    | error fault =>
      rw [hm] at hs
      refine ⟨fun _ he => by simp at he, fun malformation he => ?_⟩
      obtain rfl : fault = .malformedProgram malformation := by simpa using he
      rw [Seen] at hs
      rw [hs]
      simp

end Machine

/-! ### Programs of expressions -/

namespace Expression

mutual

/-- The walk over an expression uses up its argument counts and leaves one value more. -/
theorem run?_postorder (depth : Nat) (counts : List Nat) (rest : List (Instruction ν)) :
    (e : Expression ν) → Balance.run? ⟨depth, e.arities ++ counts⟩ (e.postorder ++ rest) =
      Balance.run? ⟨depth + 1, counts⟩ rest
  | number _ => rfl
  | reference _ => rfl
  | binary op left right => by
    rw [arities, postorder, List.append_assoc, List.append_assoc, List.append_assoc,
      left.run?_postorder, right.run?_postorder, List.singleton_append, Balance.run?]
    simp [Balance.step?]
  | sign .negate operand => by
    rw [arities, postorder, List.append_assoc, operand.run?_postorder, List.singleton_append,
      Balance.run?]
    simp [Balance.step?]
  | sign .plus operand => operand.run?_postorder depth counts rest
  | call name arguments => by
    rw [arities, postorder, List.append_assoc, List.append_assoc, run?_postorderAll,
      List.singleton_append, List.singleton_append, Balance.run?]
    simp [Balance.step?]

theorem run?_postorderAll (depth : Nat) (counts : List Nat) (rest : List (Instruction ν)) :
    (es : List (Expression ν)) →
      Balance.run? ⟨depth, aritiesAll es ++ counts⟩ (postorderAll es ++ rest) =
        Balance.run? ⟨depth + es.length, counts⟩ rest
  | [] => rfl
  | e :: es => by
    rw [aritiesAll, postorderAll, List.append_assoc, List.append_assoc, e.run?_postorder,
      run?_postorderAll, List.length_cons, Nat.add_assoc, Nat.add_comm 1]

end

theorem balanced_program (e : Expression ν) : e.program.Balanced := by
  have h := e.run?_postorder 0 [] []
  rwa [List.append_nil, List.append_nil] at h

end Expression

mutual

/-- Every call that is written has an argument. -/
theorem Parses.arities_pos {level : Nat} {tokens : List (Token ν)} {e : Expression ν}
    (h : Parses level tokens e) : ∀ count ∈ e.arities, 1 ≤ count := by
  match h with
  | .number => simp [Expression.arities]
  | .reference => simp [Expression.arities]
  | .sign _ he => exact he.arities_pos
  | .binary _ hl hr =>
    intro count hc
    rcases List.mem_append.mp hc with hc | hc
    · exact hl.arities_pos count hc
    · exact hr.arities_pos count hc
  | .group he => exact he.arities_pos
  | .call ha =>
    intro count hc
    rcases List.mem_append.mp hc with hc | hc
    · exact ha.arities_pos.2 count hc
    · rw [List.mem_singleton.mp hc]
      exact ha.arities_pos.1

theorem ParsesArguments.arities_pos {tokens : List (Token ν)} {arguments : List (Expression ν)}
    (h : ParsesArguments tokens arguments) :
    1 ≤ arguments.length ∧ ∀ count ∈ Expression.aritiesAll arguments, 1 ≤ count := by
  match h with
  | .first he => exact ⟨Nat.le_refl 1, by simpa [Expression.aritiesAll] using he.arities_pos⟩
  | .next ha he =>
    refine ⟨by simp, fun count hc => ?_⟩
    rw [Expression.aritiesAll_append, List.mem_append] at hc
    rcases hc with hc | hc
    · exact ha.arities_pos.2 count hc
    · exact he.arities_pos count (by simpa [Expression.aritiesAll] using hc)

end

theorem balanced_of_convert {limits : Limits} {tokens : List (Token ν)} {program : Program ν}
    (h : convert limits tokens = .ok program) :
    program.Balanced ∧ ∀ count ∈ program.arities, 1 ≤ count := by
  obtain ⟨e, he, rfl⟩ := convert_eq_ok_iff.mp h
  exact ⟨e.balanced_program, (parses_of_expression? he).arities_pos⟩

variable [Arithmetic ν]

theorem exists_convert_of_compile {limits : Limits} {text : String} {program : Program ν}
    (h : compile limits text = .ok program) :
    ∃ tokens, tokenize text = .ok tokens ∧ convert limits tokens = .ok program := by
  unfold compile at h
  split at h
  · contradiction
  · split at h
    · contradiction
    case h_2 tokens ht =>
      refine ⟨tokens, ht, ?_⟩
      cases hc : convert limits tokens with
      | ok found =>
        rw [hc] at h
        cases h
        rfl
      | error fault =>
        rw [hc] at h
        contradiction

/-- If a program comes to a value it passes the check, and if it turns out malformed it
fails it, unless a function of the registry says so. Programs of token lists and of texts
always pass, and none of their calls is without an argument. -/
theorem balanced_of_evaluate {registry : Registry ν} (hr : registry.Blameless) :
    (∀ (program : Program ν) (context : Context ν),
      (∀ value, program.evaluate context registry = .ok value → program.Balanced) ∧
      ∀ malformation, program.evaluate context registry = .error (.malformedProgram malformation) →
        ¬ program.Balanced) ∧
    (∀ (limits : Limits) (tokens : List (Token ν)) program, convert limits tokens = .ok program →
      program.Balanced ∧ ∀ count ∈ program.arities, 1 ≤ count) ∧
    ∀ (limits : Limits) (text : String) (program : Program ν), compile limits text = .ok program →
      program.Balanced ∧ ∀ count ∈ program.arities, 1 ≤ count := by
  refine ⟨fun program context => ?_, fun _ _ _ => balanced_of_convert, ?_⟩
  · exact Machine.run_seen hr context [] program.instructions ⟨[], program.arities⟩
  · intro limits text program h
    obtain ⟨tokens, -, hc⟩ := exists_convert_of_compile h
    exact balanced_of_convert hc

theorem balanced_of_evaluate_standard :
    (Registry.standard : Registry Float).Blameless ∧
      (⟨[.number 3, .number 4, .call "sum", .negate], [2]⟩ : Program Float).Balanced ∧
      ¬ (⟨[.number 3, .call "sum"], [18446744073709551615]⟩ : Program Float).Balanced ∧
      ∃ program, convert .standard signedPowerTokens = .ok program ∧ program.Balanced := by
  have hr : (Registry.standard : Registry Float).Blameless := Registry.blameless_standard
  obtain ⟨hevaluate, hconvert, -⟩ := balanced_of_evaluate hr
  refine ⟨hr, (hevaluate _ .none).1 (-Arithmetic.total [3, 4]) rfl,
    (hevaluate _ .none).2 .stackUnderflow rfl, _, rfl,
    (hconvert .standard signedPowerTokens _ rfl).1⟩

end Scorecard.Formula
