import Scorecard.Formula.Evaluation
import Scorecard.Number.Binary
import Scorecard.Proofs.Formula.Acceptance

/-! Evaluation by recursion over the expression, from left to right, and its
agreement with the stack machine: the same value or the same first failure, and
the same keys asked for. These are the keys of the text in the order of the text,
up to where the recursion stops. The arithmetic may be any. -/
namespace Scorecard.Formula

namespace Outcome

variable {α β γ : Type}

/-- What nothing has to be asked for. -/
def unasked (result : Except EvaluationError α) : Outcome α := ⟨result, []⟩

/-- Go on with the value. What is asked for later comes behind. -/
def andThen (o : Outcome α) (next : α → Outcome β) : Outcome β :=
  match o.result with
  | .ok value => ⟨(next value).result, o.lookups ++ (next value).lookups⟩
  | .error fault => ⟨.error fault, o.lookups⟩

instance : Monad Outcome where
  pure value := unasked (.ok value)
  bind := andThen

/-- Go on with the value and the keys asked for so far, the latest first. -/
def resume (o : Outcome α) (asked : List String) (next : List String → α → Outcome β) :
    Outcome β :=
  match o.result with
  | .ok value => next (o.lookups.reverse ++ asked) value
  | .error fault => ⟨.error fault, (o.lookups.reverse ++ asked).reverse⟩

theorem resume_bind (o : Outcome α) (f : α → Outcome β) (asked : List String)
    (next : List String → β → Outcome γ) :
    (o >>= f).resume asked next =
      o.resume asked fun asked value => (f value).resume asked next := by
  obtain ⟨result, lookups⟩ := o
  cases result with
  | ok value => simp [bind, andThen, resume]
  | error fault => rfl

theorem resume_pure (value : α) (asked : List String) (next : List String → α → Outcome β) :
    (pure value : Outcome α).resume asked next = next asked value := rfl

theorem resume_congr {o : Outcome α} {asked : List String}
    {next next' : List String → α → Outcome β}
    (h : ∀ asked value, o.result = .ok value → next asked value = next' asked value) :
    o.resume asked next = o.resume asked next' := by
  obtain ⟨result, lookups⟩ := o
  cases result with
  | ok value => exact h _ value rfl
  | error fault => rfl

theorem result_bind {o : Outcome α} {f : α → Outcome β} {value : β}
    (h : (o >>= f).result = .ok value) : ∃ a, o.result = .ok a ∧ (f a).result = .ok value := by
  obtain ⟨result, lookups⟩ := o
  cases result with
  | ok a => exact ⟨a, rfl, h⟩
  | error fault => contradiction

/-- At most the given keys are asked for, in their order, and all of them if there
is a value. -/
structure Asks (o : Outcome α) (keys : List String) : Prop where
  isPrefix : o.lookups <+: keys
  all (value : α) : o.result = .ok value → o.lookups = keys

theorem asks_unasked (result : Except EvaluationError α) : (unasked result).Asks [] :=
  ⟨List.nil_prefix, fun _ _ => rfl⟩

theorem Asks.bind {o : Outcome α} {f : α → Outcome β} {keys more : List String}
    (h : o.Asks keys) (hf : ∀ value, (f value).Asks more) : (o >>= f).Asks (keys ++ more) := by
  obtain ⟨result, lookups⟩ := o
  cases result with
  | ok value =>
    obtain rfl : lookups = keys := h.all value rfl
    refine ⟨(List.prefix_append_right_inj _).mpr (hf value).isPrefix, ?_⟩
    intro v hv
    exact congrArg (lookups ++ ·) ((hf value).all v hv)
  | error fault =>
    refine ⟨h.isPrefix.trans (List.prefix_append ..), ?_⟩
    intro v hv
    contradiction

theorem Asks.last {o : Outcome α} {keys : List String} (h : o.Asks keys)
    (f : α → Except EvaluationError β) : (o >>= fun value => unasked (f value)).Asks keys := by
  have hf := h.bind fun value => asks_unasked (f value)
  rwa [List.append_nil] at hf

end Outcome

variable {ν : Type}

def TokenKind.key? : TokenKind ν → Option String
  | .quoted key => some key
  | _ => none

/-- The reference keys of a token list, in the order of the text. -/
def keys (tokens : List (Token ν)) : List String :=
  tokens.filterMap (·.kind.key?)

theorem keys_append (xs ys : List (Token ν)) : keys (xs ++ ys) = keys xs ++ keys ys :=
  List.filterMap_append

theorem keys_cons_of_none {token : Token ν} (h : token.kind.key? = none) (rest : List (Token ν)) :
    keys (token :: rest) = keys rest :=
  List.filterMap_cons_none h

theorem IsSign.key?_eq {kind : TokenKind ν} {sign : Sign} (h : IsSign kind sign) :
    kind.key? = none := by
  cases h <;> rfl

namespace Expression

mutual

/-- The reference keys of an expression, from left to right. -/
def keys : Expression ν → List String
  | number _ => []
  | reference key => [key]
  | binary _ left right => left.keys ++ right.keys
  | sign _ operand => operand.keys
  | call _ arguments => keysAll arguments

def keysAll : List (Expression ν) → List String
  | [] => []
  | e :: rest => e.keys ++ keysAll rest

end

theorem keysAll_append (xs ys : List (Expression ν)) :
    keysAll (xs ++ ys) = keysAll xs ++ keysAll ys := by
  induction xs with
  | nil => rfl
  | cons e rest ih => simp only [List.cons_append, keysAll, ih, List.append_assoc]

end Expression

/-- The list between a pair of parentheses has the keys of the whole. -/
theorem keys_parenthesized (tokens : List (Token ν)) (opening closing : Nat) :
    keys (⟨.leftParen, opening⟩ :: tokens ++ [⟨.rightParen, closing⟩]) = keys tokens := by
  rw [keys_append, keys_cons_of_none rfl]
  exact List.append_nil _

mutual

theorem Parses.keys {level : Nat} {tokens : List (Token ν)} {e : Expression ν}
    (h : Parses level tokens e) : e.keys = Formula.keys tokens := by
  match h with
  | .number => rfl
  | .reference => rfl
  | .sign hk he => rw [Expression.keys, he.keys, keys_cons_of_none hk.key?_eq]
  | .binary _ hl hr =>
    rw [Expression.keys, hl.keys, hr.keys, keys_append, keys_cons_of_none rfl]
  | .group he => rw [he.keys, keys_parenthesized]
  | .call ha =>
    rw [Expression.keys, ha.keys, List.cons_append, keys_cons_of_none rfl, keys_parenthesized]

theorem ParsesArguments.keys {tokens : List (Token ν)} {arguments : List (Expression ν)}
    (h : ParsesArguments tokens arguments) :
    Expression.keysAll arguments = Formula.keys tokens := by
  match h with
  | .first he => rw [Expression.keysAll, Expression.keysAll, List.append_nil, he.keys]
  | .next ha he =>
    rw [Expression.keysAll_append, ha.keys, Expression.keysAll, Expression.keysAll,
      List.append_nil, he.keys, keys_append, keys_cons_of_none rfl]

end

/-- Look the function up, then check the number of arguments, then run it. -/
def Registry.apply (registry : Registry ν) (name : String) (values : List ν) :
    Except EvaluationError ν :=
  match registry.get? name with
  | none => .error (.unknownFunction name)
  | some ⟨.variadic, run⟩ => run values
  | some ⟨.fixed count, run⟩ =>
    if values.length = count then run values
    else .error (.argumentCount name count values.length)

/-- A call takes what the last of its arguments left on top. -/
theorem Machine.call_eq_apply (registry : Registry ν) (name : String) (values stack : List ν)
    (counts : List Nat) :
    Machine.call registry ⟨values.reverse ++ stack, values.length :: counts⟩ name =
      (registry.apply name values).map fun value => ⟨value :: stack, counts⟩ := by
  have ht : ((values.reverse ++ stack).take values.length).reverse = values := by
    rw [List.take_left' List.length_reverse, List.reverse_reverse]
  have hd : (values.reverse ++ stack).drop values.length = stack :=
    List.drop_left' List.length_reverse
  have hn : ¬ (values.reverse ++ stack).length < values.length := by
    rw [List.length_append, List.length_reverse]
    omega
  simp only [Machine.call, if_neg hn, ht, hd, Registry.apply]
  cases registry.get? name with
  | none => rfl
  | some f =>
    obtain ⟨arity, run⟩ := f
    cases arity with
    | variadic => rfl
    | fixed count =>
      simp only [Function.call]
      split <;> rfl

variable [Arithmetic ν] (context : Context ν) (registry : Registry ν)

namespace Expression

mutual

/-- Operands and arguments come from left to right, then what applies to them. -/
def evaluate : Expression ν → Outcome ν
  | number value => pure value
  | reference key => ⟨(context key).elim (.error (.unresolvedReference key)) .ok, [key]⟩
  | binary op left right => do
    let l ← left.evaluate
    let r ← right.evaluate
    .unasked (op.apply l r)
  | sign .negate operand => do
    let value ← operand.evaluate
    return Arithmetic.neg value
  | sign .plus operand => operand.evaluate
  | call name arguments => do
    let values ← evaluateAll arguments
    .unasked (registry.apply name values)

def evaluateAll : List (Expression ν) → Outcome (List ν)
  | [] => pure []
  | e :: rest => do
    let value ← e.evaluate
    let values ← evaluateAll rest
    return value :: values

end

mutual

/-- What is asked for is in the expression, in the same order. -/
theorem evaluate_asks : (e : Expression ν) → (e.evaluate context registry).Asks e.keys
  | number _ => Outcome.asks_unasked _
  | reference _ => ⟨List.prefix_rfl, fun _ _ => rfl⟩
  | binary op left right =>
    left.evaluate_asks.bind fun l => right.evaluate_asks.last (op.apply l)
  | sign .negate operand => operand.evaluate_asks.last fun value => .ok (Arithmetic.neg value)
  | sign .plus operand => operand.evaluate_asks
  | call name arguments => (evaluateAll_asks arguments).last (registry.apply name)

theorem evaluateAll_asks :
    (es : List (Expression ν)) → (evaluateAll context registry es).Asks (keysAll es)
  | [] => Outcome.asks_unasked _
  | e :: rest =>
    e.evaluate_asks.bind fun value =>
      (evaluateAll_asks rest).last fun values => .ok (value :: values)

end

theorem length_of_evaluateAll {es : List (Expression ν)} {values : List ν}
    (h : (evaluateAll context registry es).result = .ok values) : values.length = es.length := by
  induction es generalizing values with
  | nil =>
    cases h
    rfl
  | cons e rest ih =>
    obtain ⟨value, -, h⟩ := Outcome.result_bind h
    obtain ⟨more, hm, h⟩ := Outcome.result_bind h
    cases h
    rw [List.length_cons, List.length_cons, ih hm]

mutual

/-- The program of an expression leaves its value on the stack and uses up its own
argument counts, whatever lies below and comes behind. Where the value is missing, the
run ends with the same failure. -/
theorem run_postorder (asked : List String) (stack : List ν) (counts : List Nat)
    (rest : List (Instruction ν)) : (e : Expression ν) →
    Machine.run context registry asked ⟨stack, e.arities ++ counts⟩ (e.postorder ++ rest) =
      (e.evaluate context registry).resume asked fun asked value =>
        Machine.run context registry asked ⟨value :: stack, counts⟩ rest
  | number _ => rfl
  | reference key => by
    simp only [arities, postorder, evaluate, List.singleton_append, Machine.run, Machine.step]
    cases context key with
    | none => rfl
    | some value => rfl
  | binary op left right => by
    rw [arities, postorder, evaluate, Outcome.resume_bind, List.append_assoc, List.append_assoc,
      List.append_assoc, left.run_postorder]
    refine Outcome.resume_congr fun asked l _ => ?_
    rw [Outcome.resume_bind, right.run_postorder]
    refine Outcome.resume_congr fun asked r _ => ?_
    simp only [List.singleton_append, Machine.run, Machine.step]
    cases op.apply l r with
    | ok value => rfl
    | error fault => rfl
  | sign .negate operand => by
    rw [arities, postorder, evaluate, Outcome.resume_bind, List.append_assoc,
      operand.run_postorder]
    rfl
  | sign .plus operand => operand.run_postorder asked stack counts rest
  | call name arguments => by
    rw [arities, postorder, evaluate, Outcome.resume_bind, List.append_assoc,
      List.append_assoc, run_postorderAll]
    refine Outcome.resume_congr fun asked values hv => ?_
    -- The count that the call meets is its own: those of its arguments are used up.
    have hl := length_of_evaluateAll context registry hv
    have hc := Machine.call_eq_apply registry name values stack counts
    rw [hl] at hc
    simp only [List.singleton_append, Machine.run, Machine.step, hc]
    cases registry.apply name values with
    | ok value => rfl
    | error fault => rfl

theorem run_postorderAll (asked : List String) (stack : List ν) (counts : List Nat)
    (rest : List (Instruction ν)) : (es : List (Expression ν)) →
    Machine.run context registry asked ⟨stack, aritiesAll es ++ counts⟩ (postorderAll es ++ rest) =
      (evaluateAll context registry es).resume asked fun asked values =>
        Machine.run context registry asked ⟨values.reverse ++ stack, counts⟩ rest
  | [] => rfl
  | e :: es => by
    rw [aritiesAll, postorderAll, evaluateAll, Outcome.resume_bind, List.append_assoc,
      List.append_assoc, e.run_postorder]
    refine Outcome.resume_congr fun asked value _ => ?_
    rw [Outcome.resume_bind, run_postorderAll]
    refine Outcome.resume_congr fun asked values _ => ?_
    rw [Outcome.resume_pure, List.reverse_cons, List.append_assoc, List.singleton_append]

end

theorem trace_program (e : Expression ν) :
    e.program.trace context registry = e.evaluate context registry := by
  have h := e.run_postorder context registry [] [] [] []
  rw [List.append_nil, List.append_nil] at h
  rw [Program.trace, program, h]
  generalize e.evaluate context registry = o
  obtain ⟨result, lookups⟩ := o
  cases result with
  | ok value => simp [Outcome.resume, Machine.run, Machine.value]
  | error fault => simp [Outcome.resume]

end Expression

/-- The program of a converted token list comes to what the recursion over its one
expression comes to, with the same keys asked for. These are the first reference keys
of the list, and all of them if there is a value. -/
theorem trace_eq_evaluate {limits : Limits} {tokens : List (Token ν)} {program : Program ν}
    (h : convert limits tokens = .ok program) :
    ∃ e, Parses 0 tokens e ∧ (∀ other, Parses 0 tokens other → other = e) ∧
      ∀ (context : Context ν) (registry : Registry ν),
        program.trace context registry = e.evaluate context registry ∧
        program.evaluate context registry = (e.evaluate context registry).result ∧
        (program.trace context registry).lookups <+: keys tokens ∧
        ∀ value, program.evaluate context registry = .ok value →
          (program.trace context registry).lookups = keys tokens := by
  obtain ⟨e, he, rfl⟩ := convert_eq_ok_iff.mp h
  have hp := parses_of_expression? he
  refine ⟨e, hp, fun other ho => eq_of_parses he ho, fun context registry => ?_⟩
  have ha := e.evaluate_asks context registry
  rw [hp.keys] at ha
  rw [Program.evaluate, e.trace_program context registry]
  exact ⟨rfl, rfl, ha.isPrefix, ha.all⟩

theorem trace_eq_evaluate_signedPower :
    ∃ e, Parses 0 signedPowerTokens e ∧ (∀ other, Parses 0 signedPowerTokens other → other = e) ∧
      ∀ (context : Context Float) (registry : Registry Float),
        let program : Program Float :=
          ⟨[.reference "\"a\"", .number 2, .negate, .operator .power, .reference "\"b\"",
            .number 4, .call "SUM", .operator .subtract], [2]⟩
        program.trace context registry = e.evaluate context registry ∧
        program.evaluate context registry = (e.evaluate context registry).result ∧
        (program.trace context registry).lookups <+: ["\"a\"", "\"b\""] ∧
        ∀ value, program.evaluate context registry = .ok value →
          (program.trace context registry).lookups = ["\"a\"", "\"b\""] :=
  trace_eq_evaluate (show convert .standard signedPowerTokens = .ok ⟨_, _⟩ from rfl)

end Scorecard.Formula
