import Scorecard.Proofs.Formula.Draft

/-! The lists of a conversion are what a draft looks like in postfix order. Every
step of a conversion is a step of the draft, and one of them is refused exactly
if the other is. So a token list is converted exactly if drafting it ends with an
expression, and then to the program of that expression. -/
namespace Scorecard.Formula

variable {ν : Type}

namespace Draft

/-! ### What a conversion holds for the openings of a draft, the latest first -/

@[simp] def stack : List (Opening ν) → List Pending
  | [] => []
  | .binary op _ :: os => .binary op :: stack os
  | .sign s :: os => .sign s :: stack os
  | .group position :: os => .paren position :: stack os
  | .argument name position _ :: os => .paren position :: .call name :: stack os

@[simp] def output : List (Opening ν) → List (Instruction ν)
  | [] => []
  | .binary _ left :: os => left.postorder.reverse ++ output os
  | .argument _ _ earlier :: os => (Expression.postorderAll earlier).reverse ++ output os
  | .sign _ :: os | .group _ :: os => output os

@[simp] def arities : List (Opening ν) → List Nat
  | [] => []
  | .binary _ left :: os => left.arities.reverse ++ arities os
  | .argument _ _ earlier :: os => (Expression.aritiesAll earlier).reverse ++ arities os
  | .sign _ :: os | .group _ :: os => arities os

@[simp] def calls : List (Opening ν) → List OpenCall
  | [] => []
  | .argument name _ earlier :: os => ⟨name, earlier.length + 1⟩ :: calls os
  | .binary .. :: os | .sign _ :: os | .group _ :: os => calls os

/-- The state of conversion that a draft stands for. -/
def conversion (d : Draft ν) (previous : Option (TokenKind ν)) : Conversion ν where
  output := (d.operand.elim [] Expression.postorder).reverse ++ output d.openings
  stack := stack d.openings
  calls := calls d.openings
  arities := (d.operand.elim [] Expression.arities).reverse ++ arities d.openings
  previous
  depth := depth d.openings

/-- The `(` of a call lies above the call. -/
theorem stack_ne_call (os : List (Opening ν)) (name : String) (below : List Pending) :
    stack os ≠ .call name :: below := by
  cases os with
  | nil => simp
  | cons o os => cases o <;> simp

/-- Releasing an entry is letting an opening take in the operand. -/
theorem releaseWhile_conversion (p : Pending → Bool) (hp : ∀ position, p (.paren position) = false)
    (os : List (Opening ν)) (e : Expression ν) (previous : Option (TokenKind ν)) :
    ((⟨os, some e⟩ : Draft ν).conversion previous).releaseWhile p =
      (⟨(settle p os e).1, some (settle p os e).2⟩ : Draft ν).conversion previous := by
  induction os generalizing e with
  | nil => rfl
  | cons o os ih =>
    cases o with
    | binary op left =>
      rw [settle]
      split
      next h =>
        rw [← ih]
        simp [conversion, Conversion.releaseWhile, h, Pending.release, Expression.postorder,
          Expression.arities]
      next h => simp [conversion, Conversion.releaseWhile, h]
    | sign s =>
      rw [settle]
      split
      next h =>
        rw [← ih]
        cases s <;> simp [conversion, Conversion.releaseWhile, h, Pending.release,
          Expression.postorder, Expression.arities]
      next h => simp [conversion, Conversion.releaseWhile, h]
    | group position => simp [settle, conversion, Conversion.releaseWhile, hp]
    | argument name position earlier => simp [settle, conversion, Conversion.releaseWhile, hp]

theorem yieldsTo_paren (op : BinaryOperator) (position : Nat) :
    Pending.yieldsTo op (.paren position) = false := rfl

theorem isOperator_paren (position : Nat) : Pending.isOperator (.paren position) = false := rfl

/-! ### One step -/

/-- A draft goes on exactly if the conversion does, and then to a draft that the
new state stands for. -/
def Agrees : Option (Draft ν) → Except ParseError (Conversion ν) → Prop
  | some d, .ok s =>
    ∃ previous, s = d.conversion previous ∧ expectsOperand previous = d.operand.isNone
  | none, .error _ => True
  | _, _ => False

theorem Agrees.cases {next? : Option (Draft ν)} {next : Except ParseError (Conversion ν)}
    (h : Agrees next? next) :
    (∃ d previous, next? = some d ∧ next = .ok (d.conversion previous) ∧
      expectsOperand previous = d.operand.isNone) ∨
    next? = none ∧ ∃ fault, next = .error fault := by
  match next?, next, h with
  | some d, .ok _, ⟨previous, hs, due⟩ => exact .inl ⟨d, previous, rfl, hs ▸ rfl, due⟩
  | none, .error fault, _ => exact .inr ⟨rfl, fault, rfl⟩

/-- Both go on the same way behind a step on which they agree. -/
theorem Agrees.bind {next? : Option (Draft ν)} {next : Except ParseError (Conversion ν)}
    (h : Agrees next? next) {run? : Draft ν → Option (Draft ν)}
    {run : Conversion ν → Except ParseError (Conversion ν)}
    (later : ∀ d previous, expectsOperand previous = d.operand.isNone →
      Agrees (run? d) (run (d.conversion previous))) :
    Agrees (next? >>= run?) (next >>= run) := by
  obtain ⟨d, previous, rfl, rfl, due⟩ | ⟨rfl, fault, rfl⟩ := h.cases
  · exact later d previous due
  · trivial

variable (limits : Limits) (os : List (Opening ν)) {previous : Option (TokenKind ν)}

theorem enter_conversion (position : Nat) :
    ((⟨os, none⟩ : Draft ν).conversion previous).enter limits position =
      if depth os + 1 ≤ limits.nesting then
        .ok ((⟨.group position :: os, none⟩ : Draft ν).conversion previous)
      else .error (.nestingTooDeep limits.nesting position) := rfl

theorem comma_conversion (e : Expression ν) (due : expectsOperand previous = false)
    (position : Nat) :
    ((⟨os, some e⟩ : Draft ν).conversion previous).comma position =
      match comma? os e with
      | some d => .ok (d.conversion previous)
      | none => .error (.misplacedComma position) := by
  have hd : expectsOperand ((⟨os, some e⟩ : Draft ν).conversion previous).previous = false := due
  simp only [comma?, Conversion.comma, hd, releaseWhile_conversion _ isOperator_paren]
  generalize settle Pending.isOperator os e = settled
  obtain ⟨settled, e⟩ := settled
  cases settled with
  | nil => rfl
  | cons o below =>
    cases o with
    | binary op left => rfl
    | sign s => rfl
    | group opening =>
      cases h : stack below with
      | nil => simp [conversion, h]
      | cons entry rest =>
        cases entry with
        | call name => exact absurd h (stack_ne_call below name rest)
        | _ => simp [conversion, h]
    | argument name opening earlier =>
      simp [conversion, Expression.postorderAll_append, Expression.aritiesAll_append,
        Expression.postorderAll, Expression.aritiesAll]

theorem close_conversion (e : Expression ν) (due : expectsOperand previous = false)
    (position : Nat) :
    ((⟨os, some e⟩ : Draft ν).conversion previous).close position =
      match close? os e with
      | some d => .ok (d.conversion previous)
      | none => .error (.unmatchedRightParen position) := by
  have hd : expectsOperand ((⟨os, some e⟩ : Draft ν).conversion previous).previous = false := due
  simp only [close?, Conversion.close, hd, releaseWhile_conversion _ isOperator_paren]
  generalize settle Pending.isOperator os e = settled
  obtain ⟨settled, e⟩ := settled
  cases settled with
  | nil => rfl
  | cons o below =>
    cases o with
    | binary op left => rfl
    | sign s => rfl
    | group opening =>
      cases h : stack below with
      | nil => simp [conversion, h]
      | cons entry rest =>
        cases entry with
        | call name => exact absurd h (stack_ne_call below name rest)
        | _ => simp [conversion, h]
    | argument name opening earlier =>
      simp [conversion, Expression.postorder, Expression.arities, Expression.postorderAll_append,
        Expression.aritiesAll_append, Expression.postorderAll, Expression.aritiesAll]

/-- Where an operand is due, operands, signs and `(` are taken in. -/
theorem push_awaiting (due : expectsOperand previous = true) (token : Token ν) :
    Agrees ((⟨os, none⟩ : Draft ν).push? limits token)
      (((⟨os, none⟩ : Draft ν).conversion previous).push limits token) := by
  obtain ⟨kind, position⟩ := token
  have hd : expectsOperand ((⟨os, none⟩ : Draft ν).conversion previous).previous = true := due
  have hr : ((⟨os, none⟩ : Draft ν).conversion previous).requireOperand position = .ok () :=
    if_pos hd
  cases kind with
  | number value =>
    simp only [Conversion.push, Conversion.emit, hr, push?]
    exact ⟨_, rfl, rfl⟩
  | quoted key =>
    simp only [Conversion.push, Conversion.emit, hr, push?]
    exact ⟨_, rfl, rfl⟩
  | operator op =>
    simp only [Conversion.push, Conversion.operator, if_pos hd, push?]
    cases op.sign? with
    | none => trivial
    | some s => exact ⟨_, rfl, rfl⟩
  | negation =>
    simp only [Conversion.push, hr, push?]
    exact ⟨_, rfl, rfl⟩
  | leftParen =>
    simp only [Conversion.push, hr, push?, bind, Except.bind, enter_conversion]
    split
    · exact ⟨_, rfl, rfl⟩
    · trivial
  | comma =>
    simp only [Conversion.push, Conversion.comma, if_pos hd, push?]
    trivial
  | rightParen =>
    simp only [Conversion.push, Conversion.close, if_pos hd, push?]
    trivial
  | identifier name => trivial

/-- Behind an operand, operators, commas and `)` are taken in. -/
theorem push_holding (e : Expression ν) (due : expectsOperand previous = false)
    (token : Token ν) :
    Agrees ((⟨os, some e⟩ : Draft ν).push? limits token)
      (((⟨os, some e⟩ : Draft ν).conversion previous).push limits token) := by
  obtain ⟨kind, position⟩ := token
  have hd : ¬expectsOperand ((⟨os, some e⟩ : Draft ν).conversion previous).previous = true := by
    rw [Bool.not_eq_true]
    exact due
  have hr : ((⟨os, some e⟩ : Draft ν).conversion previous).requireOperand position =
      .error (.unexpectedOperand position) :=
    if_neg hd
  cases kind with
  | number value =>
    simp only [Conversion.push, Conversion.emit, hr, push?]
    trivial
  | quoted key =>
    simp only [Conversion.push, Conversion.emit, hr, push?]
    trivial
  | operator op =>
    simp only [Conversion.push, Conversion.operator, if_neg hd, push?,
      releaseWhile_conversion _ (yieldsTo_paren op)]
    exact ⟨some (.operator op), rfl, rfl⟩
  | negation =>
    simp only [Conversion.push, hr, push?]
    trivial
  | leftParen =>
    simp only [Conversion.push, hr, push?]
    trivial
  | comma =>
    simp only [Conversion.push, comma_conversion os e due, push?]
    cases h : comma? os e with
    | none => trivial
    | some d =>
      obtain ⟨name, opening, earlier, below, last, -, rfl⟩ := comma?_cases h
      exact ⟨_, rfl, rfl⟩
  | rightParen =>
    simp only [Conversion.push, close_conversion os e due, push?]
    cases h : close? os e with
    | none => trivial
    | some d =>
      obtain ⟨opening, below, last, -, rfl⟩ | ⟨name, opening, earlier, below, last, -, rfl⟩ :=
        close?_cases h
      · exact ⟨_, rfl, rfl⟩
      · exact ⟨_, rfl, rfl⟩
  | identifier name => trivial

theorem push_agrees {d : Draft ν} (due : expectsOperand previous = d.operand.isNone)
    (token : Token ν) :
    Agrees (d.push? limits token) ((d.conversion previous).push limits token) := by
  obtain ⟨os, operand⟩ := d
  cases operand with
  | none => exact push_awaiting limits os due token
  | some e => exact push_holding limits os e due token

theorem openCall_agrees {d : Draft ν} (due : expectsOperand previous = d.operand.isNone)
    (name : String) (position opening : Nat) :
    Agrees (d.openCall? limits name opening)
      ((d.conversion previous).openCall limits name position opening) := by
  obtain ⟨os, operand⟩ := d
  cases operand with
  | none =>
    have hr : ((⟨os, none⟩ : Draft ν).conversion previous).requireOperand position = .ok () :=
      if_pos due
    have hd : ((⟨os, none⟩ : Draft ν).conversion previous).depth = depth os := rfl
    simp only [Conversion.openCall, hr, openCall?, Conversion.enter, hd, bind, Except.bind]
    by_cases h : depth os + 1 ≤ limits.nesting
    · rw [if_pos h, if_pos h]
      exact ⟨_, rfl, rfl⟩
    · rw [if_neg h, if_neg h]
      trivial
  | some e =>
    have hr : ((⟨os, some e⟩ : Draft ν).conversion previous).requireOperand position =
        .error (.unexpectedOperand position) :=
      if_neg (Bool.not_eq_true _ ▸ due)
    simp only [Conversion.openCall, hr, openCall?]
    trivial

/-! ### Whole token lists -/

theorem run_agrees {d : Draft ν} (due : expectsOperand previous = d.operand.isNone)
    (tokens : List (Token ν)) :
    Agrees (d.run? limits tokens) ((d.conversion previous).run limits tokens) := by
  induction d, tokens using run?.induct generalizing previous with
  | case1 d => exact ⟨_, rfl, due⟩
  | case2 d name position opening rest ih =>
    rw [run?, Conversion.run]
    exact (openCall_agrees limits due name position opening).bind fun d _ due => ih d due
  | case3 d name position rest h =>
    rw [run?, Conversion.run]
    · trivial
    all_goals exact h
  | case4 d token rest h h' ih =>
    rw [run?, Conversion.run]
    · exact (push_agrees limits due token).bind fun d _ due => ih d due
    all_goals assumption

theorem finish_conversion (e : Expression ν) (due : expectsOperand previous = false)
    (ending : Nat) :
    ((⟨os, some e⟩ : Draft ν).conversion previous).finish ending =
      match stack (settle Pending.isOperator os e).1 with
      | .paren position :: _ => .error (.unmatchedLeftParen position)
      | _ :: _ => .error (.unmatchedLeftParen ending)
      | [] => .ok (settle Pending.isOperator os e).2.program := by
  have hd : ¬expectsOperand ((⟨os, some e⟩ : Draft ν).conversion previous).previous = true := by
    rw [Bool.not_eq_true]
    exact due
  have hp : ¬((⟨os, some e⟩ : Draft ν).conversion previous).previous.isNone = true := by
    intro h
    rw [Option.isNone_iff_eq_none.mp h] at hd
    exact hd rfl
  rw [Conversion.finish, if_neg hp, if_neg hd, releaseWhile_conversion _ isOperator_paren]
  generalize settle Pending.isOperator os e = settled
  obtain ⟨settled, e⟩ := settled
  cases settled with
  | nil =>
    simp only [conversion, stack, output, arities, calls, Option.elim, List.append_nil,
      List.isEmpty_nil, List.isEmpty_reverse, List.isEmpty_iff, Expression.postorder_ne_nil,
      List.reverse_reverse, Bool.not_true, Bool.false_eq_true, ↓reduceIte, Expression.program]
  | cons o below => cases o <;> rfl

theorem finish_agrees {d : Draft ν} (due : expectsOperand previous = d.operand.isNone)
    (ending : Nat) (program : Program ν) :
    (d.conversion previous).finish ending = .ok program ↔
      ∃ e, d.finish? = some e ∧ program = e.program := by
  obtain ⟨os, operand⟩ := d
  cases operand with
  | none =>
    have hd : expectsOperand ((⟨os, none⟩ : Draft ν).conversion previous).previous = true := due
    simp only [finish?, Conversion.finish, if_pos hd]
    split <;> simp
  | some e =>
    rw [finish_conversion os e due]
    simp only [finish?]
    generalize settle Pending.isOperator os e = settled
    obtain ⟨settled, e⟩ := settled
    cases settled with
    | nil => simp [eq_comm]
    | cons o below => cases o <;> simp

end Draft

/-- What a run without a fault comes to is what a draft of the same tokens stands for. -/
theorem exists_draft_of_run {limits : Limits} {tokens : List (Token ν)} {s : Conversion ν}
    (h : Conversion.empty.run limits tokens = .ok s) :
    ∃ d previous, Draft.empty.run? limits tokens = some d ∧ s = d.conversion previous ∧
      expectsOperand previous = d.operand.isNone := by
  have hagree : Draft.Agrees (Draft.empty.run? limits tokens)
      (Conversion.empty.run limits tokens) :=
    Draft.run_agrees limits (rfl : expectsOperand none = Draft.empty.operand.isNone) tokens
  obtain ⟨d, previous, hd, hs, due⟩ | ⟨-, fault, hs⟩ := hagree.cases
  · exact ⟨d, previous, hd, Except.ok.inj (h.symm.trans hs), due⟩
  · rw [h] at hs
    contradiction

theorem convert_eq_ok_iff {limits : Limits} {tokens : List (Token ν)} {program : Program ν} :
    convert limits tokens = .ok program ↔
      ∃ e, expression? limits tokens = some e ∧ program = e.program := by
  have h : Draft.Agrees (Draft.empty.run? limits tokens) (Conversion.empty.run limits tokens) :=
    Draft.run_agrees limits (rfl : expectsOperand none = Draft.empty.operand.isNone) tokens
  rw [convert, expression?]
  obtain ⟨d, previous, hd, hr, due⟩ | ⟨hd, fault, hr⟩ := h.cases
  · rw [hd, hr]
    exact Draft.finish_agrees due _ _
  · rw [hd, hr]
    simp [bind, Except.bind]

end Scorecard.Formula
