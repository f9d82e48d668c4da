import Scorecard.Proofs.Formula.Completion

/-! Which token a fault of parsing is found at. A run fails at the token whose position it
gives. A conversion whose tokens have ended fails for want of an operand behind the last of
them, or at the innermost `(` that is still open. -/
namespace Scorecard.Formula

variable {ν : Type}

/-- The tokens that a run can fail at. -/
inductive ParseError.Blames : ParseError → Token ν → Prop
  | number {value position} : Blames (.unexpectedOperand position) ⟨.number value, position⟩
  | quoted {key position} : Blames (.unexpectedOperand position) ⟨.quoted key, position⟩
  | name {name position} : Blames (.unexpectedOperand position) ⟨.identifier name, position⟩
  | negation {position} : Blames (.unexpectedOperand position) ⟨.negation, position⟩
  | opening {position} : Blames (.unexpectedOperand position) ⟨.leftParen, position⟩
  | tooDeep {limit position} : Blames (.nestingTooDeep limit position) ⟨.leftParen, position⟩
  | operator {op position} :
    op.sign? = none → Blames (.missingOperand position) ⟨.operator op, position⟩
  | earlyComma {position} : Blames (.missingOperand position) ⟨.comma, position⟩
  | misplacedComma {position} : Blames (.misplacedComma position) ⟨.comma, position⟩
  | earlyClose {position} : Blames (.missingOperand position) ⟨.rightParen, position⟩
  | emptyCall {name position} : Blames (.emptyArgumentList name position) ⟨.rightParen, position⟩
  | unmatchedClose {position} : Blames (.unmatchedRightParen position) ⟨.rightParen, position⟩

/-- Every name is followed by a `(`, as it is in the tokens of a text. -/
def Called (tokens : List (Token ν)) : Prop :=
  ∀ i name position, tokens[i]? = some ⟨.identifier name, position⟩ →
    ∃ opening, tokens[i + 1]? = some ⟨.leftParen, opening⟩

theorem Called.tail {token : Token ν} {rest : List (Token ν)} (h : Called (token :: rest)) :
    Called rest :=
  fun i name position hi => h (i + 1) name position hi

namespace Conversion

variable {limits : Limits} {s s' : Conversion ν} {fault : ParseError}

theorem requireOperand_eq_error {position : Nat} (h : s.requireOperand position = .error fault) :
    fault = .unexpectedOperand position := by
  unfold requireOperand at h
  split at h
  · contradiction
  · exact (Except.error.inj h).symm

theorem enter_eq_error {position : Nat} (h : s.enter limits position = .error fault) :
    fault = .nestingTooDeep limits.nesting position := by
  unfold enter at h
  split at h
  · contradiction
  · exact (Except.error.inj h).symm

theorem operator_blames {position : Nat} {op : BinaryOperator}
    (h : s.operator position op = .error fault) :
    fault.Blames (⟨.operator op, position⟩ : Token ν) := by
  unfold operator at h
  split at h
  · split at h
    · contradiction
    next hs => exact Except.error.inj h ▸ .operator hs
  · contradiction

theorem comma_blames {position : Nat} (h : s.comma position = .error fault) :
    fault.Blames (⟨.comma, position⟩ : Token ν) := by
  unfold comma at h
  split at h
  · exact Except.error.inj h ▸ .earlyComma
  · dsimp only at h
    split at h
    · contradiction
    · exact Except.error.inj h ▸ .misplacedComma

theorem emptyClose_blames (s : Conversion ν) (position : Nat) :
    (s.emptyClose position).Blames (⟨.rightParen, position⟩ : Token ν) := by
  unfold emptyClose
  split
  · split
    · exact .emptyCall
    · exact .earlyClose
  · exact .earlyClose

theorem close_blames {position : Nat} (h : s.close position = .error fault) :
    fault.Blames (⟨.rightParen, position⟩ : Token ν) := by
  unfold close at h
  split at h
  · exact Except.error.inj h ▸ s.emptyClose_blames position
  · dsimp only at h
    split at h
    · split at h
      all_goals contradiction
    · contradiction
    · exact Except.error.inj h ▸ .unmatchedClose

theorem push_blames {token : Token ν} (hk : ∀ name, token.kind ≠ .identifier name)
    (h : s.push limits token = .error fault) : fault.Blames token := by
  obtain ⟨kind, position⟩ := token
  unfold push at h
  cases kind with
  | number value =>
    have hr := bind_pure_eq_error.mp (bind_pure_eq_error.mp h)
    exact requireOperand_eq_error hr ▸ .number
  | quoted key =>
    have hr := bind_pure_eq_error.mp (bind_pure_eq_error.mp h)
    exact requireOperand_eq_error hr ▸ .quoted
  | identifier name => exact absurd rfl (hk name)
  | operator op => exact operator_blames (bind_pure_eq_error.mp h)
  | negation => exact requireOperand_eq_error (bind_pure_eq_error.mp h) ▸ .negation
  | leftParen =>
    obtain h | ⟨-, -, h⟩ := bind_eq_error.mp h
    · exact requireOperand_eq_error h ▸ .opening
    · exact enter_eq_error (bind_pure_eq_error.mp h) ▸ .tooDeep
  | rightParen => exact close_blames (bind_pure_eq_error.mp h)
  | comma => exact comma_blames (bind_pure_eq_error.mp h)

theorem openCall_blames {name : String} {position opening : Nat}
    (h : s.openCall limits name position opening = .error fault) :
    fault.Blames (⟨.identifier name, position⟩ : Token ν) ∨
      fault.Blames (⟨.leftParen, opening⟩ : Token ν) := by
  obtain h | ⟨-, -, h⟩ := bind_eq_error.mp h
  · exact .inl (requireOperand_eq_error h ▸ .name)
  · exact .inr (enter_eq_error (bind_pure_eq_error.mp h) ▸ .tooDeep)

/-- A run over names that are all followed by a `(` fails at one of its tokens. -/
theorem run_blames {tokens : List (Token ν)} (hc : Called tokens)
    (h : s.run limits tokens = .error fault) : ∃ token ∈ tokens, fault.Blames token := by
  induction s, tokens using run.induct with
  | case1 s => contradiction
  | case2 s name position opening rest ih =>
    rw [run] at h
    obtain h | ⟨next, -, h⟩ := bind_eq_error.mp h
    · obtain hname | hparen := openCall_blames h
      · exact ⟨_, List.mem_cons_self, hname⟩
      · exact ⟨_, List.mem_cons_of_mem _ List.mem_cons_self, hparen⟩
    · obtain ⟨token, hm, hb⟩ := ih next hc.tail.tail h
      exact ⟨token, List.mem_cons_of_mem _ (List.mem_cons_of_mem _ hm), hb⟩
  | case3 s name position rest hp =>
    obtain ⟨opening, ho⟩ := hc 0 name position rfl
    obtain ⟨more, hmore⟩ := List.head?_eq_some_iff.mp (List.head?_eq_getElem? ▸ ho)
    exact absurd hmore (hp opening more)
  | case4 s token rest h₁ h₂ ih =>
    have hk := kind_ne_identifier h₂
    rw [run_token limits s rest hk] at h
    obtain h | ⟨next, -, h⟩ := bind_eq_error.mp h
    · exact ⟨token, List.mem_cons_self, push_blames hk h⟩
    · obtain ⟨blamed, hm, hb⟩ := ih next hc.tail h
      exact ⟨blamed, List.mem_cons_of_mem _ hm, hb⟩

theorem previous_of_push {token : Token ν} (h : s.push limits token = .ok s') :
    s'.previous = some token.kind := by
  obtain ⟨kind, position⟩ := token
  unfold push at h
  cases kind with
  | identifier name => contradiction
  | negation | leftParen =>
    obtain ⟨-, -, h⟩ := bind_eq_ok.mp h
    obtain ⟨next, -, h⟩ := bind_eq_ok.mp h
    exact Except.ok.inj h ▸ rfl
  | _ =>
    obtain ⟨next, -, h⟩ := bind_eq_ok.mp h
    exact Except.ok.inj h ▸ rfl

theorem previous_of_openCall {name : String} {position opening : Nat}
    (h : s.openCall limits name position opening = .ok s') : s'.previous = some .leftParen := by
  obtain ⟨-, -, h⟩ := bind_eq_ok.mp h
  obtain ⟨next, -, h⟩ := bind_eq_ok.mp h
  exact Except.ok.inj h ▸ rfl

/-- A conversion remembers the last token that it has taken in. -/
theorem previous_of_run {tokens : List (Token ν)} (h : s.run limits tokens = .ok s') :
    s'.previous = (tokens.getLast?.map Token.kind).or s.previous := by
  induction s, tokens using run.induct with
  | case1 s =>
    obtain rfl := Except.ok.inj h
    rfl
  | case2 s name position opening rest ih =>
    rw [run] at h
    obtain ⟨next, hn, h⟩ := bind_eq_ok.mp h
    rw [ih next h, previous_of_openCall hn]
    cases hl : rest.getLast? <;> simp [List.getLast?_cons, hl]
  | case3 s name position rest hp =>
    rw [run_name limits s name position hp] at h
    contradiction
  | case4 s token rest h₁ h₂ ih =>
    rw [run_token limits s rest (kind_ne_identifier h₂)] at h
    obtain ⟨next, hn, h⟩ := bind_eq_ok.mp h
    rw [ih next h, previous_of_push hn]
    cases hl : rest.getLast? <;> simp [List.getLast?_cons, hl]

end Conversion

/-! ### Open parentheses -/

/-- Where the `(` stand that are open behind a token, the innermost first. -/
def Token.opened (before : List Nat) (token : Token ν) : List Nat :=
  match token.kind with
  | .leftParen => token.position :: before
  | .rightParen => before.tail
  | _ => before

/-- Where the `(` stand that no `)` has closed, the innermost first. -/
def openParens (tokens : List (Token ν)) : List Nat :=
  tokens.foldl Token.opened []

theorem mem_of_mem_foldl_opened {tokens : List (Token ν)} {before : List Nat} {position : Nat}
    (h : position ∈ tokens.foldl Token.opened before) :
    position ∈ before ∨ ⟨.leftParen, position⟩ ∈ tokens := by
  induction tokens generalizing before with
  | nil => exact .inl h
  | cons token rest ih =>
    obtain h | h := ih h
    · obtain ⟨kind, start⟩ := token
      cases kind with
      | leftParen =>
        obtain rfl | h := List.mem_cons.mp h
        · exact .inr List.mem_cons_self
        · exact .inl h
      | rightParen => exact .inl (List.mem_of_mem_tail h)
      | _ => exact .inl h
    · exact .inr (List.mem_cons_of_mem _ h)

theorem leftParen_mem_of_openParens {tokens : List (Token ν)} {position : Nat}
    (h : position ∈ openParens tokens) : ⟨.leftParen, position⟩ ∈ tokens :=
  (mem_of_mem_foldl_opened h).resolve_left (List.not_mem_nil)

namespace Draft

/-- Where the `(` of the openings stand. -/
@[simp] def opened : List (Opening ν) → List Nat
  | [] => []
  | .group position :: os | .argument _ position _ :: os => position :: opened os
  | .binary .. :: os | .sign _ :: os => opened os

theorem opened_enclosing (os : List (Opening ν)) : opened (enclosing os) = opened os := by
  induction os with
  | nil => rfl
  | cons o os ih => cases o <;> simp [ih]

theorem opened_settle (p : Pending → Bool) (os : List (Opening ν)) (e : Expression ν) :
    opened (settle p os e).1 = opened os := by
  rw [← opened_enclosing, enclosing_settle, opened_enclosing]

theorem Step.opened_eq {limits : Limits} {d d' : Draft ν} {token : Token ν}
    (h : Step limits d token d') : opened d'.openings = token.opened (opened d.openings) := by
  cases h with
  | number | reference | group => rfl
  | sign hk => cases hk <;> rfl
  | binary => exact opened_settle ..
  | @comma os e _ _ _ _ _ _ hs =>
    have ho := opened_settle Pending.isOperator os e
    rw [hs] at ho
    exact ho
  | @closeGroup os e _ _ _ _ hs =>
    have ho := opened_settle Pending.isOperator os e
    rw [hs] at ho
    exact congrArg List.tail ho
  | @closeCall os e _ _ _ _ _ _ hs =>
    have ho := opened_settle Pending.isOperator os e
    rw [hs] at ho
    exact congrArg List.tail ho

/-- A draft knows of the `(` that are open in what it has taken in. -/
theorem opened_of_run? {limits : Limits} {d d' : Draft ν} {tokens : List (Token ν)}
    (h : d.run? limits tokens = some d') :
    opened d'.openings = tokens.foldl Token.opened (opened d.openings) := by
  induction d, tokens using run?.induct with
  | case1 d =>
    obtain rfl := Option.some.inj h
    rfl
  | case2 d name position opening rest ih =>
    rw [run?] at h
    obtain ⟨next, hn, h⟩ := Option.bind_eq_some_iff.mp h
    obtain ⟨-, -, rfl⟩ := openCall?_cases hn
    exact ih _ h
  | case3 d name position rest hp =>
    rw [run?] at h
    · contradiction
    exact hp
  | case4 d token rest h₁ h₂ ih =>
    rw [run?] at h
    · obtain ⟨next, hn, h⟩ := Option.bind_eq_some_iff.mp h
      rw [ih next h, (step_of_push? hn).opened_eq]
      rfl
    all_goals assumption

/-- The innermost `(` of openings that hold more than operators and signs. -/
theorem stack_enclosing {os : List (Opening ν)} (h : enclosing os ≠ []) :
    ∃ position outer below, stack (enclosing os) = .paren position :: below ∧
      opened os = position :: outer := by
  rw [← opened_enclosing]
  obtain ⟨ho, -⟩ | ⟨position, below, ho, -⟩ | ⟨name, position, earlier, below, ho, -⟩ :=
    enclosing_cases os
  · exact absurd ho h
  · rw [ho]
    exact ⟨position, _, _, rfl, rfl⟩
  · rw [ho]
    exact ⟨position, _, _, rfl, rfl⟩

/-- A conversion does not end behind nothing, where an operand is due, or with a `(` open. -/
theorem finish_blames {d : Draft ν} {previous : Option (TokenKind ν)}
    (due : expectsOperand previous = d.operand.isNone) {ending : Nat} {fault : ParseError}
    (h : (d.conversion previous).finish ending = .error fault) :
    fault = .emptyExpression ∨
    (∃ kind, previous = some kind ∧ expectsOperand previous ∧ fault = .missingOperand ending) ∨
    ∃ position outer, opened d.openings = position :: outer ∧
      fault = .unmatchedLeftParen position := by
  obtain ⟨os, operand⟩ := d
  cases previous with
  | none => exact .inl (Except.error.inj h).symm
  | some kind =>
    have hp : ¬((⟨os, operand⟩ : Draft ν).conversion (some kind)).previous.isNone = true :=
      Bool.false_ne_true
    cases operand with
    | none =>
      have hd : expectsOperand ((⟨os, none⟩ : Draft ν).conversion (some kind)).previous = true :=
        due
      rw [Conversion.finish, if_neg hp, if_pos hd] at h
      exact .inr (.inl ⟨kind, rfl, due, (Except.error.inj h).symm⟩)
    | some e =>
      rw [finish_conversion os e due, settle_isOperator] at h
      by_cases ho : enclosing os = []
      · rw [ho] at h
        contradiction
      · obtain ⟨position, outer, rest, hstack, hopened⟩ := stack_enclosing ho
        rw [hstack] at h
        exact .inr (.inr ⟨position, outer, hopened, (Except.error.inj h).symm⟩)

end Draft

/-- Unless there are no tokens, a conversion fails at one of them, behind the last of them, or
at the innermost `(` that is open in the end. -/
theorem convert_blames {limits : Limits} {tokens : List (Token ν)} {fault : ParseError}
    (hc : Called tokens) (h : convert limits tokens = .error fault) :
    fault = .emptyExpression ∨ (∃ token ∈ tokens, fault.Blames token) ∨
    (∃ last, tokens.getLast? = some last ∧ expectsOperand (some last.kind) ∧
      fault = .missingOperand (last.position + 1)) ∨
    ∃ position outer, openParens tokens = position :: outer ∧
      fault = .unmatchedLeftParen position := by
  obtain h | ⟨s, hs, h⟩ := bind_eq_error.mp h
  · exact .inr (.inl (Conversion.run_blames hc h))
  · obtain ⟨d, previous, hd, rfl, due⟩ := exists_draft_of_run hs
    have hprevious : previous = tokens.getLast?.map Token.kind :=
      (Conversion.previous_of_run hs).trans Option.or_none
    obtain h | ⟨kind, hkind, hdue, h⟩ | ⟨position, outer, hopened, h⟩ :=
      Draft.finish_blames due h
    · exact .inl h
    · obtain ⟨last, hlast, rfl⟩ := Option.map_eq_some_iff.mp (hprevious.symm.trans hkind)
      refine .inr (.inr (.inl ⟨last, hlast, hkind ▸ hdue, ?_⟩))
      rw [h, endOf, hlast]
    · refine .inr (.inr (.inr ⟨position, outer, ?_, h⟩))
      rw [← hopened]
      exact (Draft.opened_of_run? hd).symm

end Scorecard.Formula
