import Scorecard.Proofs.Formula.Conversion
import Scorecard.Proofs.Formula.Nesting
import Scorecard.Proofs.Formula.Reading

/-! Which token lists are converted, and to what. Reading the tokens of an
expression in a place that lets it stand leaves a draft that settles into that
expression, so a list stands for at most one. Reading a formula never gets stuck.
Together with what a draft has read this makes conversion exact: a list within the
nesting limit is converted if and only if it is a formula, and the program is the
post-order of the one expression that the list stands for. -/
namespace Scorecard.Formula

variable {ν : Type}

namespace Draft

/-- Whether `p` lets an operand settle through everything at a level. -/
structure Takes (n : Nat) (p : Pending → Bool) : Prop where
  sign (s : Sign) : p (.sign s) = true
  binary (op : BinaryOperator) : n ≤ op.level → p (.binary op) = true

theorem takes_isOperator (n : Nat) : Takes n Pending.isOperator :=
  ⟨fun _ => rfl, fun _ _ => rfl⟩

theorem takes_yieldsTo (op : BinaryOperator) : Takes op.leftLevel (Pending.yieldsTo op) :=
  ⟨Pending.yieldsTo_sign op, fun waiting h => by simpa using h⟩

theorem Takes.weaken {n m : Nat} {p : Pending → Bool} (h : Takes n p) (hm : n ≤ m) : Takes m p :=
  ⟨h.sign, fun op ho => h.binary op (Nat.le_trans hm ho)⟩

/-- An operator that may stand in the open place leaves the openings alone. -/
theorem settle_yieldsTo {op : BinaryOperator} {os : List (Opening ν)} {e : Expression ν}
    (h : level os ≤ op.level) : settle (Pending.yieldsTo op) os e = (os, e) := by
  cases os with
  | nil => rfl
  | cons o os =>
    cases o with
    | binary waiting left =>
      rw [level, BinaryOperator.rightLevel_le_level_iff] at h
      rw [settle, if_neg]
      simpa using h
    | sign s =>
      have hp := op.level_lt_operandLevel
      rw [level] at h
      omega
    | group position => rfl
    | argument name position earlier => rfl

variable (limits : Limits)

mutual

/-- The tokens of an expression lead to a draft that settles into it. -/
theorem leads_of_parses {n : Nat} {tokens : List (Token ν)} {e : Expression ν}
    (h : Parses n tokens e) (os : List (Opening ν)) (hl : level os ≤ n) (rest : List (Token ν)) :
    ∃ os' f, Leads limits ⟨os, none⟩ (tokens ++ rest) ⟨os', some f⟩ rest ∧
      ∀ p, Takes n p → settle p os' f = settle p os e := by
  match h with
  | .number => exact ⟨os, _, leads_number limits os rest _ _, fun _ _ => rfl⟩
  | .reference => exact ⟨os, _, leads_reference limits os rest _ _, fun _ _ => rfl⟩
  | @Parses.sign _ _ _ _ s _ _ hk he =>
    obtain ⟨os', f, hr, hf⟩ := leads_of_parses he (.sign s :: os) (Nat.le_refl _) rest
    refine ⟨os', f, (leads_sign limits os _ hk _).trans hr, ?_⟩
    intro p hp
    rw [hf p ⟨hp.sign, fun op ho => absurd ho (Nat.not_le_of_lt op.level_lt_operandLevel)⟩, settle,
      if_pos (hp.sign s)]
  | @Parses.binary _ _ op position ls rs left right ho hls hrs =>
    have hn : n ≤ op.leftLevel := Nat.le_trans ho op.level_le_leftLevel
    obtain ⟨os₁, f₁, hr₁, hf₁⟩ := leads_of_parses hls os (Nat.le_trans hl hn)
      (⟨.operator op, position⟩ :: (rs ++ rest))
    -- the left operand is complete, and nothing before it gives way
    have hs : settle (Pending.yieldsTo op) os₁ f₁ = (os, left) := by
      rw [hf₁ _ (takes_yieldsTo op), settle_yieldsTo (Nat.le_trans hl ho)]
    have hop := leads_operator limits os₁ (rs ++ rest) f₁ op position
    rw [hs] at hop
    obtain ⟨os₂, f₂, hr₂, hf₂⟩ := leads_of_parses hrs (.binary op left :: os) (Nat.le_refl _) rest
    refine ⟨os₂, f₂, ?_, ?_⟩
    · rw [List.append_assoc]
      exact (hr₁.trans hop).trans hr₂
    · intro p hp
      rw [hf₂ p (hp.weaken (Nat.le_trans ho op.level_le_rightLevel)), settle,
        if_pos (hp.binary op ho)]
  | @Parses.group _ _ opening closing tokens _ he =>
    obtain ⟨os', f, hr, hf⟩ := leads_of_parses he (.group opening :: os) (Nat.le_refl _)
      (⟨.rightParen, closing⟩ :: rest)
    have hc := leads_closeGroup limits rest (hf _ (takes_isOperator 0)) closing
    rw [List.append_assoc]
    exact ⟨os, e, ((leads_group limits os _ opening).trans hr).trans hc, fun _ _ => rfl⟩
  | @Parses.call _ _ name position opening closing tokens arguments ha =>
    obtain ⟨os', f, init, last, hr, rfl, hf⟩ := leads_of_parsesArguments ha name opening os
      (⟨.rightParen, closing⟩ :: rest)
    have hc := leads_closeCall limits rest hf closing
    rw [List.append_assoc]
    exact ⟨os, _, ((leads_call limits os _ name position opening).trans hr).trans hc,
      fun _ _ => rfl⟩

theorem leads_of_parsesArguments {tokens : List (Token ν)} {arguments : List (Expression ν)}
    (h : ParsesArguments tokens arguments) (name : String) (opening : Nat) (os : List (Opening ν))
    (rest : List (Token ν)) :
    ∃ os' f init last,
      Leads limits ⟨.argument name opening [] :: os, none⟩ (tokens ++ rest) ⟨os', some f⟩ rest ∧
      arguments = init ++ [last] ∧
      settle Pending.isOperator os' f = (.argument name opening init :: os, last) := by
  match h with
  | @ParsesArguments.first _ _ e he =>
    obtain ⟨os', f, hr, hf⟩ :=
      leads_of_parses he (.argument name opening [] :: os) (Nat.le_refl _) rest
    exact ⟨os', f, [], e, hr, rfl, hf _ (takes_isOperator 0)⟩
  | @ParsesArguments.next _ tokens arguments position more e ha he =>
    obtain ⟨os₁, f₁, init, last, hr₁, rfl, hf₁⟩ := leads_of_parsesArguments ha name opening os
      (⟨.comma, position⟩ :: (more ++ rest))
    have hc := leads_comma limits (more ++ rest) hf₁ position
    obtain ⟨os₂, f₂, hr₂, hf₂⟩ := leads_of_parses he
      (.argument name opening (init ++ [last]) :: os) (Nat.le_refl _) rest
    refine ⟨os₂, f₂, init ++ [last], e, ?_, rfl, hf₂ _ (takes_isOperator 0)⟩
    rw [List.append_assoc]
    exact (hr₁.trans hc).trans hr₂

end

mutual

/-- A formula is taken in, whatever the openings around it may be. -/
theorem leads_of_isFormula {tokens : List (Token ν)} (h : IsFormula tokens)
    (os : List (Opening ν)) (rest : List (Token ν)) :
    ∃ os' e, Leads limits ⟨os, none⟩ (tokens ++ rest) ⟨os', some e⟩ rest ∧
      enclosing os' = enclosing os := by
  match h with
  | .operand ho => exact leads_of_isOperand ho os rest
  | @IsFormula.chain _ op position tokens more ho hf =>
    obtain ⟨os₁, e₁, hr₁, he₁⟩ :=
      leads_of_isOperand ho os (⟨.operator op, position⟩ :: (more ++ rest))
    have hop := leads_operator limits os₁ (more ++ rest) e₁ op position
    obtain ⟨os₂, e₂, hr₂, he₂⟩ := leads_of_isFormula hf _ rest
    refine ⟨os₂, e₂, ?_, ?_⟩
    · rw [List.append_assoc]
      exact (hr₁.trans hop).trans hr₂
    · rw [he₂, enclosing, enclosing_settle, he₁]

theorem leads_of_isOperand {tokens : List (Token ν)} (h : IsOperand tokens)
    (os : List (Opening ν)) (rest : List (Token ν)) :
    ∃ os' e, Leads limits ⟨os, none⟩ (tokens ++ rest) ⟨os', some e⟩ rest ∧
      enclosing os' = enclosing os := by
  match h with
  | .primary hp => exact leads_of_isPrimary hp os rest
  | @IsOperand.sign _ _ _ s _ hk ho =>
    obtain ⟨os', e, hr, he⟩ := leads_of_isOperand ho (.sign s :: os) rest
    exact ⟨os', e, (leads_sign limits os _ hk _).trans hr, he⟩

theorem leads_of_isPrimary {tokens : List (Token ν)} (h : IsPrimary tokens)
    (os : List (Opening ν)) (rest : List (Token ν)) :
    ∃ os' e, Leads limits ⟨os, none⟩ (tokens ++ rest) ⟨os', some e⟩ rest ∧
      enclosing os' = enclosing os := by
  match h with
  | .number => exact ⟨os, _, leads_number limits os rest _ _, rfl⟩
  | .quoted => exact ⟨os, _, leads_reference limits os rest _ _, rfl⟩
  | @IsPrimary.group _ opening closing tokens hf =>
    obtain ⟨os', e, hr, he⟩ :=
      leads_of_isFormula hf (.group opening :: os) (⟨.rightParen, closing⟩ :: rest)
    have hs : settle Pending.isOperator os' e = (.group opening :: os, _) :=
      Prod.ext ((settle_isOperator os' e).trans he) rfl
    have hc := leads_closeGroup limits rest hs closing
    rw [List.append_assoc]
    exact ⟨os, _, ((leads_group limits os _ opening).trans hr).trans hc, rfl⟩
  | @IsPrimary.call _ name position opening closing tokens ha =>
    obtain ⟨os', e, earlier, hr, he⟩ :=
      leads_of_isArguments ha name opening os (⟨.rightParen, closing⟩ :: rest)
    have hs : settle Pending.isOperator os' e = (.argument name opening earlier :: os, _) :=
      Prod.ext ((settle_isOperator os' e).trans he) rfl
    have hc := leads_closeCall limits rest hs closing
    rw [List.append_assoc]
    exact ⟨os, _, ((leads_call limits os _ name position opening).trans hr).trans hc, rfl⟩

theorem leads_of_isArguments {tokens : List (Token ν)} (h : IsArguments tokens) (name : String)
    (opening : Nat) (os : List (Opening ν)) (rest : List (Token ν)) :
    ∃ os' e earlier,
      Leads limits ⟨.argument name opening [] :: os, none⟩ (tokens ++ rest) ⟨os', some e⟩ rest ∧
      enclosing os' = .argument name opening earlier :: os := by
  match h with
  | .first hf =>
    obtain ⟨os', e, hr, he⟩ := leads_of_isFormula hf (.argument name opening [] :: os) rest
    exact ⟨os', e, [], hr, he⟩
  | @IsArguments.next _ position tokens more ha hf =>
    obtain ⟨os₁, e₁, earlier, hr₁, he₁⟩ :=
      leads_of_isArguments ha name opening os (⟨.comma, position⟩ :: (more ++ rest))
    have hs : settle Pending.isOperator os₁ e₁ = (.argument name opening earlier :: os, _) :=
      Prod.ext ((settle_isOperator os₁ e₁).trans he₁) rfl
    have hc := leads_comma limits (more ++ rest) hs position
    obtain ⟨os₂, e₂, hr₂, he₂⟩ := leads_of_isFormula hf _ rest
    rw [List.append_assoc]
    exact ⟨os₂, e₂, _, (hr₁.trans hc).trans hr₂, he₂⟩

end

theorem finish?_eq_some {os : List (Opening ν)} {e : Expression ν} (h : enclosing os = []) :
    (⟨os, some e⟩ : Draft ν).finish? = some (settle Pending.isOperator os e).2 := by
  have hb := (settle_isOperator os e).trans h
  simp only [finish?]
  generalize settle Pending.isOperator os e = settled at hb ⊢
  obtain ⟨below, whole⟩ := settled
  obtain rfl : below = [] := hb
  rfl

theorem Leads.expression?_eq {limits : Limits} {tokens : List (Token ν)} {os : List (Opening ν)}
    {e : Expression ν} (h : Leads limits ⟨[], none⟩ tokens ⟨os, some e⟩ [])
    (hn : nesting 0 tokens ≤ limits.nesting) (ho : enclosing os = []) :
    expression? limits tokens = some (settle Pending.isOperator os e).2 := by
  obtain ⟨hr, -⟩ := h hn
  rw [expression?, empty, hr, run?]
  exact finish?_eq_some ho

end Draft

theorem expression?_of_parses {limits : Limits} {tokens : List (Token ν)} {e : Expression ν}
    (h : Parses 0 tokens e) (hn : nesting 0 tokens ≤ limits.nesting) :
    expression? limits tokens = some e := by
  obtain ⟨os, f, hr, hf⟩ := Draft.leads_of_parses limits h [] (Nat.le_refl _) []
  have hs := hf _ (Draft.takes_isOperator 0)
  rw [List.append_nil] at hr
  have ho : Draft.enclosing os = [] := by
    rw [← Draft.settle_isOperator os f, hs]
    rfl
  rw [hr.expression?_eq hn ho, hs]
  rfl

theorem exists_expression?_of_isFormula {limits : Limits} {tokens : List (Token ν)}
    (h : IsFormula tokens) (hn : nesting 0 tokens ≤ limits.nesting) :
    ∃ e, expression? limits tokens = some e := by
  obtain ⟨os, e, hr, ho⟩ := Draft.leads_of_isFormula limits h [] []
  rw [List.append_nil] at hr
  exact ⟨_, hr.expression?_eq hn ho⟩

theorem nesting_le_of_expression? {limits : Limits} {tokens : List (Token ν)} {e : Expression ν}
    (h : expression? limits tokens = some e) : nesting 0 tokens ≤ limits.nesting := by
  obtain ⟨d, hd, -⟩ := Option.bind_eq_some_iff.mp h
  exact Draft.nesting_le_of_run? hd (Nat.zero_le _)

/-- A token list that is read stands for nothing else. -/
theorem eq_of_parses {limits : Limits} {tokens : List (Token ν)} {e other : Expression ν}
    (he : expression? limits tokens = some e) (ho : Parses 0 tokens other) : other = e := by
  rw [expression?_of_parses ho (nesting_le_of_expression? he)] at he
  exact Option.some.inj he

/-- No token list stands for two expressions: its own nesting is limit enough to read it. -/
theorem Parses.unique {tokens : List (Token ν)} {e other : Expression ν} (he : Parses 0 tokens e)
    (ho : Parses 0 tokens other) : other = e := by
  have hn : nesting 0 tokens ≤ (Limits.mk (nesting 0 tokens) 0).nesting := Nat.le_refl _
  exact eq_of_parses (expression?_of_parses he hn) ho

/-- The program of a converted token list is the post-order of the one expression
that the list stands for. -/
theorem convert_postorder {limits : Limits} {tokens : List (Token ν)} {program : Program ν}
    (h : convert limits tokens = .ok program) :
    ∃ e, Parses 0 tokens e ∧ (∀ other, Parses 0 tokens other → other = e) ∧
      program.instructions = e.postorder ∧ program.arities = e.arities := by
  obtain ⟨e, he, rfl⟩ := convert_eq_ok_iff.mp h
  exact ⟨e, parses_of_expression? he, fun other ho => eq_of_parses he ho, rfl, rfl⟩

/-- The tokens of `"a" ^ -2 - SUM("b", (4))`. -/
def signedPowerTokens : List (Token Float) :=
  [⟨.quoted "\"a\"", 0⟩, ⟨.operator .power, 4⟩, ⟨.operator .subtract, 6⟩, ⟨.number 2, 7⟩,
    ⟨.operator .subtract, 9⟩, ⟨.identifier "SUM", 11⟩, ⟨.leftParen, 14⟩, ⟨.quoted "\"b\"", 15⟩,
    ⟨.comma, 18⟩, ⟨.leftParen, 20⟩, ⟨.number 4, 21⟩, ⟨.rightParen, 22⟩, ⟨.rightParen, 23⟩]

theorem convert_postorder_signedPower :
    ∃ e, Parses 0 signedPowerTokens e ∧ (∀ other, Parses 0 signedPowerTokens other → other = e) ∧
      [.reference "\"a\"", .number 2, .negate, .operator .power, .reference "\"b\"", .number 4,
        .call "SUM", .operator .subtract] = e.postorder ∧
      [2] = e.arities :=
  convert_postorder (show convert .standard signedPowerTokens = .ok ⟨_, _⟩ from rfl)

/-- A token list is converted if and only if it is a formula whose parentheses keep
to the nesting limit. -/
theorem convert_isOk_iff (limits : Limits) (tokens : List (Token ν)) :
    (∃ program, convert limits tokens = .ok program) ↔
      IsFormula tokens ∧ nesting 0 tokens ≤ limits.nesting := by
  constructor
  · rintro ⟨program, h⟩
    obtain ⟨e, he, -⟩ := convert_eq_ok_iff.mp h
    exact ⟨(parses_of_expression? he).isFormula.1, nesting_le_of_expression? he⟩
  · rintro ⟨hf, hn⟩
    obtain ⟨e, he⟩ := exists_expression?_of_isFormula hf hn
    exact ⟨e.program, convert_eq_ok_iff.mpr ⟨e, he, rfl⟩⟩

end Scorecard.Formula
