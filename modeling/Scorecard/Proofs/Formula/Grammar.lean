import Scorecard.Formula.Token
import Scorecard.Proofs.Formula.Expression

/-! The grammar of formulas, as a relation on token lists. `Parses` says which
expression a list stands for: every operator has a level, an operand of it has to be
on the level that the operator asks for or above, signs are above all operators, and
a group may hold anything. `IsFormula` says only which lists are formulas, without regard
to precedence. How deep parentheses are nested is a count over the tokens. -/
namespace Scorecard.Formula

variable {ν : Type}

/-- The level of operands, at which no operator may stand. -/
def operandLevel : Nat := 3

namespace BinaryOperator

/-- Sums are on the lowest level, above them products, and above these powers. -/
def level : BinaryOperator → Nat
  | add | subtract => 0
  | multiply | divide | modulo => 1
  | power => 2

/-- What an operator asks of its left operand. Sums and products group to the
left, so there they may have their own level. -/
def leftLevel : BinaryOperator → Nat
  | add | subtract => 0
  | multiply | divide | modulo => 1
  | power => operandLevel

/-- What an operator asks of its right operand. Powers group to the right. -/
def rightLevel : BinaryOperator → Nat
  | add | subtract => 1
  | multiply | divide | modulo => 2
  | power => 2

theorem level_lt_operandLevel (op : BinaryOperator) : op.level < operandLevel := by
  cases op <;> decide

theorem leftLevel_le_operandLevel (op : BinaryOperator) : op.leftLevel ≤ operandLevel := by
  cases op <;> decide

theorem rightLevel_le_operandLevel (op : BinaryOperator) : op.rightLevel ≤ operandLevel := by
  cases op <;> decide

theorem level_le_leftLevel (op : BinaryOperator) : op.level ≤ op.leftLevel := by
  cases op <;> decide

theorem level_le_rightLevel (op : BinaryOperator) : op.level ≤ op.rightLevel := by
  cases op <;> decide

/-- Of two operators around an operand either the second may be in the right operand
of the first, or the first in the left operand of the second. -/
theorem rightLevel_le_level_iff (first second : BinaryOperator) :
    first.rightLevel ≤ second.level ↔ first.level < second.leftLevel := by
  cases first <;> cases second <;> decide

end BinaryOperator

/-- The tokens that are signs where an operand is due. -/
inductive IsSign : TokenKind ν → Sign → Prop
  | plus : IsSign (.operator .add) .plus
  | minus : IsSign (.operator .subtract) .negate
  | negation : IsSign .negation .negate

mutual

/-- The tokens stand for the expression in a place that takes no operator below
`level`, unless in parentheses. -/
inductive Parses : (level : Nat) → List (Token ν) → Expression ν → Prop
  | number {level value position} :
    Parses level [⟨.number value, position⟩] (.number value)
  | reference {level key position} :
    Parses level [⟨.quoted key, position⟩] (.reference key)
  | sign {level kind position sign tokens e} :
    IsSign kind sign → Parses operandLevel tokens e →
    Parses level (⟨kind, position⟩ :: tokens) (.sign sign e)
  | binary {level op position ls rs left right} :
    level ≤ op.level → Parses op.leftLevel ls left → Parses op.rightLevel rs right →
    Parses level (ls ++ ⟨.operator op, position⟩ :: rs) (.binary op left right)
  | group {level opening closing tokens e} :
    Parses 0 tokens e →
    Parses level (⟨.leftParen, opening⟩ :: tokens ++ [⟨.rightParen, closing⟩]) e
  | call {level name position opening closing tokens arguments} :
    ParsesArguments tokens arguments →
    Parses level (⟨.identifier name, position⟩ :: ⟨.leftParen, opening⟩ :: tokens ++
      [⟨.rightParen, closing⟩]) (.call name arguments)

/-- One argument, or several with commas between them. -/
inductive ParsesArguments : List (Token ν) → List (Expression ν) → Prop
  | first {tokens e} : Parses 0 tokens e → ParsesArguments tokens [e]
  | next {tokens arguments position more e} :
    ParsesArguments tokens arguments → Parses 0 more e →
    ParsesArguments (tokens ++ ⟨.comma, position⟩ :: more) (arguments ++ [e])

end

theorem Parses.weaken {level lower : Nat} {tokens : List (Token ν)} {e : Expression ν}
    (h : Parses level tokens e) (hl : lower ≤ level) : Parses lower tokens e := by
  cases h with
  | number => exact .number
  | reference => exact .reference
  | sign hs he => exact .sign hs he
  | binary ho hls hrs => exact .binary (Nat.le_trans hl ho) hls hrs
  | group he => exact .group he
  | call ha => exact .call ha

mutual

/-- Operands with operators between them. -/
inductive IsFormula : List (Token ν) → Prop
  | operand {tokens} : IsOperand tokens → IsFormula tokens
  | chain {op position tokens rest} :
    IsOperand tokens → IsFormula rest → IsFormula (tokens ++ ⟨.operator op, position⟩ :: rest)

/-- A primary behind any number of signs. -/
inductive IsOperand : List (Token ν) → Prop
  | primary {tokens} : IsPrimary tokens → IsOperand tokens
  | sign {kind position sign tokens} :
    IsSign kind sign → IsOperand tokens → IsOperand (⟨kind, position⟩ :: tokens)

inductive IsPrimary : List (Token ν) → Prop
  | number {value position} : IsPrimary [⟨.number value, position⟩]
  | quoted {key position} : IsPrimary [⟨.quoted key, position⟩]
  | group {opening closing tokens} :
    IsFormula tokens → IsPrimary (⟨.leftParen, opening⟩ :: tokens ++ [⟨.rightParen, closing⟩])
  | call {name position opening closing tokens} :
    IsArguments tokens →
    IsPrimary (⟨.identifier name, position⟩ :: ⟨.leftParen, opening⟩ :: tokens ++
      [⟨.rightParen, closing⟩])

/-- Formulas with commas between them, at least one. -/
inductive IsArguments : List (Token ν) → Prop
  | first {tokens} : IsFormula tokens → IsArguments tokens
  | next {position tokens more} :
    IsArguments tokens → IsFormula more → IsArguments (tokens ++ ⟨.comma, position⟩ :: more)

end

theorem IsFormula.append {ls rs : List (Token ν)} {op : BinaryOperator} {position : Nat}
    (hl : IsFormula ls) (hr : IsFormula rs) :
    IsFormula (ls ++ ⟨.operator op, position⟩ :: rs) :=
  match hl with
  | .operand ho => .chain ho hr
  | .chain ho hrest => by
    rw [List.append_assoc, List.cons_append]
    exact .chain ho (hrest.append hr)

mutual

/-- What stands for an expression is a formula, and behind a sign an operand. -/
theorem Parses.isFormula {level : Nat} {tokens : List (Token ν)} {e : Expression ν}
    (h : Parses level tokens e) :
    IsFormula tokens ∧ (operandLevel ≤ level → IsOperand tokens) := by
  match h with
  | .number => exact ⟨.operand (.primary .number), fun _ => .primary .number⟩
  | .reference => exact ⟨.operand (.primary .quoted), fun _ => .primary .quoted⟩
  | .sign hk he =>
    have ho := he.isFormula.2 (Nat.le_refl _)
    exact ⟨.operand (.sign hk ho), fun _ => .sign hk ho⟩
  | @Parses.binary _ _ op _ _ _ _ _ ho hl hr =>
    refine ⟨hl.isFormula.1.append hr.isFormula.1, fun hn => ?_⟩
    exact absurd (Nat.le_trans hn ho) (Nat.not_le_of_lt op.level_lt_operandLevel)
  | .group he =>
    have hf := he.isFormula.1
    exact ⟨.operand (.primary (.group hf)), fun _ => .primary (.group hf)⟩
  | .call ha =>
    have hs := ha.isArguments
    exact ⟨.operand (.primary (.call hs)), fun _ => .primary (.call hs)⟩

theorem ParsesArguments.isArguments {tokens : List (Token ν)} {arguments : List (Expression ν)}
    (h : ParsesArguments tokens arguments) : IsArguments tokens := by
  match h with
  | .first he => exact .first he.isFormula.1
  | .next ha he => exact .next ha.isArguments he.isFormula.1

end

/-- How many `(` are open behind a token. -/
def TokenKind.depthAfter (depth : Nat) : TokenKind ν → Nat
  | .leftParen => depth + 1
  | .rightParen => depth - 1
  | _ => depth

/-- The largest number of `(` that are open at once, with `depth` open before. -/
def nesting (depth : Nat) : List (Token ν) → Nat
  | [] => depth
  | token :: rest => max depth (nesting (token.kind.depthAfter depth) rest)

end Scorecard.Formula
