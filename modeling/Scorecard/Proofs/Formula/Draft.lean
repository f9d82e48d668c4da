import Scorecard.Formula.Conversion
import Scorecard.Proofs.Formula.Grammar

/-! Conversion as the building of a tree. A draft is an expression with one place
still open: what has been read lies around that place, the innermost part first.
An operand settles into the openings around it as the entries of a conversion's
stack are released, so that nothing about precedence is decided here anew. -/
namespace Scorecard.Formula

variable {ν : Type}

/-- What surrounds the open place on one level. -/
inductive Opening (ν : Type) where
  /-- An operator with its left operand. -/
  | binary (op : BinaryOperator) (left : Expression ν)
  | sign (sign : Sign)
  /-- A `(` and where it stands. -/
  | group (position : Nat)
  /-- A call whose `(` stands at `position`, with the arguments before this one. -/
  | argument (name : String) (position : Nat) (earlier : List (Expression ν))

/-- Openings, the innermost first, and the operand in the open place once there
is one. -/
structure Draft (ν : Type) where
  openings : List (Opening ν)
  operand : Option (Expression ν)

namespace Draft

def empty : Draft ν := ⟨[], none⟩

/-- How many `(` are open. -/
@[simp] def depth : List (Opening ν) → Nat
  | [] => 0
  | .group _ :: os | .argument .. :: os => depth os + 1
  | .binary .. :: os | .sign _ :: os => depth os

/-- Let the innermost openings take in the operand as long as they satisfy `p`. -/
def settle (p : Pending → Bool) : List (Opening ν) → Expression ν → List (Opening ν) × Expression ν
  | .binary op left :: os, e =>
    if p (.binary op) then settle p os (.binary op left e) else (.binary op left :: os, e)
  | .sign s :: os, e => if p (.sign s) then settle p os (.sign s e) else (.sign s :: os, e)
  | os, e => (os, e)

/-- End an argument and begin another. -/
def comma? (os : List (Opening ν)) (e : Expression ν) : Option (Draft ν) :=
  match settle Pending.isOperator os e with
  | (.argument name position earlier :: below, e) =>
    some ⟨.argument name position (earlier ++ [e]) :: below, none⟩
  | _ => none

/-- End a group or a call. -/
def close? (os : List (Opening ν)) (e : Expression ν) : Option (Draft ν) :=
  match settle Pending.isOperator os e with
  | (.group _ :: below, e) => some ⟨below, some e⟩
  | (.argument name _ earlier :: below, e) => some ⟨below, some (.call name (earlier ++ [e]))⟩
  | _ => none

theorem comma?_cases {os : List (Opening ν)} {e : Expression ν} {d : Draft ν}
    (h : comma? os e = some d) :
    ∃ name position earlier below last,
      settle Pending.isOperator os e = (.argument name position earlier :: below, last) ∧
      d = ⟨.argument name position (earlier ++ [last]) :: below, none⟩ := by
  unfold comma? at h
  split at h
  next name position earlier below last hs =>
    exact ⟨name, position, earlier, below, last, hs, (Option.some.inj h).symm⟩
  next => contradiction

theorem close?_cases {os : List (Opening ν)} {e : Expression ν} {d : Draft ν}
    (h : close? os e = some d) :
    (∃ position below last,
      settle Pending.isOperator os e = (.group position :: below, last) ∧
      d = ⟨below, some last⟩) ∨
    ∃ name position earlier below last,
      settle Pending.isOperator os e = (.argument name position earlier :: below, last) ∧
      d = ⟨below, some (.call name (earlier ++ [last]))⟩ := by
  unfold close? at h
  split at h
  next position below last hs => exact .inl ⟨position, below, last, hs, (Option.some.inj h).symm⟩
  next name position earlier below last hs =>
    exact .inr ⟨name, position, earlier, below, last, hs, (Option.some.inj h).symm⟩
  next => contradiction

/-- Take in a token that is not a name, if it may stand there. -/
def push? (limits : Limits) (d : Draft ν) (token : Token ν) : Option (Draft ν) :=
  match d.operand, token.kind with
  | none, .number value => some ⟨d.openings, some (.number value)⟩
  | none, .quoted key => some ⟨d.openings, some (.reference key)⟩
  | none, .operator op => op.sign?.map fun sign => ⟨.sign sign :: d.openings, none⟩
  | none, .negation => some ⟨.sign .negate :: d.openings, none⟩
  | none, .leftParen =>
    if depth d.openings + 1 ≤ limits.nesting then
      some ⟨.group token.position :: d.openings, none⟩
    else none
  | some e, .operator op =>
    let (os, left) := settle (Pending.yieldsTo op) d.openings e
    some ⟨.binary op left :: os, none⟩
  | some e, .comma => comma? d.openings e
  | some e, .rightParen => close? d.openings e
  | _, _ => none

/-- The steps of a draft, by what it takes in. -/
inductive Step (limits : Limits) : Draft ν → Token ν → Draft ν → Prop
  | number {os value position} :
    Step limits ⟨os, none⟩ ⟨.number value, position⟩ ⟨os, some (.number value)⟩
  | reference {os key position} :
    Step limits ⟨os, none⟩ ⟨.quoted key, position⟩ ⟨os, some (.reference key)⟩
  | sign {os kind sign position} :
    IsSign kind sign → Step limits ⟨os, none⟩ ⟨kind, position⟩ ⟨.sign sign :: os, none⟩
  | group {os position} :
    depth os + 1 ≤ limits.nesting →
    Step limits ⟨os, none⟩ ⟨.leftParen, position⟩ ⟨.group position :: os, none⟩
  | binary {os e op position} :
    Step limits ⟨os, some e⟩ ⟨.operator op, position⟩
      ⟨.binary op (settle (Pending.yieldsTo op) os e).2 :: (settle (Pending.yieldsTo op) os e).1,
        none⟩
  | comma {os e name position opening earlier below last} :
    settle Pending.isOperator os e = (.argument name opening earlier :: below, last) →
    Step limits ⟨os, some e⟩ ⟨.comma, position⟩
      ⟨.argument name opening (earlier ++ [last]) :: below, none⟩
  | closeGroup {os e position opening below last} :
    settle Pending.isOperator os e = (.group opening :: below, last) →
    Step limits ⟨os, some e⟩ ⟨.rightParen, position⟩ ⟨below, some last⟩
  | closeCall {os e name position opening earlier below last} :
    settle Pending.isOperator os e = (.argument name opening earlier :: below, last) →
    Step limits ⟨os, some e⟩ ⟨.rightParen, position⟩
      ⟨below, some (.call name (earlier ++ [last]))⟩

theorem step_of_push? {limits : Limits} {d d' : Draft ν} {token : Token ν}
    (h : d.push? limits token = some d') : Step limits d token d' := by
  obtain ⟨os, operand⟩ := d
  obtain ⟨kind, position⟩ := token
  cases operand with
  | none =>
    cases kind with
    | number value => exact Option.some.inj h ▸ .number
    | quoted key => exact Option.some.inj h ▸ .reference
    | operator op =>
      cases op with
      | add => exact Option.some.inj h ▸ .sign .plus
      | subtract => exact Option.some.inj h ▸ .sign .minus
      | _ => contradiction
    | negation => exact Option.some.inj h ▸ .sign .negation
    | leftParen =>
      simp only [push?] at h
      split at h
      next hn => exact Option.some.inj h ▸ .group hn
      next => contradiction
    | _ => contradiction
  | some e =>
    cases kind with
    | operator op => exact Option.some.inj h ▸ .binary
    | comma =>
      obtain ⟨name, opening, earlier, below, last, hs, rfl⟩ := comma?_cases h
      exact .comma hs
    | rightParen =>
      obtain ⟨opening, below, last, hs, rfl⟩ | ⟨name, opening, earlier, below, last, hs, rfl⟩ :=
        close?_cases h
      · exact .closeGroup hs
      · exact .closeCall hs
    | _ => contradiction

/-- Take in a name and the `(` behind it. -/
def openCall? (limits : Limits) (d : Draft ν) (name : String) (position : Nat) :
    Option (Draft ν) :=
  match d.operand with
  | some _ => none
  | none =>
    if depth d.openings + 1 ≤ limits.nesting then
      some ⟨.argument name position [] :: d.openings, none⟩
    else none

theorem openCall?_cases {limits : Limits} {d d' : Draft ν} {name : String} {position : Nat}
    (h : d.openCall? limits name position = some d') :
    d.operand = none ∧ depth d.openings + 1 ≤ limits.nesting ∧
      d' = ⟨.argument name position [] :: d.openings, none⟩ := by
  obtain ⟨os, operand⟩ := d
  cases operand with
  | none =>
    simp only [openCall?] at h
    split at h
    next hn => exact ⟨rfl, hn, (Option.some.inj h).symm⟩
    next => contradiction
  | some e => contradiction

def run? (limits : Limits) (d : Draft ν) : List (Token ν) → Option (Draft ν)
  | [] => some d
  | ⟨.identifier name, _⟩ :: ⟨.leftParen, position⟩ :: rest => do
    (← d.openCall? limits name position).run? limits rest
  | ⟨.identifier _, _⟩ :: _ => none
  | token :: rest => do (← d.push? limits token).run? limits rest

/-- The whole expression, if nothing but operators and signs is open. -/
def finish? (d : Draft ν) : Option (Expression ν) :=
  match d.operand with
  | none => none
  | some e =>
    match settle Pending.isOperator d.openings e with
    | ([], e) => some e
    | _ => none

theorem run?_token (limits : Limits) (d : Draft ν) {kind : TokenKind ν} (position : Nat)
    (rest : List (Token ν)) (h : ∀ name, kind ≠ .identifier name) :
    d.run? limits (⟨kind, position⟩ :: rest) =
      d.push? limits ⟨kind, position⟩ >>= fun d => d.run? limits rest := by
  cases kind with
  | identifier name => exact absurd rfl (h name)
  | _ => rfl

section Settle

/-- What lies outside the operators and signs around the open place. -/
@[simp] def enclosing : List (Opening ν) → List (Opening ν)
  | .binary .. :: os | .sign _ :: os => enclosing os
  | [] => []
  | .group position :: os => .group position :: os
  | .argument name position earlier :: os => .argument name position earlier :: os

theorem settle_isOperator (os : List (Opening ν)) (e : Expression ν) :
    (settle Pending.isOperator os e).1 = enclosing os := by
  induction os generalizing e with
  | nil => rfl
  | cons o os ih =>
    cases o with
    | binary op left => exact ih _
    | sign s => exact ih _
    | group position => rfl
    | argument name position earlier => rfl

theorem enclosing_settle (p : Pending → Bool) (os : List (Opening ν)) (e : Expression ν) :
    enclosing (settle p os e).1 = enclosing os := by
  induction os generalizing e with
  | nil => rfl
  | cons o os ih =>
    cases o with
    | binary op left =>
      rw [settle]
      split
      · exact ih _
      · rfl
    | sign s =>
      rw [settle]
      split
      · exact ih _
      · rfl
    | group position => rfl
    | argument name position earlier => rfl

theorem depth_enclosing (os : List (Opening ν)) : depth (enclosing os) = depth os := by
  induction os with
  | nil => rfl
  | cons o os ih => cases o <;> simp [ih]

theorem depth_settle (p : Pending → Bool) (os : List (Opening ν)) (e : Expression ν) :
    depth (settle p os e).1 = depth os := by
  rw [← depth_enclosing, enclosing_settle, depth_enclosing]

end Settle

end Draft

/-- The expression of a token list, if it is a formula within the limits. -/
def expression? (limits : Limits) (tokens : List (Token ν)) : Option (Expression ν) := do
  (← Draft.empty.run? limits tokens).finish?

end Scorecard.Formula
