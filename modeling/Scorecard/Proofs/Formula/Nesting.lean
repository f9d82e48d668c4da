import Scorecard.Proofs.Formula.Draft

/-! The depth of a draft is the number of `(` open in the tokens it has taken in.
So a run is a matter of steps alone where the tokens keep to the limit, and
where they do not there is no run. -/
namespace Scorecard.Formula

variable {ν : Type}

theorem le_nesting (depth : Nat) (tokens : List (Token ν)) : depth ≤ nesting depth tokens := by
  cases tokens with
  | nil => exact Nat.le_refl _
  | cons token rest => exact Nat.le_max_left ..

theorem nesting_cons_le_iff {depth bound : Nat} {token : Token ν} {rest : List (Token ν)} :
    nesting depth (token :: rest) ≤ bound ↔
      depth ≤ bound ∧ nesting (token.kind.depthAfter depth) rest ≤ bound :=
  Nat.max_le

theorem IsSign.depthAfter {kind : TokenKind ν} {s : Sign} (h : IsSign kind s) (depth : Nat) :
    kind.depthAfter depth = depth := by
  cases h <;> rfl

namespace Draft

theorem Step.depth_eq {limits : Limits} {d d' : Draft ν} {token : Token ν}
    (h : Step limits d token d') :
    depth d'.openings = token.kind.depthAfter (depth d.openings) := by
  cases h with
  | number | reference | group => rfl
  | sign hk => rw [hk.depthAfter]; rfl
  | binary => exact depth_settle ..
  | @comma os e _ _ _ _ _ _ hs =>
    have hd := depth_settle Pending.isOperator os e
    rw [hs] at hd
    exact hd
  | @closeGroup os e _ _ _ _ hs =>
    have hd := depth_settle Pending.isOperator os e
    rw [hs] at hd
    simp only [TokenKind.depthAfter, ← hd, Draft.depth]
    omega
  | @closeCall os e _ _ _ _ _ _ hs =>
    have hd := depth_settle Pending.isOperator os e
    rw [hs] at hd
    simp only [TokenKind.depthAfter, ← hd, Draft.depth]
    omega

theorem Step.depth_le {limits : Limits} {d d' : Draft ν} {token : Token ν}
    (h : Step limits d token d') (hd : depth d.openings ≤ limits.nesting) :
    depth d'.openings ≤ limits.nesting := by
  rw [h.depth_eq]
  cases h with
  | number | reference | binary | comma => exact hd
  | sign hk => rwa [hk.depthAfter]
  | group hn => exact hn
  | closeGroup | closeCall => exact Nat.le_trans (Nat.sub_le ..) hd

theorem openCall?_eq_some {limits : Limits} {d d' : Draft ν} {name : String} {position : Nat}
    (h : d.openCall? limits name position = some d') :
    depth d'.openings = depth d.openings + 1 ∧ depth d'.openings ≤ limits.nesting := by
  obtain ⟨-, hn, rfl⟩ := openCall?_cases h
  exact ⟨rfl, hn⟩

theorem depth_le_of_run? {limits : Limits} {d d' : Draft ν} {tokens : List (Token ν)}
    (h : d.run? limits tokens = some d') (hd : depth d.openings ≤ limits.nesting) :
    depth d'.openings ≤ limits.nesting := by
  induction d, tokens using run?.induct with
  | case1 d => exact Option.some.inj h ▸ hd
  | case2 d name position opening rest ih =>
    rw [run?] at h
    obtain ⟨next, hn, h⟩ := Option.bind_eq_some_iff.mp h
    exact ih next h (openCall?_eq_some hn).2
  | case3 d name position rest hp =>
    rw [run?] at h
    · contradiction
    exact hp
  | case4 d token rest h₁ h₂ ih =>
    rw [run?] at h
    · obtain ⟨next, hn, h⟩ := Option.bind_eq_some_iff.mp h
      exact ih next h ((step_of_push? hn).depth_le hd)
    all_goals assumption

/-- What a draft takes in keeps to the limit. -/
theorem nesting_le_of_run? {limits : Limits} {d d' : Draft ν} {tokens : List (Token ν)}
    (h : d.run? limits tokens = some d') (hd : depth d.openings ≤ limits.nesting) :
    nesting (depth d.openings) tokens ≤ limits.nesting := by
  induction d, tokens using run?.induct with
  | case1 d => exact hd
  | case2 d name position opening rest ih =>
    rw [run?] at h
    obtain ⟨next, hn, h⟩ := Option.bind_eq_some_iff.mp h
    obtain ⟨heq, hle⟩ := openCall?_eq_some hn
    rw [nesting_cons_le_iff, nesting_cons_le_iff]
    refine ⟨hd, hd, ?_⟩
    have hr := ih next h hle
    rwa [heq] at hr
  | case3 d name position rest hp =>
    rw [run?] at h
    · contradiction
    exact hp
  | case4 d token rest h₁ h₂ ih =>
    rw [run?] at h
    · obtain ⟨next, hn, h⟩ := Option.bind_eq_some_iff.mp h
      have hs := step_of_push? hn
      rw [nesting_cons_le_iff, ← hs.depth_eq]
      exact ⟨hd, ih next h (hs.depth_le hd)⟩
    all_goals assumption

/-- Reading leads from one draft before some tokens to another before the rest of
them, provided that they keep to the limit; then so does the rest. -/
def Leads (limits : Limits) (d : Draft ν) (tokens : List (Token ν)) (d' : Draft ν)
    (rest : List (Token ν)) : Prop :=
  nesting (depth d.openings) tokens ≤ limits.nesting →
    d.run? limits tokens = d'.run? limits rest ∧ nesting (depth d'.openings) rest ≤ limits.nesting

theorem Leads.trans {limits : Limits} {d₁ d₂ d₃ : Draft ν} {ts₁ ts₂ ts₃ : List (Token ν)}
    (h₁ : Leads limits d₁ ts₁ d₂ ts₂) (h₂ : Leads limits d₂ ts₂ d₃ ts₃) :
    Leads limits d₁ ts₁ d₃ ts₃ := by
  intro hn
  obtain ⟨hr, hn⟩ := h₁ hn
  obtain ⟨hr', hn⟩ := h₂ hn
  exact ⟨hr.trans hr', hn⟩

theorem leads_of_push? {limits : Limits} {d d' : Draft ν} {token : Token ν} {rest : List (Token ν)}
    (h : token.kind.depthAfter (depth d.openings) ≤ limits.nesting →
      d.push? limits token = some d') : Leads limits d (token :: rest) d' rest := by
  intro hn
  obtain ⟨-, hn⟩ := nesting_cons_le_iff.mp hn
  have hp := h (Nat.le_trans (le_nesting ..) hn)
  refine ⟨?_, ?_⟩
  · obtain ⟨kind, position⟩ := token
    rw [run?_token, hp]
    · rfl
    · rintro name rfl
      cases step_of_push? hp with
      | sign hk => cases hk
  · rwa [(step_of_push? hp).depth_eq]

section Steps

variable (limits : Limits) (os : List (Opening ν)) (rest : List (Token ν))

theorem leads_number (value : ν) (position : Nat) :
    Leads limits ⟨os, none⟩ (⟨.number value, position⟩ :: rest) ⟨os, some (.number value)⟩ rest :=
  leads_of_push? fun _ => rfl

theorem leads_reference (key : String) (position : Nat) :
    Leads limits ⟨os, none⟩ (⟨.quoted key, position⟩ :: rest) ⟨os, some (.reference key)⟩ rest :=
  leads_of_push? fun _ => rfl

theorem leads_sign {kind : TokenKind ν} {s : Sign} (h : IsSign kind s) (position : Nat) :
    Leads limits ⟨os, none⟩ (⟨kind, position⟩ :: rest) ⟨.sign s :: os, none⟩ rest := by
  apply leads_of_push?
  intro _
  cases h <;> rfl

theorem leads_group (position : Nat) :
    Leads limits ⟨os, none⟩ (⟨.leftParen, position⟩ :: rest) ⟨.group position :: os, none⟩ rest :=
  leads_of_push? fun hn => if_pos hn

theorem leads_call (name : String) (position opening : Nat) :
    Leads limits ⟨os, none⟩ (⟨.identifier name, position⟩ :: ⟨.leftParen, opening⟩ :: rest)
      ⟨.argument name opening [] :: os, none⟩ rest := by
  intro hn
  rw [nesting_cons_le_iff, nesting_cons_le_iff] at hn
  obtain ⟨-, -, hn⟩ := hn
  have hd : depth os + 1 ≤ limits.nesting := Nat.le_trans (le_nesting ..) hn
  have ho : (⟨os, none⟩ : Draft ν).openCall? limits name opening =
      some ⟨.argument name opening [] :: os, none⟩ := if_pos hd
  refine ⟨?_, hn⟩
  rw [run?, ho]
  rfl

variable (e : Expression ν)

theorem leads_operator (op : BinaryOperator) (position : Nat) :
    Leads limits ⟨os, some e⟩ (⟨.operator op, position⟩ :: rest)
      ⟨.binary op (settle (Pending.yieldsTo op) os e).2 :: (settle (Pending.yieldsTo op) os e).1,
        none⟩ rest :=
  leads_of_push? fun _ => rfl

variable {os e}

theorem leads_comma {name : String} {opening : Nat} {earlier : List (Expression ν)}
    {below : List (Opening ν)} {last : Expression ν}
    (h : settle Pending.isOperator os e = (.argument name opening earlier :: below, last))
    (position : Nat) :
    Leads limits ⟨os, some e⟩ (⟨.comma, position⟩ :: rest)
      ⟨.argument name opening (earlier ++ [last]) :: below, none⟩ rest := by
  apply leads_of_push?
  intro _
  simp only [push?, comma?, h]

theorem leads_closeGroup {opening : Nat} {below : List (Opening ν)} {last : Expression ν}
    (h : settle Pending.isOperator os e = (.group opening :: below, last)) (position : Nat) :
    Leads limits ⟨os, some e⟩ (⟨.rightParen, position⟩ :: rest) ⟨below, some last⟩ rest := by
  apply leads_of_push?
  intro _
  simp only [push?, close?, h]

theorem leads_closeCall {name : String} {opening : Nat} {earlier : List (Expression ν)}
    {below : List (Opening ν)} {last : Expression ν}
    (h : settle Pending.isOperator os e = (.argument name opening earlier :: below, last))
    (position : Nat) :
    Leads limits ⟨os, some e⟩ (⟨.rightParen, position⟩ :: rest)
      ⟨below, some (.call name (earlier ++ [last]))⟩ rest := by
  apply leads_of_push?
  intro _
  simp only [push?, close?, h]

end Steps

end Draft

end Scorecard.Formula
