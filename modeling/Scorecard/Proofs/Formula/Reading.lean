import Scorecard.Proofs.Formula.Draft

/-! What a draft has read. The tokens before the open place split into those of
the openings, each of which holds only what binds tightly enough for its place,
and those of the operand. Every step keeps this, so an expression that comes out
at the end is one that the tokens stand for. -/
namespace Scorecard.Formula

variable {ν : Type}

/-- What the innermost opening asks of an operand in the open place. -/
@[simp] def level : List (Opening ν) → Nat
  | .binary op _ :: _ => op.rightLevel
  | .sign _ :: _ => operandLevel
  | [] | .group _ :: _ | .argument .. :: _ => 0

/-- The tokens before the open place are those of the openings. -/
inductive Covers : List (Token ν) → List (Opening ν) → Prop
  | empty : Covers [] []
  | binary {tokens os ls left op position} :
    Covers tokens os → level os ≤ op.level → Parses op.leftLevel ls left →
    Covers (tokens ++ ls ++ [⟨.operator op, position⟩]) (.binary op left :: os)
  | sign {tokens os kind sign position} :
    Covers tokens os → IsSign kind sign → Covers (tokens ++ [⟨kind, position⟩]) (.sign sign :: os)
  | group {tokens os position} :
    Covers tokens os → Covers (tokens ++ [⟨.leftParen, position⟩]) (.group position :: os)
  | firstArgument {tokens os name position opening} :
    Covers tokens os →
    Covers (tokens ++ [⟨.identifier name, position⟩, ⟨.leftParen, opening⟩])
      (.argument name opening [] :: os)
  | nextArgument {tokens os name position opening earlier arguments comma} :
    Covers tokens os → ParsesArguments earlier arguments →
    Covers (tokens ++ (⟨.identifier name, position⟩ :: ⟨.leftParen, opening⟩ :: earlier ++
      [⟨.comma, comma⟩])) (.argument name opening arguments :: os)

theorem Covers.arguments {before last : List (Token ν)} {os : List (Opening ν)} {name : String}
    {opening : Nat} {earlier : List (Expression ν)} {e : Expression ν}
    (hc : Covers before (.argument name opening earlier :: os)) (he : Parses 0 last e) :
    ∃ tokens position arguments,
      before ++ last =
        tokens ++ ⟨.identifier name, position⟩ :: ⟨.leftParen, opening⟩ :: arguments ∧
      Covers tokens os ∧ ParsesArguments arguments (earlier ++ [e]) := by
  cases hc with
  | @firstArgument tokens _ _ position _ hc =>
    exact ⟨tokens, position, last, by simp, hc, .first he⟩
  | @nextArgument tokens _ _ position _ earlier _ comma hc ha =>
    exact ⟨tokens, position, earlier ++ ⟨.comma, comma⟩ :: last, by simp, hc, .next ha he⟩

namespace Pending

@[simp] theorem yieldsTo_binary (op waiting : BinaryOperator) :
    yieldsTo op (.binary waiting) = decide (op.leftLevel ≤ waiting.level) := by
  cases op <;> cases waiting <;> rfl

theorem yieldsTo_sign (op : BinaryOperator) (s : Sign) : yieldsTo op (.sign s) = true := by
  cases op <;> rfl

end Pending

namespace Draft

/-- An operand settles into expressions that the tokens stand for as long as the
openings it settles into bind at least as tightly as `n`. -/
theorem settle_covers {p : Pending → Bool} {n : Nat}
    (hp : ∀ op, p (.binary op) = true → n ≤ op.level) {tokens ls : List (Token ν)}
    {os : List (Opening ν)} {e : Expression ν} (ht : Covers tokens os)
    (he : Parses (max n (level os)) ls e) :
    ∃ before last, tokens ++ ls = before ++ last ∧ Covers before (settle p os e).1 ∧
      Parses (max n (level (settle p os e).1)) last (settle p os e).2 := by
  induction ht generalizing ls e with
  | empty => exact ⟨[], ls, rfl, .empty, he⟩
  | @binary tokens os ls' left op position ht ho hl ih =>
    rw [settle]
    split
    next h =>
      have hr : Parses op.rightLevel ls e := he.weaken (Nat.le_max_right ..)
      have hb : Parses (max n (level os)) (ls' ++ ⟨.operator op, position⟩ :: ls)
          (.binary op left e) :=
        .binary (Nat.max_le.mpr ⟨hp op h, ho⟩) hl hr
      simpa using ih hb
    next h => exact ⟨_, ls, rfl, .binary ht ho hl, he⟩
  | @sign tokens os kind s position ht hs ih =>
    rw [settle]
    split
    next h =>
      have hb : Parses (max n (level os)) (⟨kind, position⟩ :: ls) (.sign s e) :=
        .sign hs (he.weaken (Nat.le_max_right ..))
      simpa using ih hb
    next h => exact ⟨_, ls, rfl, .sign ht hs, he⟩
  | group ht => exact ⟨_, ls, rfl, .group ht, he⟩
  | firstArgument ht => exact ⟨_, ls, rfl, .firstArgument ht, he⟩
  | nextArgument ht ha => exact ⟨_, ls, rfl, .nextArgument ht ha, he⟩

/-- Before an operator nothing is left that would have to give way to it. -/
theorem level_settle_yieldsTo (op : BinaryOperator) (os : List (Opening ν)) (e : Expression ν) :
    level (settle (Pending.yieldsTo op) os e).1 ≤ op.level := by
  induction os generalizing e with
  | nil => exact Nat.zero_le _
  | cons o os ih =>
    cases o with
    | binary waiting left =>
      rw [settle]
      split
      · exact ih _
      next h =>
        rw [level, BinaryOperator.rightLevel_le_level_iff]
        rw [Pending.yieldsTo_binary, decide_eq_true_eq] at h
        exact Nat.lt_of_not_le h
    | sign s =>
      rw [settle, if_pos (Pending.yieldsTo_sign op s)]
      exact ih _
    | group position => exact Nat.zero_le _
    | argument name position earlier => exact Nat.zero_le _

/-- The tokens are those of the openings and of the operand. -/
def Reads (tokens : List (Token ν)) (d : Draft ν) : Prop :=
  match d.operand with
  | none => Covers tokens d.openings
  | some e =>
    ∃ before last, tokens = before ++ last ∧ Covers before d.openings ∧
      Parses operandLevel last e

theorem Reads.settle {tokens : List (Token ν)} {os : List (Opening ν)} {e : Expression ν}
    (h : Reads tokens ⟨os, some e⟩) {p : Pending → Bool} {n : Nat} (hn : n ≤ operandLevel)
    (hp : ∀ op, p (.binary op) = true → n ≤ op.level) :
    ∃ before last, tokens = before ++ last ∧ Covers before (settle p os e).1 ∧
      Parses n last (settle p os e).2 := by
  obtain ⟨before, last, rfl, hc, he⟩ := h
  have hl : level os ≤ operandLevel := by
    cases os with
    | nil => exact Nat.zero_le _
    | cons o os =>
      cases o with
      | binary op left => exact op.rightLevel_le_operandLevel
      | sign s => exact Nat.le_refl _
      | group position => exact Nat.zero_le _
      | argument name position earlier => exact Nat.zero_le _
  obtain ⟨before, last, ht, hc, he⟩ := settle_covers hp hc (he.weaken (Nat.max_le.mpr ⟨hn, hl⟩))
  exact ⟨before, last, ht, hc, he.weaken (Nat.le_max_left ..)⟩

theorem Reads.step {limits : Limits} {tokens : List (Token ν)} {d d' : Draft ν} {token : Token ν}
    (h : d.Reads tokens) (hs : Step limits d token d') : d'.Reads (tokens ++ [token]) := by
  cases hs with
  | number => exact ⟨tokens, _, rfl, h, .number⟩
  | reference => exact ⟨tokens, _, rfl, h, .reference⟩
  | sign hk => exact Covers.sign h hk
  | group => exact Covers.group h
  | @binary os e op position =>
    have hp (waiting : BinaryOperator) (hy : Pending.yieldsTo op (.binary waiting) = true) :
        op.leftLevel ≤ waiting.level := by simpa using hy
    obtain ⟨before, last, rfl, hc, he⟩ := h.settle op.leftLevel_le_operandLevel hp
    exact hc.binary (level_settle_yieldsTo op os e) he
  | comma hs =>
    obtain ⟨before, last, rfl, hc, he⟩ := h.settle (Nat.zero_le _) fun _ _ => Nat.zero_le _
    rw [hs] at hc he
    obtain ⟨tokens, position, arguments, ht, hc, ha⟩ := hc.arguments he
    rw [ht]
    simpa [Reads] using hc.nextArgument ha
  | @closeGroup _ _ closing opening _ _ hs =>
    obtain ⟨before, last, rfl, hc, he⟩ := h.settle (Nat.zero_le _) fun _ _ => Nat.zero_le _
    rw [hs] at hc he
    cases hc with
    | group hc =>
      exact ⟨_, ⟨.leftParen, opening⟩ :: last ++ [⟨.rightParen, closing⟩], by simp, hc, .group he⟩
  | @closeCall _ _ name closing opening _ _ _ hs =>
    obtain ⟨before, last, rfl, hc, he⟩ := h.settle (Nat.zero_le _) fun _ _ => Nat.zero_le _
    rw [hs] at hc he
    obtain ⟨tokens, position, arguments, ht, hc, ha⟩ := hc.arguments he
    rw [ht]
    exact ⟨tokens, ⟨.identifier name, position⟩ :: ⟨.leftParen, opening⟩ :: arguments ++
      [⟨.rightParen, closing⟩], by simp, hc, .call ha⟩

theorem Reads.openCall {limits : Limits} {tokens : List (Token ν)} {d d' : Draft ν} {name : String}
    {position opening : Nat} (h : d.Reads tokens) (hd : d.openCall? limits name opening = some d') :
    d'.Reads (tokens ++ [⟨.identifier name, position⟩, ⟨.leftParen, opening⟩]) := by
  obtain ⟨hnone, -, rfl⟩ := openCall?_cases hd
  obtain ⟨os, operand⟩ := d
  obtain rfl : operand = none := hnone
  exact Covers.firstArgument h

theorem Reads.run {limits : Limits} {read tokens : List (Token ν)} {d d' : Draft ν}
    (h : d.Reads read) (hd : d.run? limits tokens = some d') : d'.Reads (read ++ tokens) := by
  induction d, tokens using run?.induct generalizing read with
  | case1 d =>
    rw [run?, Option.some.injEq] at hd
    rwa [List.append_nil, ← hd]
  | case2 d name position opening rest ih =>
    rw [run?] at hd
    obtain ⟨next, hn, hd⟩ := Option.bind_eq_some_iff.mp hd
    simpa using ih next (h.openCall hn) hd
  | case3 d name position rest hp =>
    rw [run?] at hd
    · contradiction
    exact hp
  | case4 d token rest h₁ h₂ ih =>
    rw [run?] at hd
    · obtain ⟨next, hn, hd⟩ := Option.bind_eq_some_iff.mp hd
      simpa using ih next (h.step (step_of_push? hn)) hd
    all_goals assumption

theorem Reads.finish {tokens : List (Token ν)} {d : Draft ν} {e : Expression ν}
    (h : d.Reads tokens) (he : d.finish? = some e) : Parses 0 tokens e := by
  obtain ⟨os, operand⟩ := d
  cases operand with
  | none => contradiction
  | some last =>
    obtain ⟨before, ls, rfl, hc, hl⟩ := h.settle (Nat.zero_le _) fun _ _ => Nat.zero_le _
    simp only [finish?] at he
    split at he
    next whole hs =>
      rw [hs] at hc hl
      cases hc
      exact Option.some.inj he ▸ hl
    next => contradiction

end Draft

/-- What comes out is an expression that the tokens stand for. -/
theorem parses_of_expression? {limits : Limits} {tokens : List (Token ν)} {e : Expression ν}
    (h : expression? limits tokens = some e) : Parses 0 tokens e := by
  obtain ⟨d, hd, he⟩ := Option.bind_eq_some_iff.mp h
  have hr : Draft.Reads [] (Draft.empty : Draft ν) := Covers.empty
  exact (hr.run hd).finish he

end Scorecard.Formula
