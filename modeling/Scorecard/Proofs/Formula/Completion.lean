import Scorecard.Proofs.Fallible
import Scorecard.Proofs.Formula.Acceptance

/-! Beginnings of formulas. As long as a run goes on, what it has taken in can still become a
formula: an operand where one is due and a `)` for each open `(` complete it. Where a run
fails nothing that might come behind can help. A name alone shows neither, since only the
token behind it tells whether it is a call. -/
namespace Scorecard.Formula

variable {ν : Type}

/-- Some token list that is converted starts with these tokens. -/
def Viable (limits : Limits) (tokens : List (Token ν)) : Prop :=
  ∃ more program, convert limits (tokens ++ more) = .ok program

theorem kind_ne_identifier {token : Token ν}
    (h : ∀ name position, token = ⟨.identifier name, position⟩ → False) (name : String) :
    token.kind ≠ .identifier name := by
  intro hk
  exact h name token.position (hk ▸ rfl)

/-! ### Completing a draft -/

namespace Draft

theorem run?_append {limits : Limits} {d d' : Draft ν} {tokens : List (Token ν)}
    (h : d.run? limits tokens = some d') (more : List (Token ν)) :
    d.run? limits (tokens ++ more) = d'.run? limits more := by
  induction d, tokens using run?.induct with
  | case1 d =>
    obtain rfl := Option.some.inj h
    rfl
  | case2 d name position opening rest ih =>
    rw [run?] at h
    obtain ⟨next, hn, h⟩ := Option.bind_eq_some_iff.mp h
    rw [List.cons_append, List.cons_append, run?, hn]
    exact ih next h
  | case3 d name position rest hp =>
    rw [run?] at h
    · contradiction
    exact hp
  | case4 d token rest h₁ h₂ ih =>
    have hk := kind_ne_identifier h₂
    rw [run?_token _ _ _ _ hk] at h
    obtain ⟨next, hn, h⟩ := Option.bind_eq_some_iff.mp h
    rw [List.cons_append, run?_token _ _ _ _ hk, hn]
    exact ih next h

/-- Outside the operators and signs there is a `(`, unless none is open. -/
theorem enclosing_cases (os : List (Opening ν)) :
    enclosing os = [] ∧ depth os = 0 ∨
    (∃ position below, enclosing os = .group position :: below ∧ depth os = depth below + 1) ∨
    ∃ name position earlier below,
      enclosing os = .argument name position earlier :: below ∧ depth os = depth below + 1 := by
  induction os with
  | nil => exact .inl ⟨rfl, rfl⟩
  | cons o os ih =>
    cases o with
    | binary op left => exact ih
    | sign s => exact ih
    | group position => exact .inr (.inl ⟨position, os, rfl, rfl⟩)
    | argument name position earlier =>
      exact .inr (.inr ⟨name, position, earlier, os, rfl, rfl⟩)

/-- As many `)` as are asked for. -/
def closings (count : Nat) : List (Token ν) :=
  List.replicate count ⟨.rightParen, 0⟩

/-- Behind an operand a `)` for each open `(` makes an expression. -/
theorem exists_run?_closings (limits : Limits) (os : List (Opening ν)) (e : Expression ν) :
    ∃ d whole, (⟨os, some e⟩ : Draft ν).run? limits (closings (depth os)) = some d ∧
      d.finish? = some whole := by
  generalize hn : depth os = count
  induction count generalizing os e with
  | zero =>
    obtain ⟨ho, -⟩ | ⟨_, below, -, hd⟩ | ⟨_, _, _, below, -, hd⟩ := enclosing_cases os
    · exact ⟨_, _, rfl, finish?_eq_some ho⟩
    · omega
    · omega
  | succ count ih =>
    obtain ⟨last, hs⟩ : ∃ last, settle Pending.isOperator os e = (enclosing os, last) :=
      ⟨_, Prod.ext (settle_isOperator os e) rfl⟩
    have hclose : ∃ below last, close? os e = some ⟨below, some last⟩ ∧ depth below = count := by
      obtain ⟨-, hd⟩ | ⟨_, below, ho, hd⟩ | ⟨name, _, earlier, below, ho, hd⟩ :=
        enclosing_cases os
      · omega
      · rw [ho] at hs
        exact ⟨below, last, by simp only [close?, hs], by omega⟩
      · rw [ho] at hs
        exact ⟨below, .call name (earlier ++ [last]), by simp only [close?, hs], by omega⟩
    obtain ⟨below, last, hc, hd⟩ := hclose
    obtain ⟨d, whole, hr, hw⟩ := ih below last hd
    refine ⟨d, whole, ?_, hw⟩
    rw [closings, List.replicate_succ, run?_token _ _ _ _ (by simp)]
    exact (congrArg (· >>= fun d : Draft ν => d.run? limits (closings count)) hc).trans hr

/-- What completes a draft: an operand if one is due, and a `)` for each open `(`. -/
def completion (d : Draft ν) : List (Token ν) :=
  match d.operand with
  | none => ⟨.quoted "\"\"", 0⟩ :: closings (depth d.openings)
  | some _ => closings (depth d.openings)

theorem exists_run?_completion (limits : Limits) (d : Draft ν) :
    ∃ d' whole, d.run? limits d.completion = some d' ∧ d'.finish? = some whole := by
  obtain ⟨os, operand⟩ := d
  cases operand with
  | none => exact exists_run?_closings limits os (.reference "\"\"")
  | some e => exact exists_run?_closings limits os e

end Draft

/-! ### Runs turn by turn -/

namespace Conversion

theorem run_token (limits : Limits) (s : Conversion ν) {token : Token ν} (rest : List (Token ν))
    (h : ∀ name, token.kind ≠ .identifier name) :
    s.run limits (token :: rest) = s.push limits token >>= fun s => s.run limits rest := by
  obtain ⟨kind, position⟩ := token
  cases kind with
  | identifier name => exact absurd rfl (h name)
  | _ => rfl

/-- A name that no `(` follows ends a run. -/
theorem run_name (limits : Limits) (s : Conversion ν) (name : String) (position : Nat)
    {rest : List (Token ν)} (h : ∀ opening more, rest ≠ ⟨.leftParen, opening⟩ :: more) :
    s.run limits (⟨.identifier name, position⟩ :: rest) =
      .error (.missingCallParen name position) := by
  rw [run]
  exact h

/-- What one turn of a run takes in from the front of some tokens: a name takes along the
token behind it, if there is one. -/
inductive IsTurn : (turn rest : List (Token ν)) → Prop
  | token {token rest} : (∀ name, token.kind ≠ .identifier name) → IsTurn [token] rest
  | name {name position next rest} : IsTurn [⟨.identifier name, position⟩, next] rest
  | lastName {name position} : IsTurn [⟨.identifier name, position⟩] []

theorem run_append {limits : Limits} {s s' : Conversion ν} {tokens : List (Token ν)}
    (h : s.run limits tokens = .ok s') (more : List (Token ν)) :
    s.run limits (tokens ++ more) = s'.run limits more := by
  induction s, tokens using run.induct with
  | case1 s =>
    obtain rfl := Except.ok.inj h
    rfl
  | case2 s name position opening rest ih =>
    rw [run] at h
    obtain ⟨next, hn, h⟩ := bind_eq_ok.mp h
    rw [List.cons_append, List.cons_append, run, hn]
    exact ih next h
  | case3 s name position rest hp =>
    rw [run_name limits s name position hp] at h
    contradiction
  | case4 s token rest h₁ h₂ ih =>
    have hk := kind_ne_identifier h₂
    rw [run_token limits s rest hk] at h
    obtain ⟨next, hn, h⟩ := bind_eq_ok.mp h
    rw [List.cons_append, run_token limits s _ hk, hn]
    exact ih next h

/-- A run that fails does so at one of its turns. -/
theorem exists_turn_of_run {limits : Limits} {s : Conversion ν} {tokens : List (Token ν)}
    {fault : ParseError} (h : s.run limits tokens = .error fault) :
    ∃ before turn rest s', tokens = before ++ (turn ++ rest) ∧ IsTurn turn rest ∧
      s.run limits before = .ok s' ∧ s'.run limits turn = .error fault := by
  induction s, tokens using run.induct with
  | case1 s => contradiction
  | case2 s name position opening rest ih =>
    rw [run] at h
    cases hn : s.openCall limits name position opening with
    | error cause =>
      rw [hn] at h
      refine ⟨[], _, rest, s, rfl, .name, rfl, ?_⟩
      rw [run, hn]
      exact h
    | ok next =>
      rw [hn] at h
      obtain ⟨before, turn, rest, s', rfl, ht, hb, he⟩ := ih next h
      refine ⟨_ :: _ :: before, turn, rest, s', rfl, ht, ?_, he⟩
      rw [run, hn]
      exact hb
  | case3 s name position rest hp =>
    cases rest with
    | nil => exact ⟨[], _, [], s, rfl, .lastName, rfl, h⟩
    | cons next rest =>
      refine ⟨[], _, rest, s, rfl, .name, rfl, ?_⟩
      rw [run_name limits s name position hp] at h
      rwa [run_name]
      rintro opening more heq
      obtain ⟨rfl, -⟩ := List.cons.inj heq
      exact hp opening rest rfl
  | case4 s token rest h₁ h₂ ih =>
    have hk := kind_ne_identifier h₂
    rw [run_token limits s rest hk] at h
    cases hn : s.push limits token with
    | error cause =>
      rw [hn] at h
      refine ⟨[], _, rest, s, rfl, .token hk, rfl, ?_⟩
      rw [run_token limits s _ hk, hn]
      exact h
    | ok next =>
      rw [hn] at h
      obtain ⟨before, turn, rest, s', rfl, ht, hb, he⟩ := ih next h
      refine ⟨_ :: before, turn, rest, s', rfl, ht, ?_, he⟩
      rw [run_token limits s _ hk, hn]
      exact hb

/-- Nothing that comes behind a turn helps it, but a name alone may still become a call. -/
theorem IsTurn.run_append {limits : Limits} {s : Conversion ν} {turn rest : List (Token ν)}
    {fault : ParseError} (ht : IsTurn turn rest) (h : s.run limits turn = .error fault) :
    (∃ name position, turn = [⟨.identifier name, position⟩] ∧ rest = [] ∧
      fault = .missingCallParen name position) ∨
    ∀ more, s.run limits (turn ++ more) = .error fault := by
  cases ht with
  | @token token _ hk =>
    rw [run_token limits s [] hk] at h
    obtain h | ⟨next, -, h⟩ := bind_eq_error.mp h
    · refine .inr fun more => ?_
      rw [List.singleton_append, run_token limits s more hk, h]
      rfl
    · contradiction
  | @name name position next _ =>
    refine .inr fun more => ?_
    obtain ⟨kind, opening⟩ := next
    cases kind with
    | leftParen =>
      rw [run] at h
      obtain h | ⟨next, -, h⟩ := bind_eq_error.mp h
      · rw [List.cons_append, List.singleton_append, run, h]
        rfl
      · contradiction
    | _ => exact h
  | lastName => exact .inl ⟨_, _, rfl, rfl, (Except.error.inj h).symm⟩

end Conversion

/-! ### Runs and their completions -/

/-- What a run has taken in without a fault starts a token list that is converted. -/
theorem viable_of_run {limits : Limits} {tokens : List (Token ν)} {s : Conversion ν}
    (h : Conversion.empty.run limits tokens = .ok s) : Viable limits tokens := by
  obtain ⟨d, previous, hd, -, -⟩ := exists_draft_of_run h
  obtain ⟨d', whole, hd', hwhole⟩ := d.exists_run?_completion limits
  refine ⟨d.completion, whole.program, convert_eq_ok_iff.mpr ⟨whole, ?_, rfl⟩⟩
  rw [expression?, Draft.run?_append hd, hd']
  exact hwhole

/-- A run goes on as long as there are tokens that make a formula of what it has taken in.
Where it fails, what came before the turn at fault could still have become a formula, and
with that turn it cannot, unless the tokens end with a name at that point. -/
theorem run_detects (limits : Limits) (tokens : List (Token ν)) :
    (∀ s, Conversion.empty.run limits tokens = .ok s → Viable limits tokens) ∧
    ∀ fault, Conversion.empty.run limits tokens = .error fault →
      ∃ before turn rest s, tokens = before ++ (turn ++ rest) ∧ Conversion.IsTurn turn rest ∧
        Conversion.empty.run limits before = .ok s ∧ s.run limits turn = .error fault ∧
        Viable limits before ∧
        (Viable limits (before ++ turn) → ∃ name position,
          turn = [⟨.identifier name, position⟩] ∧ rest = [] ∧
            fault = .missingCallParen name position) := by
  refine ⟨fun s => viable_of_run, fun fault h => ?_⟩
  obtain ⟨before, turn, rest, s, heq, hturn, hbefore, hfault⟩ := Conversion.exists_turn_of_run h
  refine ⟨before, turn, rest, s, heq, hturn, hbefore, hfault, viable_of_run hbefore, ?_⟩
  rintro ⟨more, program, hconvert⟩
  obtain hname | hfails := hturn.run_append hfault
  · exact hname
  · obtain ⟨last, hlast, -⟩ := bind_eq_ok.mp hconvert
    rw [List.append_assoc, Conversion.run_append hbefore, hfails more] at hlast
    contradiction

/-- A name alone is refused, though a formula may start with it. -/
example :
    let tokens : List (Token ν) := [⟨.identifier "SUM", 0⟩]
    Conversion.empty.run .standard tokens = .error (.missingCallParen "SUM" 0) ∧
      Viable .standard tokens :=
  ⟨rfl, [⟨.leftParen, 3⟩, ⟨.quoted "\"a\"", 4⟩, ⟨.rightParen, 7⟩], _, rfl⟩

end Scorecard.Formula
