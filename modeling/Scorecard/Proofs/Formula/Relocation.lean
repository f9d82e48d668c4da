import Scorecard.Formula.Source
import Scorecard.Proofs.Formula.Completion

/-! Positions of tokens moved. A conversion hands the positions of its tokens on and never
decides by them: from tokens that stand elsewhere it takes the same turns, and the positions
on its stack and in the fault that it ends with are those moved likewise. So the kinds of the
tokens decide the program, or the fault up to its position. -/
namespace Scorecard.Formula

variable {ν : Type}

/-- A fault whose position is moved; names, lengths and limits stay as they are. -/
def ParseError.relocate (f : Nat → Nat) : ParseError → ParseError
  | emptyInput => .emptyInput
  | emptyExpression => .emptyExpression
  | tooLong length limit => .tooLong length limit
  | unmatchedLeftParen position => .unmatchedLeftParen (f position)
  | unmatchedRightParen position => .unmatchedRightParen (f position)
  | emptyArgumentList name position => .emptyArgumentList name (f position)
  | missingCallParen name position => .missingCallParen name (f position)
  | missingOperand position => .missingOperand (f position)
  | unexpectedOperand position => .unexpectedOperand (f position)
  | misplacedComma position => .misplacedComma (f position)
  | nestingTooDeep limit position => .nestingTooDeep limit (f position)

def ScanError.relocate (f : Nat → Nat) : ScanError → ScanError
  | unexpectedCharacter character position => .unexpectedCharacter character (f position)
  | unterminatedString position => .unterminatedString (f position)
  | malformedNumber text position => .malformedNumber text (f position)
  | bareIdentifier name position => .bareIdentifier name (f position)

def FormulaError.relocate (f : Nat → Nat) : FormulaError → FormulaError
  | scan cause => .scan (cause.relocate f)
  | parse cause => .parse (cause.relocate f)
  | evaluation cause => .evaluation cause

def Token.relocate (f : Nat → Nat) (token : Token ν) : Token ν :=
  { token with position := f token.position }

def Pending.relocate (f : Nat → Nat) : Pending → Pending
  | paren position => paren (f position)
  | entry => entry

namespace Conversion

def relocate (f : Nat → Nat) (s : Conversion ν) : Conversion ν :=
  { s with stack := s.stack.map (Pending.relocate f) }

variable (f : Nat → Nat) (s : Conversion ν)

theorem relocate_previous : (s.relocate f).previous = s.previous := rfl

theorem relocate_stack : (s.relocate f).stack = s.stack.map (Pending.relocate f) := rfl

theorem relocate_calls : (s.relocate f).calls = s.calls := rfl

theorem relocate_depth : (s.relocate f).depth = s.depth := rfl

end Conversion

/-- What a step of a conversion came to, with all positions in it moved. -/
def relocateResult (f : Nat → Nat) (result : Except ParseError (Conversion ν)) :
    Except ParseError (Conversion ν) :=
  (result.map (Conversion.relocate f)).mapError (ParseError.relocate f)

/-! ### Steps -/

section Steps

variable (f : Nat → Nat)

theorem Pending.precedence?_relocate (entry : Pending) :
    (entry.relocate f).precedence? = entry.precedence? := by
  cases entry <;> rfl

theorem Pending.release_relocate (output : List (Instruction ν)) (entry : Pending) :
    release output (entry.relocate f) = release output entry := by
  cases entry <;> rfl

theorem opensCall_relocate (stack : List Pending) :
    opensCall (stack.map (Pending.relocate f)) = opensCall stack := by
  rcases stack with _ | ⟨top, _ | ⟨next, below⟩⟩
  · rfl
  · rfl
  · cases next <;> rfl

namespace Conversion

variable (limits : Limits) (s : Conversion ν)

theorem releaseWhile_relocate {p : Pending → Bool}
    (hp : ∀ entry : Pending, p (entry.relocate f) = p entry) :
    (s.relocate f).releaseWhile p = (s.releaseWhile p).relocate f := by
  have hcomp : p ∘ Pending.relocate f = p := funext hp
  simp only [releaseWhile, relocate, List.takeWhile_map, List.dropWhile_map, List.foldl_map,
    Pending.release_relocate, hcomp]

theorem unwind_relocate :
    (s.relocate f).releaseWhile Pending.isOperator =
      (s.releaseWhile Pending.isOperator).relocate f := by
  refine s.releaseWhile_relocate f fun entry => ?_
  rw [Pending.isOperator, Pending.precedence?_relocate]
  rfl

theorem requireOperand_relocate (position : Nat) :
    (s.relocate f).requireOperand (f position) =
      (s.requireOperand position).mapError (ParseError.relocate f) := by
  cases h : expectsOperand s.previous <;> simp only [requireOperand, relocate_previous, h] <;> rfl

theorem enter_relocate (position : Nat) :
    (s.relocate f).enter limits (f position) = relocateResult f (s.enter limits position) := by
  by_cases h : s.depth + 1 ≤ limits.nesting
  · simp only [enter, relocate_depth, h, if_true]
    rfl
  · simp only [enter, relocate_depth, h, if_false]
    rfl

/-- What comes behind a step is moved if it is from wherever the step leads. -/
theorem relocateResult_bind {result moved : Except ParseError (Conversion ν)}
    {step other : Conversion ν → Except ParseError (Conversion ν)}
    (hm : moved = relocateResult f result)
    (h : ∀ s, other (s.relocate f) = relocateResult f (step s)) :
    moved >>= other = relocateResult f (result >>= step) := by
  rw [hm]
  cases result with
  | ok s => exact h s
  | error fault => rfl

/-- Where an operand has to be due, that is checked first and alike. -/
theorem requireOperand_bind_relocate (position : Nat)
    {step other : Unit → Except ParseError (Conversion ν)}
    (h : other () = relocateResult f (step ())) :
    (s.relocate f).requireOperand (f position) >>= other =
      relocateResult f (s.requireOperand position >>= step) := by
  rw [requireOperand_relocate]
  cases s.requireOperand position with
  | ok _ => exact h
  | error fault => rfl

theorem emit_relocate (position : Nat) (operand : Instruction ν) :
    (s.relocate f).emit (f position) operand = relocateResult f (s.emit position operand) :=
  s.requireOperand_bind_relocate f position rfl

theorem operator_relocate (position : Nat) (op : BinaryOperator) :
    (s.relocate f).operator (f position) op = relocateResult f (s.operator position op) := by
  have hrelease : (s.relocate f).releaseWhile (Pending.yieldsTo op) =
      (s.releaseWhile (Pending.yieldsTo op)).relocate f := by
    refine s.releaseWhile_relocate f fun entry => ?_
    rw [Pending.yieldsTo, Pending.precedence?_relocate]
    rfl
  simp only [operator, relocate_previous, hrelease]
  split
  · cases op.sign? <;> rfl
  · rfl

/-- What a comma or a `)` looks for on an unwound stack it finds wherever the `(` stand. -/
theorem comma_relocate (position : Nat) :
    (s.relocate f).comma (f position) = relocateResult f (s.comma position) := by
  simp only [comma, relocate_previous, unwind_relocate]
  split
  · rfl
  · obtain ⟨output, stack, calls, arities, previous, depth⟩ :=
      s.releaseWhile Pending.isOperator
    rcases stack with _ | ⟨_ | _ | _ | _, _ | ⟨_ | _ | _ | _, below⟩⟩ <;> cases calls <;> rfl

theorem emptyClose_relocate (position : Nat) :
    (s.relocate f).emptyClose (f position) = (s.emptyClose position).relocate f := by
  simp only [emptyClose, relocate_previous, relocate_calls, relocate_stack, opensCall_relocate]
  split
  · split <;> rfl
  · rfl

theorem close_relocate (position : Nat) :
    (s.relocate f).close (f position) = relocateResult f (s.close position) := by
  simp only [close, relocate_previous, unwind_relocate, emptyClose_relocate]
  split
  · rfl
  · obtain ⟨output, stack, calls, arities, previous, depth⟩ :=
      s.releaseWhile Pending.isOperator
    rcases stack with _ | ⟨_ | _ | _ | _, _ | ⟨_ | _ | _ | _, below⟩⟩ <;> cases calls <;> rfl

theorem push_relocate (token : Token ν) :
    (s.relocate f).push limits (token.relocate f) = relocateResult f (s.push limits token) := by
  -- That the token is remembered afterwards has nothing to do with positions.
  have hremember {step other : Except ParseError (Conversion ν)}
      (h : other = relocateResult f step) :
      other >>= (fun next => pure { next with previous := some token.kind }) =
        relocateResult f (step >>= fun next => pure { next with previous := some token.kind }) :=
    relocateResult_bind f h fun _ => rfl
  obtain ⟨kind, position⟩ := token
  cases kind with
  | number value => exact hremember (s.emit_relocate f position (.number value))
  | quoted key => exact hremember (s.emit_relocate f position (.reference key))
  | identifier name => rfl
  | operator op => exact hremember (s.operator_relocate f position op)
  | negation => exact s.requireOperand_bind_relocate f position rfl
  | leftParen =>
    exact s.requireOperand_bind_relocate f position (hremember (s.enter_relocate f limits position))
  | rightParen => exact hremember (s.close_relocate f position)
  | comma => exact hremember (s.comma_relocate f position)

theorem openCall_relocate (name : String) (position opening : Nat) :
    (s.relocate f).openCall limits name (f position) (f opening) =
      relocateResult f (s.openCall limits name position opening) := by
  refine s.requireOperand_bind_relocate f position ?_
  have henter := enter_relocate f limits { s with stack := .call name :: s.stack } opening
  exact relocateResult_bind f henter fun _ => rfl

/-- A run from moved tokens is the run moved. -/
theorem run_relocate (tokens : List (Token ν)) :
    (s.relocate f).run limits (tokens.map (Token.relocate f)) =
      relocateResult f (s.run limits tokens) := by
  induction s, tokens using run.induct with
  | case1 s => rfl
  | case2 s name position opening rest ih =>
    rw [run]
    exact relocateResult_bind f (s.openCall_relocate f limits name position opening) ih
  | case3 s name position rest hp =>
    rw [run_name limits s name position hp]
    refine run_name limits _ name (f position) fun opening more hr => ?_
    cases rest with
    | nil => contradiction
    | cons next rest =>
      obtain ⟨hn, -⟩ := List.cons.inj hr
      obtain ⟨kind, start⟩ := next
      obtain rfl : kind = .leftParen := congrArg Token.kind hn
      exact hp start rest rfl
  | case4 s token rest h₁ h₂ ih =>
    have hk := kind_ne_identifier h₂
    rw [run_token limits s rest hk, List.map_cons,
      run_token limits _ _ (show ∀ name, (token.relocate f).kind ≠ _ from hk)]
    exact relocateResult_bind f (s.push_relocate f limits token) ih

theorem finish_relocate (ending : Nat) :
    (s.relocate f).finish (f ending) =
      (s.finish ending).mapError (ParseError.relocate f) := by
  simp only [finish, relocate_previous, unwind_relocate]
  split
  · rfl
  split
  · rfl
  obtain ⟨output, stack, calls, arities, previous, depth⟩ := s.releaseWhile Pending.isOperator
  cases stack with
  | nil =>
    cases calls with
    | nil => cases output <;> rfl
    | cons call outer => rfl
  | cons top below => cases top <;> rfl

end Conversion

end Steps

/-! ### Tokens without their positions -/

/-- The kinds of tokens decide what they are converted to, up to the position of a fault. -/
theorem convert_unplaced (limits : Limits) (tokens : List (Token ν)) :
    (convert limits tokens).mapError (ParseError.relocate fun _ => 0) =
      Conversion.empty.run limits ((tokens.map Token.kind).map fun kind => ⟨kind, 0⟩) >>=
        fun s => s.finish 0 := by
  have htokens : (tokens.map Token.kind).map (fun kind => ⟨kind, 0⟩) =
      tokens.map (Token.relocate fun _ => 0) := List.map_map
  have hrun := Conversion.empty.run_relocate (fun _ => 0) limits tokens
  rw [htokens, convert]
  refine Eq.trans ?_ (congrArg (· >>= _) hrun.symm)
  cases Conversion.empty.run limits tokens with
  | ok s => exact (s.finish_relocate (fun _ => 0) (endOf tokens)).symm
  | error fault => rfl

theorem convert_congr {limits : Limits} {tokens others : List (Token ν)}
    (h : tokens.map Token.kind = others.map Token.kind) :
    (convert limits tokens).mapError (ParseError.relocate fun _ => 0) =
      (convert limits others).mapError (ParseError.relocate fun _ => 0) := by
  rw [convert_unplaced, convert_unplaced, h]

end Scorecard.Formula
