import Mathlib.Data.List.Chain
import Mathlib.Data.List.TakeWhile
import Scorecard.Proofs.Formula.Completion
import Scorecard.Proofs.Formula.Nesting
import Scorecard.Proofs.Formula.Reading

/-! What waits on the stack. The parentheses and calls on it are those that the other parts of a
conversion know of, and the operators between them stand in order of precedence. So whatever a
conversion looks for on the stack, or in its list of open calls, is there. -/
namespace Scorecard.Formula

variable {ν : Type}

/-- An operator may wait right above one that binds less tightly, and a power above a power. -/
def BinaryOperator.LiesOn (upper lower : BinaryOperator) : Prop :=
  lower.precedence ≤ upper.precedence ∧
    (lower.precedence = upper.precedence → lower = .power ∧ upper = .power)

namespace Pending

def isParen : Pending → Bool
  | paren _ => true
  | _ => false

/-- The name of a function whose call waits. -/
def name? : Pending → Option String
  | call name => some name
  | _ => none

theorem name?_of_isOperator {entry : Pending} (h : entry.isOperator = true) :
    entry.name? = none := by
  cases entry with
  | binary | sign => rfl
  | paren | call => contradiction

theorem isOperator_of_yieldsTo {op : BinaryOperator} {entry : Pending}
    (h : yieldsTo op entry = true) : entry.isOperator = true := by
  cases entry with
  | binary | sign => rfl
  | paren | call => contradiction

end Pending

namespace Conversion

/-- Everything released down to a parenthesis, as for a comma, a `)` and at the end. -/
abbrev unwind (s : Conversion ν) : Conversion ν :=
  s.releaseWhile Pending.isOperator

/-- How the parts of a conversion go together. The top of the stack comes first. -/
structure InStep (limits : Limits) (s : Conversion ν) : Prop where
  depth_eq : s.depth = s.stack.countP Pending.isParen
  depth_le : s.depth ≤ limits.nesting
  /-- Right above a call lies its `(`. -/
  paren_above : ∀ above name below, s.stack = above ++ .call name :: below →
    ∃ higher position, above = higher ++ [.paren position]
  names : s.stack.filterMap Pending.name? = s.calls.map OpenCall.name
  arguments : ∀ call ∈ s.calls, 1 ≤ call.arguments
  /-- Where no parenthesis and no call comes between, signs wait above operators, and each
  operator above those that bind less tightly. -/
  ascending : ∀ above entries below, s.stack = above ++ entries ++ below →
    (∀ entry ∈ entries, entry.isOperator = true) →
    ∃ (signs : List Sign) (operators : List BinaryOperator),
      entries = signs.map .sign ++ operators.map .binary ∧
        operators.Pairwise BinaryOperator.LiesOn

/-- What a conversion finds where it looks for it. -/
structure Finds (s : Conversion ν) : Prop where
  /-- Only operators and signs are released. -/
  released : ∀ op, ∀ entry ∈ s.stack.takeWhile (Pending.yieldsTo op), entry.isOperator = true
  unwound : ∀ entry ∈ s.stack.takeWhile Pending.isOperator, entry.isOperator = true
  /-- The `(` that is closed has been counted. -/
  counted : ∀ position below, s.unwind.stack = .paren position :: below → 0 < s.unwind.depth
  /-- Under the `(` of a call lies the innermost open call. -/
  call : ∀ position name below, s.unwind.stack = .paren position :: .call name :: below →
    ∃ arguments outer, s.unwind.calls = ⟨name, arguments⟩ :: outer
  /-- No call is met without its `(`. -/
  covered : ∀ name below, s.unwind.stack ≠ .call name :: below
  /-- Where nothing is left on the stack, no call is open. -/
  ended : s.unwind.stack = [] → s.unwind.calls = []
  /-- Behind an operand there is something to put out. -/
  written : expectsOperand s.previous = false → s.unwind.output ≠ []

variable {limits : Limits} {s : Conversion ν}

theorem InStep.finds (h : s.InStep limits)
    (hwritten : expectsOperand s.previous = false → s.unwind.output ≠ []) : s.Finds := by
  have hstack : s.stack = s.stack.takeWhile Pending.isOperator ++ s.unwind.stack :=
    (List.takeWhile_append_dropWhile ..).symm
  have hreleased : ∀ entry ∈ s.stack.takeWhile Pending.isOperator, entry.isOperator = true :=
    fun _ => List.mem_takeWhile_imp
  have hnames : s.unwind.stack.filterMap Pending.name? = s.unwind.calls.map OpenCall.name := by
    have hnone : (s.stack.takeWhile Pending.isOperator).filterMap Pending.name? = [] :=
      List.filterMap_eq_nil_iff.mpr fun entry he => Pending.name?_of_isOperator (hreleased entry he)
    have hall := h.names
    rw [hstack, List.filterMap_append, hnone] at hall
    exact hall
  refine ⟨?_, hreleased, ?_, ?_, ?_, ?_, hwritten⟩
  · exact fun op entry he => Pending.isOperator_of_yieldsTo (List.mem_takeWhile_imp he)
  · intro position below hu
    have hmem : .paren position ∈ s.stack := by
      rw [hstack, hu]
      exact List.mem_append_right _ List.mem_cons_self
    show 0 < s.depth
    rw [h.depth_eq]
    exact List.countP_pos_iff.mpr ⟨_, hmem, rfl⟩
  · intro position name below hu
    rw [hu] at hnames
    obtain ⟨⟨found, arguments⟩, outer, hcalls, rfl, -⟩ := List.map_eq_cons_iff.mp hnames.symm
    exact ⟨arguments, outer, hcalls⟩
  · intro name below hu
    rw [hu] at hstack
    obtain ⟨higher, position, habove⟩ := h.paren_above _ _ _ hstack
    rw [habove] at hreleased
    exact Bool.false_ne_true (hreleased _ (List.mem_append_right _ List.mem_cons_self))
  · intro hu
    rw [hu] at hnames
    exact List.map_eq_nil_iff.mp hnames.symm

end Conversion

/-! ### Operators in order -/

namespace BinaryOperator

theorem LiesOn.trans {upper middle lower : BinaryOperator} (h : upper.LiesOn middle)
    (hm : middle.LiesOn lower) : upper.LiesOn lower := by
  refine ⟨Nat.le_trans hm.1 h.1, fun he => ?_⟩
  have hu : middle.precedence = upper.precedence := Nat.le_antisymm h.1 (he ▸ hm.1)
  exact ⟨(hm.2 (he.trans hu.symm)).1, (h.2 hu).2⟩

instance : Trans LiesOn LiesOn LiesOn := ⟨LiesOn.trans⟩

theorem liesOn_of_level {upper lower : BinaryOperator} (h : lower.rightLevel ≤ upper.level) :
    upper.LiesOn lower := by
  revert h
  unfold LiesOn
  cases upper <;> cases lower <;> decide

end BinaryOperator

namespace Pending

/-- No operator waits above a sign. -/
def LiesOn : (upper lower : Pending) → Prop
  | binary op, binary below => op.LiesOn below
  | binary _, sign _ => False
  | _, _ => True

/-- Operators and signs that lie on one another are signs above operators. -/
theorem exists_signs_of_isChain {entries : List Pending} (h : entries.IsChain LiesOn)
    (ho : ∀ entry ∈ entries, entry.isOperator = true) :
    ∃ (signs : List Sign) (operators : List BinaryOperator),
      entries = signs.map .sign ++ operators.map .binary ∧
        operators.IsChain BinaryOperator.LiesOn := by
  induction entries with
  | nil => exact ⟨[], [], rfl, .nil⟩
  | cons entry entries ih =>
    obtain ⟨hentry, ho⟩ := List.forall_mem_cons.mp ho
    obtain ⟨hhead, htail⟩ := List.isChain_cons.mp h
    obtain ⟨signs, operators, rfl, hchain⟩ := ih htail ho
    cases entry with
    | sign s => exact ⟨s :: signs, operators, rfl, hchain⟩
    | binary op =>
      cases signs with
      | cons s signs => exact (hhead _ rfl).elim
      | nil =>
        refine ⟨[], op :: operators, rfl, List.isChain_cons.mpr ⟨?_, hchain⟩⟩
        intro below hbelow
        refine hhead (.binary below) ?_
        rw [List.map_nil, List.nil_append, List.head?_map]
        exact Option.mem_map_of_mem _ hbelow
    | paren | call => contradiction

end Pending

/-! ### Drafts -/

namespace Draft

theorem countP_stack (os : List (Opening ν)) : (stack os).countP Pending.isParen = depth os := by
  induction os with
  | nil => rfl
  | cons o os ih => cases o <;> simp [List.countP_cons, Pending.isParen, ih]

theorem filterMap_name?_stack (os : List (Opening ν)) :
    (stack os).filterMap Pending.name? = (calls os).map OpenCall.name := by
  induction os with
  | nil => rfl
  | cons o os ih => cases o <;> simpa [List.filterMap_cons, Pending.name?] using ih

theorem arguments_calls (os : List (Opening ν)) : ∀ call ∈ calls os, 1 ≤ call.arguments := by
  induction os with
  | nil => simp
  | cons o os ih => cases o <;> simpa using ih

/-- What waits for the openings that a draft has read lies in order. -/
theorem isChain_stack {tokens : List (Token ν)} {os : List (Opening ν)} (h : Covers tokens os) :
    (stack os).IsChain Pending.LiesOn := by
  induction h with
  | empty => exact .nil
  | @binary _ os _ _ op _ _ hlevel _ ih =>
    cases os with
    | nil => exact .singleton _
    | cons o os =>
      cases o with
      | binary below left => exact .cons_cons (BinaryOperator.liesOn_of_level hlevel) ih
      | sign s => exact absurd hlevel (Nat.not_le_of_lt op.level_lt_operandLevel)
      | group | argument => exact .cons_cons trivial ih
  | sign _ _ ih | group _ ih => exact .cons ih fun _ _ => trivial
  | firstArgument _ ih | nextArgument _ _ ih =>
    exact .cons_cons trivial (.cons ih fun _ _ => trivial)

theorem paren_above_stack {os : List (Opening ν)} {above below : List Pending} {name : String}
    (h : stack os = above ++ .call name :: below) :
    ∃ higher position, above = higher ++ [.paren position] := by
  induction os generalizing above with
  | nil => exact absurd h.symm (List.append_ne_nil_of_right_ne_nil _ (List.cons_ne_nil _ _))
  | cons o os ih =>
    cases above with
    | nil => exact (stack_ne_call _ _ _ h).elim
    | cons top above =>
      cases o with
      | binary | sign | group =>
        obtain ⟨rfl, hrest⟩ := List.cons.inj h
        obtain ⟨higher, position, rfl⟩ := ih hrest
        exact ⟨_ :: higher, position, rfl⟩
      | argument called opening earlier =>
        obtain ⟨rfl, hcall⟩ := List.cons.inj h
        cases above with
        | nil => exact ⟨[], opening, rfl⟩
        | cons next above =>
          obtain ⟨rfl, hrest⟩ := List.cons.inj hcall
          obtain ⟨higher, position, rfl⟩ := ih hrest
          exact ⟨_ :: _ :: higher, position, rfl⟩

variable {limits : Limits} {tokens : List (Token ν)}

theorem inStep_conversion {d : Draft ν} (h : Draft.empty.run? limits tokens = some d)
    (previous : Option (TokenKind ν)) : (d.conversion previous).InStep limits := by
  have hempty : Reads [] (empty : Draft ν) := Covers.empty
  have hchain : (stack d.openings).IsChain Pending.LiesOn := by
    have hreads := hempty.run h
    unfold Reads at hreads
    split at hreads
    · exact isChain_stack hreads
    · obtain ⟨before, last, -, hcovers, -⟩ := hreads
      exact isChain_stack hcovers
  refine ⟨(countP_stack _).symm, depth_le_of_run? h (Nat.zero_le _), ?_, ?_, ?_, ?_⟩
  · exact fun above name below hs => paren_above_stack hs
  · exact filterMap_name?_stack _
  · exact arguments_calls _
  · intro above entries below hs ho
    have hentries : entries.IsChain Pending.LiesOn :=
      hchain.infix ⟨above, below, hs.symm⟩
    obtain ⟨signs, operators, heq, hoperators⟩ := Pending.exists_signs_of_isChain hentries ho
    exact ⟨signs, operators, heq, hoperators.pairwise⟩

/-- Behind an operand there is something to put out. -/
theorem output_unwind_ne_nil (os : List (Opening ν)) (e : Expression ν)
    (previous : Option (TokenKind ν)) :
    ((⟨os, some e⟩ : Draft ν).conversion previous).unwind.output ≠ [] := by
  rw [Conversion.unwind, releaseWhile_conversion _ isOperator_paren]
  exact List.append_ne_nil_of_left_ne_nil
    (mt List.reverse_eq_nil_iff.mp (Expression.postorder_ne_nil _)) _

end Draft

/-- At every point of a run the parts of the conversion go together, so it finds what it looks
for; and the run goes on from there as one over all the tokens does. -/
theorem Conversion.run_inStep {limits : Limits} {before : List (Token ν)} {s : Conversion ν}
    (h : empty.run limits before = .ok s) :
    s.InStep limits ∧ s.Finds ∧
      ∀ rest, empty.run limits (before ++ rest) = s.run limits rest := by
  obtain ⟨d, previous, hd, rfl, due⟩ := exists_draft_of_run h
  have hstep := Draft.inStep_conversion hd previous
  refine ⟨hstep, hstep.finds fun hp => ?_, run_append h⟩
  obtain ⟨os, operand⟩ := d
  cases operand with
  | none => exact absurd (hp.symm.trans due) Bool.false_ne_true
  | some e => exact Draft.output_unwind_ne_nil os e previous

/-- In the middle of `2^-3^(SUM(1,4*-`. -/
theorem Conversion.run_inStep_open_call :
    let tokens : List (Token Nat) :=
      [⟨.number 2, 0⟩, ⟨.operator .power, 1⟩, ⟨.negation, 2⟩, ⟨.number 3, 3⟩,
        ⟨.operator .power, 4⟩, ⟨.leftParen, 5⟩, ⟨.identifier "SUM", 6⟩, ⟨.leftParen, 9⟩,
        ⟨.number 1, 10⟩, ⟨.comma, 11⟩, ⟨.number 4, 12⟩, ⟨.operator .multiply, 13⟩,
        ⟨.operator .subtract, 14⟩]
    let s : Conversion Nat :=
      { output := [.number 4, .number 1, .negate, .number 3, .number 2]
        stack := [.sign .negate, .binary .multiply, .paren 9, .call "SUM", .paren 5,
          .binary .power, .binary .power]
        calls := [⟨"SUM", 2⟩]
        arities := []
        previous := some (.operator .subtract)
        depth := 2 }
    empty.run .standard tokens = .ok s ∧ s.InStep .standard ∧ s.Finds ∧
      ∀ rest, empty.run .standard (tokens ++ rest) = s.run .standard rest :=
  ⟨rfl, run_inStep rfl⟩

end Scorecard.Formula
