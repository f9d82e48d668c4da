import Scorecard.Formula.Scanner
import Scorecard.Proofs.Text.Runs

/-! Texts as rows of lexemes. A lexeme is told from the characters around it: runs of
numerals and of the characters of a name stop where the next character is of another kind.
Scanning finds the one way to cut a text into lexemes and blanks, and fails if there is
none. -/
namespace Scorecard.Formula

/-! ### Classes of characters -/

theorem isAlpha_iff {c : Char} :
    c.isAlpha = true ↔ (65 ≤ c.toNat ∧ c.toNat ≤ 90) ∨ (97 ≤ c.toNat ∧ c.toNat ≤ 122) := by
  show (decide (65 ≤ c.val ∧ c.val ≤ 90) || (decide (97 ≤ c.val) && decide (c.val ≤ 122))) =
    true ↔ _
  simp only [Bool.or_eq_true, Bool.and_eq_true, decide_eq_true_eq, UInt32.le_iff_toNat_le]
  exact Iff.rfl

theorem isNumeral_iff {c : Char} :
    isNumeral c = true ↔ (48 ≤ c.toNat ∧ c.toNat ≤ 57) ∨ c.toNat = 46 := by
  have hpoint : c = '.' ↔ c.toNat = 46 := by
    rw [← Char.toNat_inj]
    rfl
  simp only [isNumeral, Char.isDigit, Bool.or_eq_true, Bool.and_eq_true, beq_iff_eq,
    decide_eq_true_eq, ge_iff_le, UInt32.le_iff_toNat_le, hpoint]
  exact Iff.rfl

theorem not_isNumeral_of_isAlpha {c : Char} (h : c.isAlpha = true) : ¬ isNumeral c = true := by
  rw [isAlpha_iff] at h
  rw [isNumeral_iff]
  omega

/-- No number and no name goes on with a blank. -/
theorem not_isNumeral_of_isBlank {c : Char} (h : Text.isBlank c = true) :
    ¬ isNumeral c = true ∧ ¬ c.isAlpha = true := by
  rw [isNumeral_iff, isAlpha_iff]
  simp only [Text.isBlank, Bool.or_eq_true, Bool.and_eq_true, decide_eq_true_eq, beq_iff_eq] at h
  omega

variable {ν : Type} [Arithmetic ν]

/-! ### Lexemes in their places -/

/-- A lexeme as written, with its token, between the character before it (`none` at the
start of a text) and the text behind it. -/
inductive IsLexeme :
    (previous : Option Char) → (run : List Char) → TokenKind ν → (after : List Char) → Prop where
  /-- All digits and points that stand together, with one point at most, which is not the
  last of them. -/
  | number {previous : Option Char} {run after : List Char}
      (starts : ∀ c ∈ previous, ¬ isNumeral c) (ends : ∀ c ∈ after.head?, ¬ isNumeral c)
      (ne_nil : run ≠ []) (numerals : ∀ c ∈ run, isNumeral c)
      (points : run.count '.' ≤ 1) (closed : run.getLast? ≠ some '.') :
      IsLexeme previous run
        (.number (Arithmetic.ofDecimal (decimalParts run).1 (decimalParts run).2)) after
  /-- Whatever stands between two quotes and holds none. -/
  | quoted {previous : Option Char} {after : List Char} (body : List Char) (inside : '"' ∉ body) :
      IsLexeme previous ('"' :: body ++ ['"'])
        (.quoted (String.ofList ('"' :: body ++ ['"']))) after
  /-- A letter and all letters, digits and underscores that follow it; the `(` behind them
  ends the run. -/
  | name {previous : Option Char} {first : Char} {rest after : List Char}
      (starts : ∀ c ∈ previous, ¬ c.isAlpha) (ends : after.head? = some '(')
      (letter : first.isAlpha) (continues : ∀ c ∈ rest, continuesName c) :
      IsLexeme previous (first :: rest) (.identifier (String.ofList (first :: rest))) after
  | leftParen {previous : Option Char} {after : List Char} :
      IsLexeme previous ['('] .leftParen after
  | rightParen {previous : Option Char} {after : List Char} :
      IsLexeme previous [')'] .rightParen after
  | comma {previous : Option Char} {after : List Char} :
      IsLexeme previous [','] .comma after
  | operator {previous : Option Char} {after : List Char} (op : BinaryOperator) :
      IsLexeme previous [op.symbol] (.operator op) after

/-- No run of numerals and no run of letters goes across the border between a character
and the text behind it. -/
def Apart (previous : Option Char) (text : List Char) : Prop :=
  ∀ c ∈ previous, ∀ d ∈ text.head?, ¬ (isNumeral c ∧ isNumeral d) ∧ ¬ (c.isAlpha ∧ d.isAlpha)

theorem apart_none (text : List Char) : Apart none text :=
  fun _ h => by simp at h

theorem apart_of_not {c : Char} (h : ¬ isNumeral c = true ∧ ¬ c.isAlpha = true)
    (text : List Char) : Apart (some c) text := by
  intro d hd e _
  cases hd
  exact ⟨fun hn => h.1 hn.1, fun ha => h.2 ha.1⟩

theorem apart_of_head? {previous : Option Char} {text : List Char}
    (h : ∀ d ∈ text.head?, ¬ isNumeral d = true ∧ ¬ d.isAlpha = true) : Apart previous text :=
  fun _ _ d hd => ⟨fun hn => (h d hd).1 hn.2, fun ha => (h d hd).2 ha.2⟩

namespace IsLexeme

variable {previous : Option Char} {run after : List Char} {kind : TokenKind ν}

theorem exists_cons (h : IsLexeme previous run kind after) :
    ∃ first rest, run = first :: rest ∧ ¬ Text.isBlank first := by
  have hnumeral {c : Char} (hc : isNumeral c = true) : ¬ Text.isBlank c :=
    fun hb => (not_isNumeral_of_isBlank hb).1 hc
  cases h with
  | number _ _ ne_nil numerals =>
    obtain ⟨first, rest, rfl⟩ := List.exists_cons_of_ne_nil ne_nil
    exact ⟨first, rest, rfl, hnumeral (numerals first List.mem_cons_self)⟩
  | quoted => exact ⟨_, _, rfl, by decide⟩
  | name _ _ letter => exact ⟨_, _, rfl, fun hb => (not_isNumeral_of_isBlank hb).2 letter⟩
  | leftParen | rightParen | comma => exact ⟨_, _, rfl, by decide⟩
  | operator op =>
    cases op
    all_goals exact ⟨_, _, rfl, by decide⟩

/-- What follows a lexeme does not go on with it. -/
theorem apart (h : IsLexeme previous run kind after) : Apart run.getLast? after := by
  cases h with
  | number _ ends _ numerals =>
    intro c hc d hd
    have hlast := numerals c (List.mem_of_getLast? hc)
    exact ⟨fun hn => ends d hd hn.2, fun ha => not_isNumeral_of_isAlpha ha.1 hlast⟩
  | quoted =>
    rw [List.getLast?_concat]
    exact apart_of_not (by decide) after
  | name _ ends =>
    refine apart_of_head? fun d hd => ?_
    rw [ends] at hd
    cases hd
    decide
  | leftParen | rightParen | comma => exact apart_of_not (by decide) after
  | operator op =>
    cases op
    all_goals exact apart_of_not (by decide) after

end IsLexeme

/-! ### Reading one lexeme -/

namespace Lexeme

variable {position : Nat} {first : Char} {rest : List Char}

/-- A lexeme read has been cut off the front of the text, and fits in there. -/
structure Fits (previous : Option Char) (first : Char) (l : Lexeme ν rest) (run : List Char) :
    Prop where
  text_eq : run ++ l.after = first :: rest
  width_eq : l.width = Text.width run
  isLexeme : IsLexeme previous run l.kind l.after

theorem numeral_fits {previous : Option Char} {l : Lexeme ν rest}
    (hp : ∀ c ∈ previous, ¬ isNumeral c) (hf : isNumeral first = true)
    (h : numeral position first rest = .ok l) : ∃ run, l.Fits previous first run := by
  unfold numeral at h
  dsimp only at h
  split at h
  case isTrue hd =>
    cases h
    simp only [isDecimal, Bool.and_eq_true, decide_eq_true_eq, bne_iff_ne] at hd
    refine ⟨first :: rest.takeWhile isNumeral, ?_, rfl, ?_⟩
    · rw [List.cons_append, List.takeWhile_append_dropWhile]
    · refine .number hp Text.head?_dropWhile (List.cons_ne_nil _ _) ?_ hd.1 hd.2
      intro c hc
      rcases List.mem_cons.mp hc with rfl | hc
      · exact hf
      · exact List.all_eq_true.mp List.all_takeWhile c hc
  case isFalse => contradiction

theorem quoted_fits {previous : Option Char} {l : Lexeme ν rest}
    (h : quoted position rest = .ok l) : ∃ run, l.Fits previous '"' run := by
  unfold quoted at h
  dsimp only at h
  split at h
  case h_1 => contradiction
  case h_2 c after hc =>
    cases h
    obtain rfl : c = '"' := by
      have hmem : c ∈ (rest.dropWhile (· != '"')).head? := by
        rw [hc]
        rfl
      simpa using Text.head?_dropWhile c hmem
    refine ⟨'"' :: rest.takeWhile (· != '"') ++ ['"'], ?_, ?_, ?_⟩
    · rw [List.append_assoc, List.cons_append, List.singleton_append, ← hc,
        List.takeWhile_append_dropWhile]
    · rw [Text.width_append]
      simp only [Text.width]
      show _ + 2 = 1 + _ + (1 + 0)
      omega
    · refine .quoted _ fun hm => ?_
      have hplain := List.all_eq_true.mp List.all_takeWhile '"' hm
      simp at hplain

theorem name_fits {previous : Option Char} {l : Lexeme ν rest}
    (hp : ∀ c ∈ previous, ¬ c.isAlpha) (hf : first.isAlpha = true)
    (h : name position first rest = .ok l) : ∃ run, l.Fits previous first run := by
  unfold name at h
  dsimp only at h
  split at h
  case isTrue hc =>
    cases h
    refine ⟨first :: rest.takeWhile continuesName, ?_, rfl, ?_⟩
    · rw [List.cons_append, List.takeWhile_append_dropWhile]
    · exact .name hp (by simpa using hc) hf fun c hc => List.all_eq_true.mp List.all_takeWhile c hc
  case isFalse => contradiction

theorem single_fits {previous : Option Char} {kind : TokenKind ν}
    (h : IsLexeme previous [first] kind rest) (hw : first.utf8Size = 1) :
    ∃ run, (single kind rest).Fits previous first run :=
  ⟨[first], rfl, by simp [Text.width, hw, single], h⟩

theorem ofSymbol?_eq_some {op : BinaryOperator} (h : BinaryOperator.ofSymbol? first = some op) :
    first = op.symbol := by
  have hfound := List.find?_some h
  exact (beq_iff_eq.mp hfound).symm

theorem read_fits {previous : Option Char} {l : Lexeme ν rest} (hp : Apart previous (first :: rest))
    (h : read position first rest = .ok l) : ∃ run, l.Fits previous first run := by
  unfold read at h
  split at h
  case isTrue hc =>
    cases h
    obtain rfl := beq_iff_eq.mp hc
    exact single_fits .leftParen rfl
  split at h
  case isTrue hc =>
    cases h
    obtain rfl := beq_iff_eq.mp hc
    exact single_fits .rightParen rfl
  split at h
  case isTrue hc =>
    cases h
    obtain rfl := beq_iff_eq.mp hc
    exact single_fits .comma rfl
  split at h
  case isTrue hc =>
    obtain rfl := beq_iff_eq.mp hc
    exact quoted_fits h
  split at h
  case isTrue hc => exact numeral_fits (fun c hm hn => (hp c hm first rfl).1 ⟨hn, hc⟩) hc h
  split at h
  case isTrue hc => exact name_fits (fun c hm ha => (hp c hm first rfl).2 ⟨ha, hc⟩) hc h
  split at h
  case h_1 op hop =>
    cases h
    obtain rfl := ofSymbol?_eq_some hop
    exact single_fits (.operator op) (by cases op <;> rfl)
  case h_2 => contradiction

theorem beq_eq_false_of_class {p : Char → Bool} {mark : Char} (hp : p first = true)
    (hm : p mark = false) : (first == mark) = false := by
  refine beq_eq_false_iff_ne.mpr ?_
  rintro rfl
  rw [hm] at hp
  contradiction

theorem read_of_isNumeral (h : isNumeral first = true) :
    (read position first rest : Except ScanError (Lexeme ν rest)) =
      numeral position first rest := by
  simp only [read, h, beq_eq_false_of_class h (show isNumeral '(' = false from rfl),
    beq_eq_false_of_class h (show isNumeral ')' = false from rfl),
    beq_eq_false_of_class h (show isNumeral ',' = false from rfl),
    beq_eq_false_of_class h (show isNumeral '"' = false from rfl), Bool.false_eq_true, if_false,
    if_true]

theorem read_of_isAlpha (h : first.isAlpha = true) :
    (read position first rest : Except ScanError (Lexeme ν rest)) =
      name position first rest := by
  simp only [read, h, not_isNumeral_of_isAlpha h,
    beq_eq_false_of_class h (show '('.isAlpha = false from rfl),
    beq_eq_false_of_class h (show ')'.isAlpha = false from rfl),
    beq_eq_false_of_class h (show ','.isAlpha = false from rfl),
    beq_eq_false_of_class h (show '"'.isAlpha = false from rfl), Bool.false_eq_true, if_false,
    if_true]

/-- A lexeme in front of a text is the one that is read there. -/
theorem read_of_isLexeme {previous : Option Char} {run after : List Char} {kind : TokenKind ν}
    (h : IsLexeme previous run kind after) (he : run ++ after = first :: rest) (position : Nat) :
    ∃ l : Lexeme ν rest, read position first rest = .ok l ∧ l.kind = kind ∧ l.after = after ∧
      l.width = Text.width run := by
  cases h with
  | number _ ends ne_nil numerals points closed =>
    obtain ⟨first, run, rfl⟩ := List.exists_cons_of_ne_nil ne_nil
    rw [List.cons_append] at he
    obtain ⟨rfl, rfl⟩ := List.cons.inj he
    obtain ⟨hf, hr⟩ := List.forall_mem_cons.mp numerals
    obtain ⟨htake, hdrop⟩ := Text.takeWhile_append hr ends
    have hd : isDecimal (first :: run) = true := by
      simp [isDecimal, points, closed]
    rw [read_of_isNumeral hf]
    simp only [numeral, htake, hdrop, hd, if_true]
    exact ⟨_, rfl, rfl, rfl, rfl⟩
  | quoted body inside =>
    rw [List.append_assoc, List.cons_append, List.singleton_append] at he
    obtain ⟨rfl, rfl⟩ := List.cons.inj he
    obtain ⟨htake, hdrop⟩ := Text.takeWhile_append_cons inside after
    show ∃ l, quoted position (body ++ '"' :: after) = .ok l ∧ _
    unfold quoted
    dsimp only
    split
    case h_1 hc =>
      rw [hdrop] at hc
      contradiction
    case h_2 c tail hc =>
      rw [hdrop] at hc
      obtain ⟨rfl, rfl⟩ := List.cons.inj hc
      refine ⟨_, rfl, ?_, rfl, ?_⟩
      · simp only [htake]
      · simp only [htake, Text.width_append]
        show _ = 1 + _ + (1 + 0)
        omega
  | name _ ends letter continues =>
    rw [List.cons_append] at he
    obtain ⟨rfl, rfl⟩ := List.cons.inj he
    have hstop : ∀ c ∈ after.head?, ¬ continuesName c = true := by
      rw [ends]
      simp [continuesName]
    obtain ⟨htake, hdrop⟩ := Text.takeWhile_append continues hstop
    rw [read_of_isAlpha letter]
    simp only [name, htake, hdrop, ends, beq_self_eq_true, if_true]
    exact ⟨_, rfl, rfl, rfl, rfl⟩
  | leftParen | rightParen | comma =>
    obtain ⟨rfl, rfl⟩ := List.cons.inj he
    exact ⟨_, rfl, rfl, rfl, rfl⟩
  | operator op =>
    obtain ⟨rfl, rfl⟩ := List.cons.inj he
    cases op
    all_goals exact ⟨_, rfl, rfl, rfl, rfl⟩

end Lexeme

/-- A text starts with one lexeme only. -/
theorem IsLexeme.unique {previous other : Option Char} {run after run' after' : List Char}
    {kind kind' : TokenKind ν} (h : IsLexeme previous run kind after)
    (h' : IsLexeme other run' kind' after') (he : run' ++ after' = run ++ after) :
    run' = run ∧ kind' = kind ∧ after' = after := by
  obtain ⟨first, more, hrun, -⟩ := h.exists_cons
  have ht : run ++ after = first :: (more ++ after) := by rw [hrun, List.cons_append]
  obtain ⟨l, hread, rfl, hafter, -⟩ := Lexeme.read_of_isLexeme h ht 0
  obtain ⟨l', hread', rfl, hafter', -⟩ := Lexeme.read_of_isLexeme h' (he.trans ht) 0
  obtain rfl := Except.ok.inj (hread.symm.trans hread')
  obtain rfl : after' = after := hafter'.symm.trans hafter
  exact ⟨List.append_cancel_right he, rfl, rfl⟩

/-! ### Texts cut into lexemes -/

/-- A piece of a text. -/
inductive Piece (ν : Type) where
  | blank (c : Char)
  | lexeme (run : List Char) (kind : TokenKind ν)

/-- A text is cut into pieces, every one of which is in its place behind `previous`. -/
inductive Cut : (previous : Option Char) → (text : List Char) → List (Piece ν) → Prop where
  | nil {previous : Option Char} : Cut previous [] []
  | blank {previous : Option Char} {c : Char} {rest : List Char} {pieces : List (Piece ν)}
      (isBlank : Text.isBlank c) (tail : Cut (some c) rest pieces) :
      Cut previous (c :: rest) (.blank c :: pieces)
  | lexeme {previous : Option Char} {run rest : List Char} {kind : TokenKind ν}
      {pieces : List (Piece ν)} (isLexeme : IsLexeme previous run kind rest)
      (tail : Cut run.getLast? rest pieces) :
      Cut previous (run ++ rest) (.lexeme run kind :: pieces)

/-- The tokens of a row of pieces, each at the byte that its lexeme starts at. -/
def Piece.tokens (position : Nat) : List (Piece ν) → List (Token ν)
  | [] => []
  | .blank c :: rest => tokens (position + c.utf8Size) rest
  | .lexeme run kind :: rest => ⟨kind, position⟩ :: tokens (position + Text.width run) rest

namespace Cut

variable {previous : Option Char} {rest : List Char} {c : Char} {pieces : List (Piece ν)}

theorem eq_nil (h : Cut previous [] pieces) : pieces = [] := by
  generalize ht : ([] : List Char) = text at h
  cases h with
  | nil => rfl
  | blank => contradiction
  | lexeme isLexeme =>
    obtain ⟨first, run, rfl, -⟩ := isLexeme.exists_cons
    contradiction

/-- A blank is a piece of its own. -/
theorem of_blank (h : Cut previous (c :: rest) pieces) (hc : Text.isBlank c = true) :
    ∃ tail, pieces = .blank c :: tail ∧ Cut (some c) rest tail := by
  generalize ht : c :: rest = text at h
  cases h with
  | nil => contradiction
  | blank _ tail =>
    obtain ⟨rfl, rfl⟩ := List.cons.inj ht
    exact ⟨_, rfl, tail⟩
  | lexeme isLexeme =>
    obtain ⟨first, run, rfl, hfirst⟩ := isLexeme.exists_cons
    obtain ⟨rfl, -⟩ := List.cons.inj ht
    exact absurd hc hfirst

/-- Anything else starts a lexeme. -/
theorem of_not_blank (h : Cut previous (c :: rest) pieces) (hc : ¬ Text.isBlank c = true) :
    ∃ run kind after tail, run ++ after = c :: rest ∧ IsLexeme previous run kind after ∧
      pieces = .lexeme run kind :: tail ∧ Cut run.getLast? after tail := by
  generalize ht : c :: rest = text at h
  cases h with
  | nil => contradiction
  | blank isBlank _ =>
    obtain ⟨rfl, -⟩ := List.cons.inj ht
    exact absurd isBlank hc
  | lexeme isLexeme tail => exact ⟨_, _, _, _, rfl, isLexeme, rfl, tail⟩

/-- Where a text starts with a lexeme, that lexeme is the first piece. -/
theorem of_isLexeme {other : Option Char} {run after : List Char} {kind : TokenKind ν}
    (h : Cut previous (run ++ after) pieces) (hl : IsLexeme other run kind after) :
    ∃ tail, pieces = .lexeme run kind :: tail ∧ Cut run.getLast? after tail := by
  obtain ⟨first, more, hrun, hfirst⟩ := hl.exists_cons
  have ht : run ++ after = first :: (more ++ after) := by rw [hrun, List.cons_append]
  rw [ht] at h
  obtain ⟨run', kind', after', tail, he, hl', rfl, htail⟩ := h.of_not_blank hfirst
  obtain ⟨rfl, rfl, rfl⟩ := hl.unique hl' (he.trans ht.symm)
  exact ⟨tail, rfl, htail⟩

/-- Lexemes leave no choice of where to cut. -/
theorem unique {text : List Char} {other : List (Piece ν)} (h : Cut previous text pieces)
    (ho : Cut previous text other) : other = pieces := by
  induction h generalizing other with
  | nil => exact ho.eq_nil
  | blank isBlank _ ih =>
    obtain ⟨tail, rfl, ht⟩ := ho.of_blank isBlank
    rw [ih ht]
  | lexeme isLexeme _ ih =>
    obtain ⟨tail, rfl, ht⟩ := ho.of_isLexeme isLexeme
    rw [ih ht]

/-- Every token is that of a lexeme. -/
theorem exists_isLexeme {text : List Char} (h : Cut previous text pieces) (position : Nat) :
    ∀ t ∈ Piece.tokens position pieces, ∃ before run after, IsLexeme before run t.kind after := by
  induction h generalizing position with
  | nil => simp [Piece.tokens]
  | blank _ _ ih => exact ih _
  | lexeme isLexeme _ ih => exact List.forall_mem_cons.mpr ⟨⟨_, _, _, isLexeme⟩, ih _⟩

theorem kind_ne_negation {text : List Char} (h : Cut previous text pieces) (position : Nat) :
    ∀ t ∈ Piece.tokens position pieces, t.kind ≠ .negation := by
  intro t ht heq
  obtain ⟨_, _, _, hlexeme⟩ := h.exists_isLexeme position t ht
  rw [heq] at hlexeme
  cases hlexeme

/-- The first token behind a name is the `(` of its call, which starts where the name ends. -/
theorem tokens_of_identifier {text : List Char} (h : Cut previous text pieces) {position : Nat}
    {i start : Nat} {name : String}
    (hi : (Piece.tokens position pieces)[i]? = some ⟨.identifier name, start⟩) :
    (Piece.tokens position pieces)[i + 1]? =
      some ⟨.leftParen, start + name.utf8ByteSize⟩ := by
  induction h generalizing position i with
  | nil => simp [Piece.tokens] at hi
  | blank _ _ ih => exact ih hi
  | lexeme isLexeme tail ih =>
    cases i with
    | succ i => exact ih hi
    | zero =>
      simp only [Piece.tokens, List.getElem?_cons_zero, Option.some.injEq, Token.mk.injEq] at hi
      obtain ⟨hkind, rfl⟩ := hi
      cases isLexeme with
      | name _ ends =>
        cases hkind
        obtain ⟨after, rfl⟩ := List.head?_eq_some_iff.mp ends
        have hparen : IsLexeme none ['('] (.leftParen : TokenKind ν) after := .leftParen
        obtain ⟨more, rfl, -⟩ := of_isLexeme tail hparen
        rw [← Text.width_eq_utf8ByteSize]
        rfl
      | _ => contradiction

end Cut

/-- A scan yields the tokens of the pieces that its text is cut into. -/
theorem scanFrom_eq_ok_iff {previous : Option Char} {text : List Char} (hp : Apart previous text)
    {found : List (Token ν)} {position : Nat} {tokens : List (Token ν)} :
    scanFrom found position text = .ok tokens ↔
      ∃ pieces, Cut previous text pieces ∧
        tokens = found.reverse ++ Piece.tokens position pieces := by
  -- Each step of the scan takes one piece; the border behind it is apart again.
  fun_induction scanFrom found position text generalizing previous with
  | case1 found position =>
    rw [Except.ok.injEq]
    constructor
    · rintro rfl
      exact ⟨[], .nil, (List.append_nil _).symm⟩
    · rintro ⟨pieces, hcut, rfl⟩
      rw [hcut.eq_nil]
      exact (List.append_nil _).symm
  | case2 found position first rest hblank ih =>
    rw [ih (apart_of_not (not_isNumeral_of_isBlank hblank) rest)]
    constructor
    · rintro ⟨pieces, hcut, rfl⟩
      exact ⟨.blank first :: pieces, .blank hblank hcut, rfl⟩
    · rintro ⟨pieces, hcut, rfl⟩
      obtain ⟨tail, rfl, ht⟩ := hcut.of_blank hblank
      exact ⟨tail, ht, rfl⟩
  | case3 found position first rest hblank fault hread =>
    simp only [reduceCtorEq, false_iff]
    -- A cut would have a lexeme in front, and that one would have been read.
    rintro ⟨pieces, hcut, -⟩
    obtain ⟨run, kind, after, tail, he, hl, -, -⟩ := hcut.of_not_blank hblank
    obtain ⟨l, hl, -⟩ := Lexeme.read_of_isLexeme hl he position
    rw [hread] at hl
    contradiction
  | case4 found position first rest hblank l hread ih =>
    obtain ⟨run, hfits⟩ := Lexeme.read_fits hp hread
    have htokens (pieces : List (Piece ν)) :
        (⟨l.kind, position⟩ :: found).reverse ++ Piece.tokens (position + l.width) pieces =
          found.reverse ++ Piece.tokens position (.lexeme run l.kind :: pieces) := by
      simp [Piece.tokens, hfits.width_eq]
    rw [ih hfits.isLexeme.apart, ← hfits.text_eq]
    simp only [htokens]
    constructor
    · rintro ⟨pieces, hcut, rfl⟩
      exact ⟨_, .lexeme hfits.isLexeme hcut, rfl⟩
    · rintro ⟨pieces, hcut, rfl⟩
      obtain ⟨tail, rfl, ht⟩ := hcut.of_isLexeme hfits.isLexeme
      exact ⟨tail, ht, rfl⟩

/-- A text has tokens if and only if it is a row of lexemes and blanks, and then its tokens
are those of its lexemes, each at the byte that the lexeme starts at. There is one such row
at most. A sign is never told from an operator by its text alone, and every name is followed
by a `(` at once. -/
theorem tokenize_eq_ok_iff (text : String) :
    (∀ tokens : List (Token ν), tokenize text = .ok tokens ↔
      ∃ pieces, Cut none text.toList pieces ∧ tokens = Piece.tokens 0 pieces) ∧
    (∀ pieces other : List (Piece ν), Cut none text.toList pieces → Cut none text.toList other →
      other = pieces) ∧
    ∀ tokens : List (Token ν), tokenize text = .ok tokens →
      (∀ t ∈ tokens, t.kind ≠ .negation) ∧
      ∀ i name start, tokens[i]? = some ⟨.identifier name, start⟩ →
        tokens[i + 1]? = some ⟨.leftParen, start + name.utf8ByteSize⟩ := by
  have hcut (tokens : List (Token ν)) : tokenize text = .ok tokens ↔
      ∃ pieces, Cut none text.toList pieces ∧ tokens = Piece.tokens 0 pieces :=
    scanFrom_eq_ok_iff (apart_none _)
  refine ⟨hcut, fun _ _ h ho => h.unique ho, fun tokens htokens => ?_⟩
  obtain ⟨pieces, h, rfl⟩ := (hcut tokens).mp htokens
  exact ⟨h.kind_ne_negation 0, fun i name start hi => h.tokens_of_identifier hi⟩

/-- Positions are counted in bytes, within quotes and across blanks. -/
example :
    (tokenize "MIN(\"é\"\u00a0+\"\")" : Except ScanError (List (Token Float))).toOption.map
      (·.map Token.position) = some [0, 3, 4, 10, 11, 13] := by
  decide +kernel

end Scorecard.Formula
