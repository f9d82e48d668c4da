import Scorecard.Proofs.Formula.Lexemes
import Scorecard.Proofs.Formula.Relocation

/-! Blanks between lexemes. Anywhere but between a name and its `(`, a text may be spaced out
by blanks: every lexeme is told as before, its neighbours being of no matter to it beyond the
one character on either side, and what stands behind the blanks moves by their width. So the
spaced text has the same program, or the same fault somewhere else. -/
namespace Scorecard.Formula

/-! ### Texts of pieces -/

namespace Piece

variable {ν : Type}

/-- A piece as written. -/
def run : Piece ν → List Char
  | blank c => [c]
  | lexeme run _ => run

def text (pieces : List (Piece ν)) : List Char :=
  pieces.flatMap run

theorem text_cons (piece : Piece ν) (rest : List (Piece ν)) :
    text (piece :: rest) = piece.run ++ text rest :=
  List.flatMap_cons

theorem text_append (front back : List (Piece ν)) :
    text (front ++ back) = text front ++ text back :=
  List.flatMap_append

theorem text_blanks (gap : List Char) : text (gap.map (blank : Char → Piece ν)) = gap := by
  rw [text, List.flatMap_map]
  exact List.flatMap_singleton' gap

/-- The last of some pieces is a name, which its `(` has to follow at once. -/
def EndsInName (pieces : List (Piece ν)) : Prop :=
  ∃ run name, pieces.getLast? = some (.lexeme run (.identifier name))

theorem EndsInName.cons {pieces : List (Piece ν)} (h : EndsInName pieces) (piece : Piece ν) :
    EndsInName (piece :: pieces) := by
  obtain ⟨run, name, h⟩ := h
  exact ⟨run, name, by rw [List.getLast?_cons, h, Option.getD_some]⟩

/-- The tokens of the first piece are followed by those behind it. -/
theorem tokens_cons (piece : Piece ν) (rest : List (Piece ν)) (position : Nat) :
    tokens position (piece :: rest) =
      tokens position [piece] ++ tokens (position + Text.width piece.run) rest := by
  cases piece <;> rfl

theorem tokens_append (front back : List (Piece ν)) (position : Nat) :
    tokens position (front ++ back) =
      tokens position front ++ tokens (position + Text.width (text front)) back := by
  induction front generalizing position with
  | nil => rfl
  | cons piece front ih =>
    rw [List.cons_append, tokens_cons, ih, tokens_cons piece front, text_cons, Text.width_append,
      List.append_assoc, Nat.add_assoc]

theorem tokens_blanks (gap : List Char) (position : Nat) :
    tokens position (gap.map (blank : Char → Piece ν)) = [] := by
  induction gap generalizing position with
  | nil => rfl
  | cons c gap ih => exact ih _

theorem le_of_mem_tokens {pieces : List (Piece ν)} {position : Nat} {token : Token ν}
    (h : token ∈ tokens position pieces) : position ≤ token.position := by
  induction pieces generalizing position with
  | nil => contradiction
  | cons piece pieces ih =>
    cases piece with
    | blank c => exact Nat.le_of_add_right_le (ih h)
    | lexeme run kind =>
      obtain rfl | h := List.mem_cons.mp h
      · exact Nat.le_refl _
      · exact Nat.le_of_add_right_le (ih h)

theorem lt_of_mem_tokens {pieces : List (Piece ν)} (hp : ∀ piece ∈ pieces, piece.run ≠ [])
    {position : Nat} {token : Token ν} (h : token ∈ tokens position pieces) :
    token.position < position + Text.width (text pieces) := by
  induction pieces generalizing position with
  | nil => contradiction
  | cons piece pieces ih =>
    obtain ⟨hrun, hp⟩ := List.forall_mem_cons.mp hp
    obtain ⟨c, more, hrun⟩ := List.exists_cons_of_ne_nil hrun
    have hc := c.utf8Size_pos
    rw [tokens_cons, List.mem_append] at h
    rw [text_cons, Text.width_append]
    obtain h | h := h
    · cases piece with
      | blank => contradiction
      | lexeme run kind =>
        obtain rfl := List.mem_singleton.mp h
        rw [hrun, Text.width]
        show position < _
        omega
    · have hlt := ih hp h
      omega

/-- Tokens further on in a text. -/
theorem tokens_add (pieces : List (Piece ν)) (position distance : Nat) :
    tokens (position + distance) pieces =
      (tokens position pieces).map (Token.relocate (· + distance)) := by
  induction pieces generalizing position with
  | nil => rfl
  | cons piece pieces ih =>
    rw [tokens_cons, tokens_cons piece pieces position, Nat.add_right_comm, ih, List.map_append]
    cases piece <;> rfl

end Piece

variable {ν : Type} [Arithmetic ν]

/-! ### Lexemes beside blanks -/

/-- A lexeme stays one beside blanks, and as long as the characters on either side stay the same.
A name only does if its `(` still follows. -/
theorem IsLexeme.elsewhere {previous other : Option Char} {run after behind : List Char}
    {kind : TokenKind ν} (h : IsLexeme previous run kind after)
    (hl : other = previous ∨ ∀ c ∈ other, Text.isBlank c = true)
    (hr : behind.head? = after.head? ∨
      (∀ name, kind ≠ .identifier name) ∧ ∀ c ∈ behind.head?, Text.isBlank c = true) :
    IsLexeme other run kind behind := by
  cases h with
  | number starts ends ne_nil numerals points closed =>
    refine .number ?_ ?_ ne_nil numerals points closed
    · obtain rfl | hblank := hl
      · exact starts
      · exact fun c hc => (not_isNumeral_of_isBlank (hblank c hc)).1
    · obtain hsame | ⟨-, hblank⟩ := hr
      · exact hsame ▸ ends
      · exact fun c hc => (not_isNumeral_of_isBlank (hblank c hc)).1
  | name starts ends letter continues =>
    obtain hsame | ⟨hk, -⟩ := hr
    · refine .name ?_ (hsame ▸ ends) letter continues
      obtain rfl | hblank := hl
      · exact starts
      · exact fun c hc => (not_isNumeral_of_isBlank (hblank c hc)).2
    · exact absurd rfl (hk _)
  | quoted body inside => exact .quoted body inside
  | leftParen => exact .leftParen
  | rightParen => exact .rightParen
  | comma => exact .comma
  | operator op => exact .operator op

/-! ### Spacing a text out -/

namespace Cut

variable {previous : Option Char} {text : List Char} {pieces front back : List (Piece ν)}
  {gap : List Char}

theorem text_eq (h : Cut previous text pieces) : text = Piece.text pieces := by
  induction h with
  | nil => rfl
  | blank _ _ ih => exact congrArg _ ih
  | lexeme _ _ ih => exact congrArg _ ih

theorem run_ne_nil (h : Cut previous text pieces) : ∀ piece ∈ pieces, piece.run ≠ [] := by
  induction h with
  | nil => simp
  | blank _ _ ih => exact List.forall_mem_cons.mpr ⟨List.cons_ne_nil _ _, ih⟩
  | lexeme isLexeme _ ih =>
    obtain ⟨first, rest, hrun, -⟩ := isLexeme.exists_cons
    exact List.forall_mem_cons.mpr ⟨hrun ▸ List.cons_ne_nil first rest, ih⟩

theorem behind_blank {c : Char} (h : Cut previous text pieces) (hc : Text.isBlank c = true) :
    Cut (some c) text pieces := by
  cases h with
  | nil => exact .nil
  | blank isBlank tail => exact .blank isBlank tail
  | lexeme isLexeme tail =>
    have hblank : ∀ d ∈ some c, Text.isBlank d = true := fun _ hd => Option.some.inj hd ▸ hc
    exact .lexeme (isLexeme.elsewhere (.inr hblank) (.inl rfl)) tail

/-- Blanks may be put in front of a text. -/
theorem indent (h : Cut previous text pieces) (hg : ∀ c ∈ gap, Text.isBlank c = true) :
    Cut previous (gap ++ text) (gap.map .blank ++ pieces) := by
  induction gap generalizing previous with
  | nil => exact h
  | cons c gap ih =>
    obtain ⟨hc, hg⟩ := List.forall_mem_cons.mp hg
    exact .blank hc (ih (h.behind_blank hc) hg)

/-- A lexeme stays one where blanks are put behind it or further on. -/
theorem isLexeme_spaced {run rest : List Char} {kind : TokenKind ν}
    (h : IsLexeme previous run kind rest) (tail : Cut run.getLast? rest (front ++ back))
    (hf : ¬ Piece.EndsInName (.lexeme run kind :: front)) (hg : ∀ c ∈ gap, Text.isBlank c = true) :
    IsLexeme previous run kind (Piece.text (front ++ (gap.map .blank ++ back))) := by
  cases front with
  | nil =>
    cases gap with
    | nil => exact tail.text_eq ▸ h
    | cons c gap =>
      have hk : ∀ name, kind ≠ .identifier name := fun name hk => hf ⟨run, name, hk ▸ rfl⟩
      have hc : Text.isBlank c = true := hg c List.mem_cons_self
      exact h.elsewhere (.inl rfl) (.inr ⟨hk, fun _ hd => Option.some.inj hd ▸ hc⟩)
  | cons next front =>
    refine h.elsewhere (.inl rfl) (.inl ?_)
    have hnext : next.run ≠ [] := tail.run_ne_nil next List.mem_cons_self
    rw [tail.text_eq, List.cons_append, List.cons_append, Piece.text_cons, Piece.text_cons,
      List.head?_append_of_ne_nil _ hnext, List.head?_append_of_ne_nil _ hnext]

/-- Blanks may be put anywhere but behind a name. The pieces in front of them are gone through one
by one: each is in its place as before, since the blanks change at most the character behind it. -/
theorem spaced (h : Cut previous text (front ++ back)) (hf : ¬ Piece.EndsInName front)
    (hg : ∀ c ∈ gap, Text.isBlank c = true) :
    Cut previous (Piece.text (front ++ (gap.map .blank ++ back)))
      (front ++ (gap.map .blank ++ back)) := by
  induction front generalizing previous text with
  | nil =>
    have hindent := h.indent hg
    rwa [hindent.text_eq] at hindent
  | cons piece front ih =>
    have hf' : ¬ Piece.EndsInName front := fun hn => hf (hn.cons piece)
    rw [List.cons_append] at h
    cases h with
    | blank isBlank tail => exact .blank isBlank (ih tail hf')
    | lexeme isLexeme tail =>
      exact .lexeme (isLexeme_spaced isLexeme tail hf hg) (ih tail hf')

end Cut

/-! ### Tokens and programs of a spaced text -/

/-- Where a position goes when some bytes are put in at a border. -/
def shift (border width position : Nat) : Nat :=
  if border ≤ position then position + width else position

/-- Blanks put in leave the tokens in front of them where they are and move those behind. -/
theorem Cut.tokens_spaced {text : List Char} {front back : List (Piece ν)}
    (h : Cut none text (front ++ back)) (gap : List Char) :
    Piece.tokens 0 (front ++ (gap.map .blank ++ back)) =
      (Piece.tokens 0 (front ++ back)).map
        (Token.relocate (shift (Text.width (Piece.text front)) (Text.width gap))) := by
  have hfront : ∀ token ∈ Piece.tokens 0 front,
      token.relocate (shift (Text.width (Piece.text front)) (Text.width gap)) = token := by
    intro token ht
    have hlt := Piece.lt_of_mem_tokens
      (fun piece hp => h.run_ne_nil piece (List.mem_append_left back hp)) ht
    rw [Nat.zero_add] at hlt
    rw [Token.relocate, shift, if_neg (Nat.not_le_of_lt hlt)]
  have hback : ∀ token ∈ Piece.tokens (0 + Text.width (Piece.text front)) back,
      token.relocate (shift (Text.width (Piece.text front)) (Text.width gap)) =
        token.relocate (· + Text.width gap) := by
    intro token ht
    have hle := Piece.le_of_mem_tokens ht
    rw [Nat.zero_add] at hle
    rw [Token.relocate, shift, if_pos hle, Token.relocate]
  rw [Piece.tokens_append, Piece.tokens_append (gap.map _), Piece.tokens_blanks, Piece.text_blanks,
    List.nil_append, Piece.tokens_add, Piece.tokens_append front back, List.map_append,
    List.map_congr_left hfront, List.map_id', List.map_congr_left hback]

theorem tokenize_eq_ok {text : String} {pieces : List (Piece ν)} (h : Cut none text.toList pieces) :
    tokenize text = .ok (Piece.tokens 0 pieces) :=
  (scanFrom_eq_ok_iff (apart_none _)).mpr ⟨pieces, h, rfl⟩

theorem compile_eq {limits : Limits} {text : String} {tokens : List (Token ν)}
    (hl : text.utf8ByteSize ≤ limits.length) (ht : tokenize text = .ok tokens) :
    compile limits text = (convert limits tokens).mapError .parse := by
  rw [compile, if_neg (Nat.not_lt_of_le hl), ht]

/-- Texts whose tokens are of the same kinds come to the same program, or to the same fault. -/
theorem compile_congr {limits : Limits} {text other : String} {tokens others : List (Token ν)}
    (hl : text.utf8ByteSize ≤ limits.length) (ho : other.utf8ByteSize ≤ limits.length)
    (ht : tokenize text = .ok tokens) (hto : tokenize other = .ok others)
    (hk : tokens.map Token.kind = others.map Token.kind) :
    (compile limits text).mapError (FormulaError.relocate fun _ => 0) =
      ((compile limits other : Except FormulaError (Program ν)).mapError
        (FormulaError.relocate fun _ => 0)) := by
  have hparse (result : Except ParseError (Program ν)) :
      (result.mapError FormulaError.parse).mapError (FormulaError.relocate fun _ => 0) =
        (result.mapError (ParseError.relocate fun _ => 0)).mapError .parse := by
    cases result <;> rfl
  rw [compile_eq hl ht, compile_eq ho hto, hparse, hparse, convert_congr hk]

/-- A text that has tokens may be spaced out by blanks between any two of its lexemes, before
them and behind them, but not between a name and its `(`. The tokens stay the same, those
behind the blanks moved by their width; as long as the text is not too long, so does the
program, or the fault but for its position. -/
theorem compile_spaced {text : String} {tokens : List (Token ν)} (h : tokenize text = .ok tokens) :
    ∃ pieces, Cut none text.toList pieces ∧ tokens = Piece.tokens 0 pieces ∧
      ∀ front back gap, pieces = front ++ back → ¬ Piece.EndsInName front →
        (∀ c ∈ gap, Text.isBlank c) →
        let spaced := String.ofList (Piece.text front ++ gap ++ Piece.text back)
        text.toList = Piece.text front ++ Piece.text back ∧
        tokenize spaced = .ok (tokens.map
          (Token.relocate (shift (Text.width (Piece.text front)) (Text.width gap)))) ∧
        ∀ limits : Limits, spaced.utf8ByteSize ≤ limits.length →
          (compile limits spaced : Except FormulaError (Program ν)).mapError
              (FormulaError.relocate fun _ => 0) =
            (compile limits text).mapError (FormulaError.relocate fun _ => 0) := by
  obtain ⟨pieces, hcut, rfl⟩ := (scanFrom_eq_ok_iff (apart_none _)).mp h
  refine ⟨pieces, hcut, rfl, ?_⟩
  rintro front back gap rfl hf hg spaced
  have htext : text.toList = Piece.text front ++ Piece.text back := by
    rw [hcut.text_eq, Piece.text_append]
  have hspaced : spaced.toList = Piece.text (front ++ (gap.map .blank ++ back)) := by
    rw [String.toList_ofList, Piece.text_append, Piece.text_append, Piece.text_blanks,
      List.append_assoc]
  have htokens := tokenize_eq_ok (hspaced ▸ hcut.spaced hf hg)
  rw [hcut.tokens_spaced gap] at htokens
  refine ⟨htext, htokens, fun limits hl => compile_congr hl ?_ htokens h ?_⟩
  · have hwidth := Text.width_eq_utf8ByteSize text.toList
    rw [String.ofList_toList, htext, Text.width_append] at hwidth
    have hmore : spaced.utf8ByteSize = _ := (Text.width_eq_utf8ByteSize _).symm
    rw [Text.width_append, Text.width_append] at hmore
    omega
  · exact List.map_map

/-- The same operand is missing, three bytes further on. -/
theorem compile_spaced_missingOperand :
    let text := "MAX(\"é\"+)"
    let spaced := "MAX(\"é\"\u3000+)"
    tokenize text = .ok [⟨.identifier "MAX", 0⟩, ⟨.leftParen, 3⟩, ⟨.quoted "\"é\"", 4⟩,
      ⟨.operator .add, 8⟩, (⟨.rightParen, 9⟩ : Token Float)] ∧
    tokenize spaced = .ok [⟨.identifier "MAX", 0⟩, ⟨.leftParen, 3⟩, ⟨.quoted "\"é\"", 4⟩,
      ⟨.operator .add, 11⟩, (⟨.rightParen, 12⟩ : Token Float)] ∧
    (compile .standard spaced : Except FormulaError (Program Float)).mapError
        (FormulaError.relocate fun _ => 0) =
      (compile .standard text).mapError (FormulaError.relocate fun _ => 0) := by
  intro text spaced
  let front : List (Piece Float) := [.lexeme ['M', 'A', 'X'] (.identifier "MAX"),
    .lexeme ['('] .leftParen, .lexeme ['"', 'é', '"'] (.quoted "\"é\"")]
  let back : List (Piece Float) := [.lexeme ['+'] (.operator .add), .lexeme [')'] .rightParen]
  have hname : IsLexeme none ['M', 'A', 'X'] (.identifier "MAX" : TokenKind Float)
      ['(', '"', 'é', '"', '+', ')'] := .name (by simp) rfl rfl (by simp [continuesName])
  have hquoted : IsLexeme (some '(') ['"', 'é', '"'] (.quoted "\"é\"" : TokenKind Float)
      ['+', ')'] := .quoted ['é'] (by decide)
  have htext : text.toList = ['M', 'A', 'X', '(', '"', 'é', '"', '+', ')'] := by decide +kernel
  have hpieces : Cut none text.toList (front ++ back) := by
    rw [htext]
    exact .lexeme hname (.lexeme .leftParen (.lexeme hquoted
      (.lexeme (.operator .add) (.lexeme .rightParen .nil))))
  have htokens : tokenize text = .ok [⟨.identifier "MAX", 0⟩, ⟨.leftParen, 3⟩,
      ⟨.quoted "\"é\"", 4⟩, ⟨.operator .add, 8⟩, (⟨.rightParen, 9⟩ : Token Float)] :=
    tokenize_eq_ok hpieces
  obtain ⟨pieces, hcut, -, hspaced⟩ := compile_spaced htokens
  obtain ⟨-, hmoved, hcompile⟩ := hspaced front back ['\u3000'] (hpieces.unique hcut)
    (by rintro ⟨run, name, h⟩; cases h) (List.forall_mem_singleton.mpr rfl)
  exact ⟨htokens, hmoved, hcompile .standard (by decide)⟩

end Scorecard.Formula
