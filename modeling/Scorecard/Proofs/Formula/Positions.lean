import Scorecard.Formula.Source
import Scorecard.Proofs.Formula.Blame
import Scorecard.Proofs.Formula.Lexemes

/-! Where a text is at fault. A fault gives a position in bytes, which lies between two
characters of the text, and the text from there on shows what the fault says: the character,
number or name that it reports, the token that cannot stand there, the innermost `(` that is
still open in the end. Where an operand is missing in the end, the position is just behind the
last character that is not blank. -/
namespace Scorecard.Formula

def ScanError.position : ScanError → Nat
  | unexpectedCharacter _ position | unterminatedString position
  | malformedNumber _ position | bareIdentifier _ position => position

/-- The position that a fault gives, if it is about a place in the text. -/
def ParseError.position? : ParseError → Option Nat
  | emptyInput | emptyExpression | tooLong .. => none
  | unmatchedLeftParen position | unmatchedRightParen position | emptyArgumentList _ position
  | missingCallParen _ position | missingOperand position | unexpectedOperand position
  | misplacedComma position | nestingTooDeep _ position => some position

def FormulaError.position? : FormulaError → Option Nat
  | scan cause => some cause.position
  | parse cause => cause.position?
  | evaluation _ => none

/-! ### Faults of scanning -/

/-- What a fault says of the text from its position on. A number or a name is reported as far
as it goes. -/
def ScanError.Shows (after : List Char) : ScanError → Prop
  | unexpectedCharacter c _ => after.head? = some c ∧ ¬ Text.isBlank c
  | unterminatedString _ => ∃ rest, after = '"' :: rest ∧ '"' ∉ rest
  | malformedNumber run _ =>
    ∃ rest, after = run.toList ++ rest ∧ run.toList ≠ [] ∧ (∀ c ∈ run.toList, isNumeral c) ∧
      (∀ c ∈ rest.head?, ¬ isNumeral c) ∧ ¬ isDecimal run.toList
  | bareIdentifier name _ =>
    ∃ first more rest, after = name.toList ++ rest ∧ name.toList = first :: more ∧
      first.isAlpha ∧ (∀ c ∈ more, continuesName c) ∧
      ∀ c ∈ rest.head?, ¬ continuesName c ∧ c ≠ '('

namespace Lexeme

variable {ν : Type} [Arithmetic ν] {position : Nat} {first : Char} {rest : List Char}
  {fault : ScanError}

theorem numeral_eq_error (hf : isNumeral first = true)
    (h : (numeral position first rest : Except ScanError (Lexeme ν rest)) = .error fault) :
    fault.position = position ∧ fault.Shows (first :: rest) := by
  unfold numeral at h
  dsimp only at h
  split at h
  case isTrue => contradiction
  case isFalse hd =>
    obtain rfl := Except.error.inj h
    refine ⟨rfl, rest.dropWhile isNumeral, ?_⟩
    rw [String.toList_ofList, List.cons_append, List.takeWhile_append_dropWhile]
    refine ⟨rfl, List.cons_ne_nil _ _, ?_, Text.head?_dropWhile, hd⟩
    intro c hc
    rcases List.mem_cons.mp hc with rfl | hc
    · exact hf
    · exact List.all_eq_true.mp List.all_takeWhile c hc

omit [Arithmetic ν] in
theorem quoted_eq_error
    (h : (quoted position rest : Except ScanError (Lexeme ν rest)) = .error fault) :
    fault.position = position ∧ fault.Shows ('"' :: rest) := by
  unfold quoted at h
  dsimp only at h
  split at h
  case h_1 hd =>
    obtain rfl := Except.error.inj h
    have hall : rest.takeWhile (· != '"') = rest := by
      have happend := List.takeWhile_append_dropWhile (p := (· != '"')) (l := rest)
      rwa [hd, List.append_nil] at happend
    refine ⟨rfl, rest, rfl, fun hm => ?_⟩
    rw [← hall] at hm
    have hplain := List.all_eq_true.mp List.all_takeWhile '"' hm
    simp at hplain
  case h_2 => contradiction

omit [Arithmetic ν] in
theorem name_eq_error (hf : first.isAlpha = true)
    (h : (name position first rest : Except ScanError (Lexeme ν rest)) = .error fault) :
    fault.position = position ∧ fault.Shows (first :: rest) := by
  unfold name at h
  dsimp only at h
  split at h
  case isTrue => contradiction
  case isFalse hp =>
    obtain rfl := Except.error.inj h
    refine ⟨rfl, first, rest.takeWhile continuesName, rest.dropWhile continuesName, ?_, ?_, hf,
      fun c hc => List.all_eq_true.mp List.all_takeWhile c hc, fun c hc => ⟨?_, ?_⟩⟩
    · rw [String.toList_ofList, List.cons_append, List.takeWhile_append_dropWhile]
    · rw [String.toList_ofList]
    · exact Text.head?_dropWhile c hc
    · rintro rfl
      rw [Option.mem_def.mp hc] at hp
      exact hp rfl

/-- A text that starts with no lexeme shows why. -/
theorem read_eq_error (hb : ¬ Text.isBlank first = true)
    (h : (read position first rest : Except ScanError (Lexeme ν rest)) = .error fault) :
    fault.position = position ∧ fault.Shows (first :: rest) := by
  unfold read at h
  split at h
  case isTrue => contradiction
  split at h
  case isTrue => contradiction
  split at h
  case isTrue => contradiction
  split at h
  case isTrue hc =>
    obtain rfl := beq_iff_eq.mp hc
    exact quoted_eq_error h
  split at h
  case isTrue hc => exact numeral_eq_error hc h
  split at h
  case isTrue hc => exact name_eq_error hc h
  split at h
  case h_1 => contradiction
  case h_2 =>
    obtain rfl := Except.error.inj h
    exact ⟨rfl, rfl, hb⟩

end Lexeme

variable {ν : Type} [Arithmetic ν]

/-- A scan fails where no lexeme can be read. -/
theorem scanFrom_eq_error {found : List (Token ν)} {position : Nat} {text : List Char}
    {fault : ScanError} (h : scanFrom found position text = .error fault) :
    ∃ before after, text = before ++ after ∧ fault.position = position + Text.width before ∧
      fault.Shows after := by
  fun_induction scanFrom found position text with
  | case1 => contradiction
  | case2 found position first rest hblank ih =>
    obtain ⟨before, after, rfl, hp, hs⟩ := ih h
    refine ⟨first :: before, after, rfl, ?_, hs⟩
    rw [hp, Text.width]
    omega
  | case3 found position first rest hblank cause hread =>
    obtain rfl := Except.error.inj h
    obtain ⟨hp, hs⟩ := Lexeme.read_eq_error hblank hread
    exact ⟨[], _, rfl, hp, hs⟩
  | case4 found position first rest hblank l hread ih =>
    obtain ⟨run, hfits⟩ := Lexeme.read_fits (apart_none _) hread
    obtain ⟨before, after, ha, hp, hs⟩ := ih h
    refine ⟨run ++ before, after, ?_, ?_, hs⟩
    · rw [← hfits.text_eq, ha, List.append_assoc]
    · rw [hp, hfits.width_eq, Text.width_append]
      omega

/-! ### Tokens in their places -/

/-- The character in front of a place is one of those since the last piece, or the last one of
that piece. -/
theorem getLast?_append_or {run : List Char} (h : run ≠ []) (before : List Char)
    (previous : Option Char) :
    (run ++ before).getLast?.or previous = before.getLast?.or run.getLast? := by
  rw [List.getLast?_append, Option.or_assoc, List.getLast?_eq_getLast_of_ne_nil h, Option.some_or]

namespace Cut

variable {previous : Option Char} {text : List Char} {pieces : List (Piece ν)} {position : Nat}

/-- A text without tokens is blank. -/
theorem isBlank_of_tokens_eq_nil (h : Cut previous text pieces)
    (ht : Piece.tokens position pieces = []) : ∀ c ∈ text, Text.isBlank c = true := by
  induction h generalizing position with
  | nil => simp
  | blank isBlank _ ih =>
    intro c hc
    rcases List.mem_cons.mp hc with rfl | hc
    · exact isBlank
    · exact ih ht c hc
  | lexeme => contradiction

/-- A token of a text starts with its lexeme, and what follows in the text has the tokens that
follow it. -/
theorem exists_place (h : Cut previous text pieces) {init rest : List (Token ν)} {token : Token ν}
    (ht : Piece.tokens position pieces = init ++ token :: rest) :
    ∃ before run after tail, text = before ++ (run ++ after) ∧
      token.position = position + Text.width before ∧
      IsLexeme (before.getLast?.or previous) run token.kind after ∧
      Cut run.getLast? after tail ∧
      rest = Piece.tokens (token.position + Text.width run) tail := by
  induction h generalizing position init with
  | nil => simp [Piece.tokens] at ht
  | @blank previous c more pieces isBlank _ ih =>
    obtain ⟨before, run, after, tail, rfl, hp, hl, hcut, hrest⟩ := ih ht
    refine ⟨c :: before, run, after, tail, rfl, ?_, ?_, hcut, hrest⟩
    · rw [hp, Text.width]
      omega
    · have hlast := getLast?_append_or (List.cons_ne_nil c []) before previous
      rw [List.singleton_append] at hlast
      rwa [hlast]
  | @lexeme previous run more kind pieces isLexeme hcut ih =>
    cases init with
    | nil =>
      obtain ⟨rfl, rfl⟩ := List.cons.inj ht
      exact ⟨[], run, more, pieces, rfl, rfl, isLexeme, hcut, rfl⟩
    | cons first init =>
      obtain ⟨-, ht⟩ := List.cons.inj ht
      obtain ⟨before, run', after, tail, rfl, hp, hl, hcut, hrest⟩ := ih ht
      refine ⟨run ++ before, run', after, tail, ?_, ?_, ?_, hcut, hrest⟩
      · rw [List.append_assoc]
      · rw [hp, Text.width_append]
        omega
      · obtain ⟨c, others, hrun, -⟩ := isLexeme.exists_cons
        rwa [getLast?_append_or (hrun ▸ List.cons_ne_nil c others)]

end Cut

/-! ### Faults of parsing -/

/-- A token of some kind starts where a text is cut in two. -/
def Starts (tokens : List (Token ν)) (before after : List Char) (kind : TokenKind ν) : Prop :=
  ⟨kind, Text.width before⟩ ∈ tokens ∧
    ∃ run rest, after = run ++ rest ∧ IsLexeme before.getLast? run kind rest

/-- What a fault says of the text in front of its position and behind it. -/
def ParseError.Shows (tokens : List (Token ν)) (before after : List Char) : ParseError → Prop
  | unmatchedLeftParen position =>
    Starts tokens before after .leftParen ∧ (openParens tokens).head? = some position
  | unmatchedRightParen _ | emptyArgumentList .. => Starts tokens before after .rightParen
  | misplacedComma _ => Starts tokens before after .comma
  | nestingTooDeep .. => Starts tokens before after .leftParen
  | unexpectedOperand _ =>
    (∃ value, Starts tokens before after (.number value)) ∨
    (∃ key, Starts tokens before after (.quoted key)) ∨
    (∃ name, Starts tokens before after (.identifier name)) ∨
    Starts tokens before after .leftParen
  | missingOperand _ =>
    (∃ op, op ≠ .add ∧ op ≠ .subtract ∧ Starts tokens before after (.operator op)) ∨
    Starts tokens before after .comma ∨ Starts tokens before after .rightParen ∨
    (∃ c ∈ before.getLast?, ¬ Text.isBlank c) ∧ ∀ c ∈ after, Text.isBlank c
  | missingCallParen .. => False
  | emptyInput | emptyExpression | tooLong .. => True

/-- A fault at a token that stands in the text is shown there. -/
theorem ParseError.Blames.shows {fault : ParseError} {token : Token ν} {tokens : List (Token ν)}
    {before after : List Char} (h : fault.Blames token)
    (hs : Starts tokens before after token.kind) :
    fault.position? = some token.position ∧ fault.Shows tokens before after := by
  cases h with
  | number => exact ⟨rfl, .inl ⟨_, hs⟩⟩
  | quoted => exact ⟨rfl, .inr (.inl ⟨_, hs⟩)⟩
  | name => exact ⟨rfl, .inr (.inr (.inl ⟨_, hs⟩))⟩
  | negation =>
    obtain ⟨-, run, rest, -, hl⟩ := hs
    cases hl
  | opening => exact ⟨rfl, .inr (.inr (.inr hs))⟩
  | tooDeep | misplacedComma | emptyCall | unmatchedClose => exact ⟨rfl, hs⟩
  | @operator op _ hsign =>
    refine ⟨rfl, .inl ⟨op, ?_, ?_, hs⟩⟩
    · rintro rfl
      contradiction
    · rintro rfl
      contradiction
  | earlyComma => exact ⟨rfl, .inr (.inl hs)⟩
  | earlyClose => exact ⟨rfl, .inr (.inr (.inl hs))⟩

/-- The lexemes behind which an operand is due are single characters of one byte. -/
theorem IsLexeme.single_of_expectsOperand {previous : Option Char} {run after : List Char}
    {kind : TokenKind ν} (h : IsLexeme previous run kind after)
    (hd : expectsOperand (some kind) = true) :
    ∃ c, run = [c] ∧ Text.width run = 1 ∧ ¬ Text.isBlank c = true := by
  cases h with
  | number | quoted | name | rightParen => contradiction
  | leftParen | comma => exact ⟨_, rfl, rfl, by decide⟩
  | operator op =>
    cases op
    all_goals exact ⟨_, rfl, rfl, by decide⟩

section Places

variable {text : List Char} {pieces : List (Piece ν)} (hcut : Cut none text pieces)
include hcut

/-- Names in a text are called. -/
theorem Cut.called : Called (Piece.tokens 0 pieces) :=
  fun _ _ _ hi => ⟨_, hcut.tokens_of_identifier hi⟩

/-- A text is cut in two where one of its tokens starts. -/
theorem Cut.exists_starts {token : Token ν} (h : token ∈ Piece.tokens 0 pieces) :
    ∃ before after, text = before ++ after ∧ Text.width before = token.position ∧
      Starts (Piece.tokens 0 pieces) before after token.kind := by
  obtain ⟨init, rest, ht⟩ := List.append_of_mem h
  obtain ⟨before, run, after, -, htext, hp, hl, -⟩ := hcut.exists_place ht
  rw [Nat.zero_add] at hp
  rw [Option.or_none] at hl
  refine ⟨before, run ++ after, htext, hp.symm, ?_, run, after, rfl, hl⟩
  rwa [← hp]

/-- Behind a last token that asks for an operand the text is blank. -/
theorem Cut.exists_end {last : Token ν} (h : (Piece.tokens 0 pieces).getLast? = some last)
    (hd : expectsOperand (some last.kind) = true) :
    ∃ before after, text = before ++ after ∧ Text.width before = last.position + 1 ∧
      (∃ c ∈ before.getLast?, ¬ Text.isBlank c) ∧ ∀ c ∈ after, Text.isBlank c := by
  obtain ⟨init, ht⟩ := List.getLast?_eq_some_iff.mp h
  obtain ⟨before, run, after, tail, htext, hp, hl, htail, hnil⟩ := hcut.exists_place ht
  obtain ⟨c, rfl, hwidth, hc⟩ := hl.single_of_expectsOperand hd
  refine ⟨before ++ [c], after, ?_, ?_, ⟨c, List.getLast?_concat, hc⟩, ?_⟩
  · rw [htext, List.append_assoc]
  · rw [Text.width_append, hwidth]
    omega
  · exact htail.isBlank_of_tokens_eq_nil hnil.symm

/-- A fault of parsing the tokens of a text is shown by the text. -/
theorem Cut.convert_shows {limits : Limits} {fault : ParseError}
    (h : convert limits (Piece.tokens 0 pieces) = .error fault) {position : Nat}
    (hp : fault.position? = some position) :
    ∃ before after, text = before ++ after ∧ Text.width before = position ∧
      fault.Shows (Piece.tokens 0 pieces) before after := by
  obtain rfl | ⟨token, hm, hb⟩ | ⟨last, hlast, hd, rfl⟩ | ⟨start, outer, ho, rfl⟩ :=
    convert_blames hcut.called h
  · contradiction
  · obtain ⟨before, after, htext, hwidth, hs⟩ := hcut.exists_starts hm
    obtain ⟨hposition, hshows⟩ := hb.shows hs
    obtain rfl := Option.some.inj (hposition.symm.trans hp)
    exact ⟨before, after, htext, hwidth, hshows⟩
  · obtain rfl := Option.some.inj hp
    obtain ⟨before, after, htext, hwidth, hend⟩ := hcut.exists_end hlast hd
    exact ⟨before, after, htext, hwidth, .inr (.inr (.inr hend))⟩
  · obtain rfl := Option.some.inj hp
    have hm := leftParen_mem_of_openParens (ho ▸ List.mem_cons_self)
    obtain ⟨before, after, htext, hwidth, hs⟩ := hcut.exists_starts hm
    exact ⟨before, after, htext, hwidth, hs, congrArg List.head? ho⟩

end Places

/-- The text is cut in two at the position of a fault, and shows it there. -/
def FormulaError.Shows (ν : Type) [Arithmetic ν] (text : String) (position : Nat) :
    FormulaError → Prop
  | scan cause =>
    ∃ before after, text.toList = before ++ after ∧ Text.width before = position ∧
      cause.Shows after
  | parse cause =>
    ∃ before after, text.toList = before ++ after ∧ Text.width before = position ∧
      ∃ tokens : List (Token ν), tokenize text = .ok tokens ∧ cause.Shows tokens before after
  | evaluation _ => False

theorem width_le_utf8ByteSize {text : String} {before after : List Char}
    (h : text.toList = before ++ after) : Text.width before ≤ text.utf8ByteSize := by
  have hwidth := Text.width_eq_utf8ByteSize text.toList
  rw [String.ofList_toList, h, Text.width_append] at hwidth
  omega

theorem FormulaError.Shows.le {text : String} {position : Nat} {fault : FormulaError}
    (h : fault.Shows ν text position) : position ≤ text.utf8ByteSize := by
  cases fault with
  | scan cause =>
    obtain ⟨before, after, htext, rfl, -⟩ := h
    exact width_le_utf8ByteSize htext
  | parse cause =>
    obtain ⟨before, after, htext, rfl, -⟩ := h
    exact width_le_utf8ByteSize htext
  | evaluation cause => exact h.elim

theorem shows_of_compile {limits : Limits} {text : String} {fault : FormulaError}
    (h : (compile limits text : Except FormulaError (Program ν)) = .error fault) {position : Nat}
    (hp : fault.position? = some position) : fault.Shows ν text position := by
  unfold compile at h
  split at h
  case isTrue =>
    obtain rfl := Except.error.inj h
    contradiction
  split at h
  case h_1 cause hscan =>
    obtain rfl := Except.error.inj h
    obtain rfl := Option.some.inj hp
    obtain ⟨before, after, htext, hposition, hshows⟩ := scanFrom_eq_error hscan
    rw [Nat.zero_add] at hposition
    exact ⟨before, after, htext, hposition.symm, hshows⟩
  case h_2 tokens htokens =>
    obtain ⟨pieces, hcut, rfl⟩ := (scanFrom_eq_ok_iff (apart_none _)).mp htokens
    cases hc : convert limits (Piece.tokens 0 pieces) with
    | ok program =>
      rw [List.reverse_nil, List.nil_append, hc] at h
      contradiction
    | error cause =>
      rw [List.reverse_nil, List.nil_append, hc] at h
      obtain rfl := Except.error.inj h
      obtain ⟨before, after, htext, hwidth, hshows⟩ := hcut.convert_shows hc hp
      exact ⟨before, after, htext, hwidth, _, htokens, hshows⟩

/-- Whatever is wrong with a text, the position given is one between two characters of it, and
the text there shows the fault. A name without its `(` is never found at this stage. -/
theorem compile_shows {limits : Limits} {text : String} {fault : FormulaError}
    (h : (compile limits text : Except FormulaError (Program ν)) = .error fault) :
    (∀ position, fault.position? = some position →
      position ≤ text.utf8ByteSize ∧ fault.Shows ν text position) ∧
    ∀ name position, fault ≠ .parse (.missingCallParen name position) := by
  refine ⟨fun position hp => ?_, ?_⟩
  · have hshows := shows_of_compile h hp
    exact ⟨hshows.le, hshows⟩
  · rintro name position rfl
    obtain ⟨_, _, -, -, _, -, hfalse⟩ := shows_of_compile h rfl
    exact hfalse

/-- The inner `(` is the one still open. -/
theorem compile_shows_innermost :
    let text := "MAX(\"é\", (\"é\"\u00a0"
    let fault := FormulaError.parse (.unmatchedLeftParen 10)
    (compile .standard text : Except FormulaError (Program Float)) = .error fault ∧
      (∀ position, fault.position? = some position →
        position ≤ text.utf8ByteSize ∧ fault.Shows Float text position) ∧
      ∀ name position, fault ≠ .parse (.missingCallParen name position) := by
  intro text fault
  have h : (compile .standard text : Except FormulaError (Program Float)) = .error fault :=
    bind_pure_eq_error.mp (show (_ >>= fun _ => pure ()) = _ by decide +kernel)
  exact ⟨h, compile_shows h⟩

end Scorecard.Formula
