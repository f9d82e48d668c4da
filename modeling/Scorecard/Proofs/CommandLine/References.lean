import Scorecard.Proofs.CommandLine.Resuming
import Scorecard.Proofs.Decimal.Reading
import Scorecard.Proofs.Formula.Balance
import Scorecard.Proofs.Formula.Inlining
import Scorecard.Proofs.Formula.Lexemes

/-! Values for the references of a formula. A name is read from the command line with or
without its quotes, and is put in quotes again to be looked up; a formula refers to it by the
quoted text that stands in it. So a reference finds the value that was given last for its name,
and no other. -/
namespace Scorecard.CommandLine

open Formula (Context FormulaError Limits Program Registry)
open Text (isBlank)

/-- A name as a formula refers to it. -/
def quoted (name : String) : String :=
  "\"" ++ name ++ "\""

theorem toList_quoted (name : String) : (quoted name).toList = '"' :: (name.toList ++ ['"']) := by
  have hquote : "\"".toList = ['"'] := rfl
  rw [quoted, String.toList_append, String.toList_append, hquote]
  rfl

theorem quoted_injective : Function.Injective quoted := by
  intro name other h
  have hlist := congrArg String.toList h
  rw [toList_quoted, toList_quoted] at hlist
  exact String.toList_injective (List.append_cancel_right (List.cons.inj hlist).2)

/-! ### One reference -/

/-- Quotes at the ends are taken off, and there are no others. -/
theorem stripQuotes_append (before after : List Char) {name text : String}
    (hbefore : ∀ c ∈ before, c = '"') (hafter : ∀ c ∈ after, c = '"') (hname : '"' ∉ name.toList)
    (htext : text.toList = before ++ (name.toList ++ after)) : stripQuotes text = name := by
  have hinner : ∀ c ∈ name.toList, ¬ (c == '"') = true := by
    rintro c hc heq
    exact hname (beq_iff_eq.mp heq ▸ hc)
  have hstrip := Text.strip_append (fun c hc => beq_iff_eq.mpr (hbefore c hc))
    (fun c hc => beq_iff_eq.mpr (hafter c hc)) (fun c hc => hinner c (List.mem_of_head? hc))
    (fun c hc => hinner c (List.mem_of_getLast? hc))
  rw [stripQuotes, htext]
  exact (congrArg String.ofList hstrip).trans String.ofList_toList

theorem readReference_append {name number : String} {value : Float} (hname : '=' ∉ name.toList)
    (hnumber : Decimal.read? number = some value) :
    readReference (name ++ "=" ++ number) = .ok (stripQuotes (Text.trim name), value) := by
  have hequals : "=".toList = ['='] := rfl
  obtain ⟨htake, hdrop⟩ := Text.takeWhile_append_cons hname number.toList
  have htext : (name ++ "=" ++ number).toList = name.toList ++ '=' :: number.toList := by
    rw [String.toList_append, String.toList_append, hequals, List.append_assoc]
    rfl
  rw [readReference, htext, htake, hdrop]
  simp only [String.ofList_toList, Decimal.trim_of_read? hnumber, hnumber]

/-- A name in quotes is read as it is, whatever it starts and ends with. -/
theorem readReference_quoted {name number : String} {value : Float} (hquote : '"' ∉ name.toList)
    (hname : '=' ∉ name.toList) (hnumber : Decimal.read? number = some value) :
    readReference (quoted name ++ "=" ++ number) = .ok (name, value) := by
  have hclosed : '=' ∉ (quoted name).toList := by
    rw [toList_quoted]
    simpa using hname
  have htrim : Text.trim (quoted name) = quoted name := by
    apply Text.trim_eq_self
    · rw [toList_quoted]
      rintro _ ⟨⟩
      decide
    · rw [toList_quoted, ← List.cons_append, List.getLast?_concat]
      rintro _ ⟨⟩
      decide
  have hstrip : stripQuotes (quoted name) = name :=
    stripQuotes_append ['"'] ['"'] (by simp) (by simp) hquote (toList_quoted name)
  rw [readReference_append hclosed hnumber, htrim, hstrip]

theorem readReference_plain {name number : String} {value : Float} (hquote : '"' ∉ name.toList)
    (hname : '=' ∉ name.toList) (hfirst : ∀ c ∈ name.toList.head?, ¬ isBlank c = true)
    (hlast : ∀ c ∈ name.toList.getLast?, ¬ isBlank c = true)
    (hnumber : Decimal.read? number = some value) :
    readReference (name ++ "=" ++ number) = .ok (name, value) := by
  have hstrip : stripQuotes name = name :=
    stripQuotes_append [] [] (by simp) (by simp) hquote (by simp)
  rw [readReference_append hname hnumber, Text.trim_eq_self hfirst hlast, hstrip]

/-! ### The references of a formula -/

theorem exists_quoted {limits : Limits} {expression : String} {program : Program Float}
    (h : Formula.compile limits expression = .ok program) :
    ∀ key ∈ program.references, ∃ name, '"' ∉ name.toList ∧ key = quoted name := by
  obtain ⟨tokens, htokens, hconvert⟩ := Formula.exists_convert_of_compile h
  obtain ⟨e, he, rfl⟩ := Formula.convert_eq_ok_iff.mp hconvert
  obtain ⟨pieces, hcut, rfl⟩ := ((Formula.tokenize_eq_ok_iff expression).1 tokens).mp htokens
  intro key hkey
  rw [Formula.Expression.mem_references_program, (Formula.parses_of_expression? he).keys] at hkey
  obtain ⟨⟨kind, position⟩, ht, hkind⟩ := List.mem_filterMap.mp hkey
  obtain ⟨_, _, _, hlexeme⟩ := hcut.exists_isLexeme 0 _ ht
  cases hlexeme with
  | quoted body inside =>
    obtain rfl := Option.some.inj hkind
    refine ⟨String.ofList body, by rwa [String.toList_ofList], String.toList_injective ?_⟩
    rw [toList_quoted, String.toList_ofList, String.toList_ofList, List.cons_append]
  | _ => contradiction

/-- The last value that is given for a name. -/
inductive Gives (texts : List String) (name : String) : Option Float → Prop
  | last {before text after value} :
    texts = before ++ text :: after → readReference text = .ok (name, value) →
    (∀ later ∈ after, ∀ other, readReference later ≠ .ok (name, other)) →
    Gives texts name (some value)
  | never : (∀ text ∈ texts, ∀ value, readReference text ≠ .ok (name, value)) → Gives texts name none

/-- A value given in front counts as long as no later one does. -/
theorem Gives.cons {texts : List String} {text name other : String} {value : Float}
    {later? : Option Float} (h : Gives texts name later?)
    (htext : readReference text = .ok (other, value)) :
    Gives (text :: texts) name (later?.or (if other = name then some value else none)) := by
  cases h with
  | @last before found after later heq hfound hlater =>
    have hsplit : text :: texts = text :: before ++ found :: after := congrArg (text :: ·) heq
    exact .last hsplit hfound hlater
  | never hnever =>
    rw [Option.none_or]
    split
    next hname =>
      subst hname
      have hsplit : text :: texts = [] ++ text :: texts := rfl
      exact .last hsplit htext hnever
    next hname =>
      refine .never (List.forall_mem_cons.mpr ⟨fun found heq => hname ?_, hnever⟩)
      rw [htext] at heq
      exact congrArg Prod.fst (Except.ok.inj heq)

theorem contextOf_cons (name other : String) (value : Float) (references : List (String × Float)) :
    contextOf ((other, value) :: references) (quoted name) =
      (contextOf references (quoted name)).or (if other = name then some value else none) := by
  have hkey : ("\"" ++ other ++ "\"" == quoted name) = decide (other = name) := by
    rw [beq_eq_decide]
    exact decide_eq_decide.mpr quoted_injective.eq_iff
  rw [contextOf, contextOf, List.reverse_cons, List.find?_append, Option.map_or]
  simp only [List.find?_cons, List.find?_nil, hkey]
  by_cases h : other = name
  · simp [h]
  · simp [h]

theorem gives_contextOf {texts : List String} {references : List (String × Float)}
    (h : texts.mapM readReference = .ok references) (name : String) :
    Gives texts name (contextOf references (quoted name)) := by
  have hall := mapM_eq_ok_iff.mp h
  clear h
  induction hall with
  | nil => exact .never (by simp)
  | @cons text reference texts references htext _ ih =>
    obtain ⟨other, value⟩ := reference
    rw [contextOf_cons]
    exact ih.cons htext

/-! ### The command -/

/-- What is taken by an evaluation. -/
def evaluationGrammar : Grammar :=
  ⟨[verboseSlot, referenceSlot], some expressionSlot⟩

theorem regular_evaluationGrammar : evaluationGrammar.Regular where
  name_ne := by decide
  name_closed := by decide
  names_nodup := by decide
  letter_ne := by decide
  letters_nodup := by decide
  positional := by
    rintro _ ⟨⟩
    exact ⟨rfl, rfl⟩

/-- The texts that are given as references. -/
def referenceTexts (items : List Item) : List String :=
  items.filterMap fun item => if item.slot.name = "ref" then item.text? else none

/-- The items of an evaluation. -/
inductive IsEvaluationItem : Item → Prop
  | verbose : IsEvaluationItem ⟨verboseSlot, none⟩
  | reference {text} : IsEvaluationItem ⟨referenceSlot, some text⟩
  | expression {text} : IsEvaluationItem ⟨expressionSlot, some text⟩

theorem isEvaluationItem_of_writes {item : Item} {words : List String}
    (h : evaluationGrammar.Writes item words) : IsEvaluationItem item := by
  have hflag {slot : Slot} (hslot : slot ∈ evaluationGrammar.options)
      (hintake : slot.intake = .flag) : slot = verboseSlot := by
    obtain rfl | rfl : slot = verboseSlot ∨ slot = referenceSlot := by
      simpa [evaluationGrammar] using hslot
    · rfl
    · contradiction
  have hvalue {slot : Slot} {read : String → Except UsageError Value}
      (hslot : slot ∈ evaluationGrammar.options) (hintake : slot.intake = .value read) :
      slot = referenceSlot := by
    obtain rfl | rfl : slot = verboseSlot ∨ slot = referenceSlot := by
      simpa [evaluationGrammar] using hslot
    · contradiction
    · rfl
  cases h with
  | flag hn hintake =>
    obtain rfl := hflag hn.mem hintake
    exact .verbose
  | following hn hread _ | attached hn hread =>
    obtain rfl := hvalue hn.mem hread
    exact .reference
  | joined hslot _ hread =>
    obtain rfl := hvalue hslot hread
    exact .reference
  | plain hpositional =>
    obtain rfl := Option.some.inj hpositional
    exact .expression

theorem isEvaluationItem_of_line {items : List Item} {words : List String}
    (h : evaluationGrammar.Line items words) : ∀ item ∈ items, IsEvaluationItem item := by
  induction h with
  | nil => simp
  | cons hw _ ih => exact List.forall_mem_cons.mpr ⟨isEvaluationItem_of_writes hw, ih⟩
  | dashes hpositional =>
    obtain rfl := Option.some.inj hpositional
    simpa using IsEvaluationItem.expression

/-- What a text gives, or what is wrong with it. -/
def referenceOf (text : String) : Except UsageError (String × Float) :=
  (readReference text).mapError (.invalidValue text "--ref <REFS>")

/-- The references among the values given. -/
def referencesAmong (entries : List (String × Option Value)) : List (String × Float) :=
  (entries.filterMap fun (given, value) => if given == "ref" then value else none).filterMap fun
    | .reference name value => some (name, value)
    | _ => none

theorem entry_reference (text : String) : Item.entry ⟨referenceSlot, some text⟩ =
    (referenceOf text).map fun (name, value) => ("ref", some (.reference name value)) := by
  show ((((readReference text).map _).mapError _).map _).map _ = _
  rw [referenceOf]
  cases readReference text <;> rfl

theorem map_referencesAmong {items : List Item} (h : ∀ item ∈ items, IsEvaluationItem item) :
    (items.mapM Item.entry).map referencesAmong = (referenceTexts items).mapM referenceOf := by
  induction items with
  | nil => rfl
  | cons item items ih =>
    obtain ⟨hitem, hitems⟩ := List.forall_mem_cons.mp h
    have hrest := ih hitems
    rw [List.mapM_cons]
    cases hitem with
    | verbose =>
      have htexts : referenceTexts (⟨verboseSlot, none⟩ :: items) = referenceTexts items := rfl
      have hentry : Item.entry ⟨verboseSlot, none⟩ = .ok ("verbose", none) := rfl
      rw [htexts, ← hrest, hentry]
      cases items.mapM Item.entry <;> rfl
    | @reference text =>
      have htexts : referenceTexts (⟨referenceSlot, some text⟩ :: items) =
          text :: referenceTexts items := rfl
      rw [htexts, List.mapM_cons, ← hrest, entry_reference]
      cases referenceOf text with
      | error fault => rfl
      | ok reference => cases items.mapM Item.entry <;> rfl
    | @expression text =>
      have htexts : referenceTexts (⟨expressionSlot, some text⟩ :: items) =
          referenceTexts items := rfl
      have hentry : Item.entry ⟨expressionSlot, some text⟩ = .ok ("", some (.text text)) := rfl
      rw [htexts, ← hrest, hentry]
      cases items.mapM Item.entry <;> rfl

/-- The expression is given once, so it is the first of its kind. -/
theorem head?_expression {items : List Item} {names : List String} {expression : String}
    {entries : List (String × Option Value)} (h : ∀ item ∈ items, IsEvaluationItem item)
    (hadmits : Admits names items) (hexpression : ⟨expressionSlot, some expression⟩ ∈ items)
    (hentries : items.mapM Item.entry = .ok entries) :
    (entries.filterMap fun (given, value) => if given == "" then value else none).head? =
      some (.text expression) := by
  have hall := mapM_eq_ok_iff.mp hentries
  clear hentries
  induction hall generalizing names with
  | nil => contradiction
  | @cons item entry items entries hentry _ ih =>
    obtain ⟨hitem, hitems⟩ := List.forall_mem_cons.mp h
    have htail := (List.mem_cons.mp hexpression).resolve_left
    cases hitem with
    | verbose =>
      obtain rfl := Except.ok.inj hentry
      exact ih hitems hadmits.2 (htail (by simp [expressionSlot]))
    | @reference text =>
      rw [entry_reference] at hentry
      cases hreference : referenceOf text with
      | error fault =>
        rw [hreference] at hentry
        contradiction
      | ok reference =>
        rw [hreference] at hentry
        obtain rfl := Except.ok.inj hentry
        exact ih hitems hadmits.2 (htail (by simp [expressionSlot, referenceSlot]))
    | @expression text =>
      obtain rfl := Except.ok.inj hentry
      by_cases heq : (⟨expressionSlot, some expression⟩ : Item) = ⟨expressionSlot, some text⟩
      · cases heq
        rfl
      · have hnew := hadmits.2.name_notMem (htail heq) rfl
        exact absurd List.mem_cons_self hnew

theorem read_evaluate {items : List Item} {words : List String} {expression : String}
    (hline : evaluationGrammar.Line items words) (hadmits : Admits [] items)
    (hexpression : ⟨expressionSlot, some expression⟩ ∈ items) :
    Command.read false ("eval" :: words) =
      ((referenceTexts items).mapM referenceOf).map (.evaluate expression) := by
  have hitems := isEvaluationItem_of_line hline
  have hgiven := hline.given_read regular_evaluationGrammar hadmits
  rw [← map_referencesAmong hitems]
  show Command.readEvaluate words = _
  rw [Command.readEvaluate, ← evaluationGrammar]
  cases hentries : items.mapM Item.entry with
  | error fault =>
    rw [hentries] at hgiven
    cases hread : evaluationGrammar.read words with
    | ok a =>
      rw [hread] at hgiven
      contradiction
    | error found =>
      rw [hread] at hgiven
      cases hgiven
      rfl
  | ok entries =>
    obtain ⟨a, hread, hgiven⟩ :=
      hline.exists_read regular_evaluationGrammar hadmits hentries
    have htext : Command.text a = .ok expression := by
      rw [Command.text, Arguments.valueOf?, Arguments.valuesOf_eq hgiven,
        head?_expression hitems hadmits hexpression hentries]
    have hreferences : Command.references a = referencesAmong entries := by
      rw [Command.references, Arguments.valuesOf_eq hgiven]
      rfl
    rw [hread]
    show (Command.text a >>= fun text => pure (Command.evaluate text (Command.references a))) = _
    rw [htext, hreferences]
    rfl

/-- The words ask for the value of a formula, with these texts for its references. -/
def IsEvaluation (words texts : List String) (expression : String) : Prop :=
  ∃ items, evaluationGrammar.Line items words ∧ Admits [] items ∧
    ⟨expressionSlot, some expression⟩ ∈ items ∧ referenceTexts items = texts

theorem admits_references (texts : List String) (expression : String) {names : List String}
    (h : "" ∉ names) :
    Admits names (texts.map (fun text => ⟨referenceSlot, some text⟩) ++
      [⟨expressionSlot, some expression⟩]) := by
  induction texts generalizing names with
  | nil => exact ⟨fun _ => h, trivial⟩
  | cons text texts ih =>
    have hrepeats : referenceSlot.repeats ≠ false := by decide
    have hname : "" ≠ referenceSlot.name := by decide
    exact ⟨fun honce => absurd honce hrepeats, ih (by simp [hname, h])⟩

/-- Any texts can be given for any formula. -/
theorem isEvaluation_attached (texts : List String) (expression : String) :
    IsEvaluation (texts.map ("--ref=" ++ ·) ++ ["--", expression]) texts expression := by
  refine ⟨texts.map (fun text => ⟨referenceSlot, some text⟩) ++ [⟨expressionSlot, some expression⟩],
    ?_, admits_references texts expression (by simp), by simp, ?_⟩
  · induction texts with
    | nil => exact .dashes rfl rfl
    | cons text texts ih =>
      have hslot : referenceSlot ∈ evaluationGrammar.options := by simp [evaluationGrammar]
      have hattached : evaluationGrammar.Writes ⟨referenceSlot, some text⟩ ["--ref=" ++ text] :=
        .attached (.long hslot) rfl
      have hline := Grammar.Line.cons hattached ih
      exact hline
  · induction texts with
    | nil => rfl
    | cons text texts ih => exact congrArg (text :: ·) ih

/-- A value for a quoted name is read whatever blanks are in the name, and one for a name without
quotes if it has none at its ends. Any list of values can be given, and then a reference of the
formula has the value given last for its name, or none if there is no such value. -/
theorem references_resolve :
    (∀ (name number : String) (value : Float), '"' ∉ name.toList → '=' ∉ name.toList →
      Decimal.read? number = some value →
      readReference (quoted name ++ "=" ++ number) = .ok (name, value) ∧
        ((∀ c ∈ name.toList.head?, ¬ isBlank c = true) →
          (∀ c ∈ name.toList.getLast?, ¬ isBlank c = true) →
          readReference (name ++ "=" ++ number) = .ok (name, value))) ∧
    (∀ texts expression, ∃ words, IsEvaluation words texts expression) ∧
    ∀ words texts expression references, IsEvaluation words texts expression →
      texts.mapM readReference = .ok references →
      Command.read false ("eval" :: words) = .ok (.evaluate expression references) ∧
      (∀ name, Gives texts name (contextOf references (quoted name))) ∧
      ∀ program, compile expression = .ok program →
        (∀ key ∈ program.references, ∃ name, '"' ∉ name.toList ∧ key = quoted name) ∧
        ∀ contents, outcome contents ("eval" :: words) =
          match program.evaluate (contextOf references) Registry.standard with
          | .ok value => .succeeded (Decimal.plainText value ++ "\n") ""
          | .error e => .failed s!"Failed to evaluate '{expression}'" [e.message] := by
  refine ⟨?_, fun texts expression => ⟨_, isEvaluation_attached texts expression⟩, ?_⟩
  · intro name number value hquote hname hnumber
    exact ⟨readReference_quoted hquote hname hnumber,
      fun hfirst hlast => readReference_plain hquote hname hfirst hlast hnumber⟩
  · rintro words _ expression references ⟨items, hline, hadmits, hexpression, rfl⟩ hreferences
    have hgiven : (referenceTexts items).mapM referenceOf = .ok references := by
      refine mapM_eq_ok_iff.mpr ((mapM_eq_ok_iff.mp hreferences).imp fun text reference h => ?_)
      rw [referenceOf, h]
      rfl
    have hread : Command.read false ("eval" :: words) = .ok (.evaluate expression references) := by
      rw [read_evaluate hline hadmits hexpression, hgiven]
      rfl
    refine ⟨hread, gives_contextOf hreferences, fun program hprogram => ?_⟩
    refine ⟨exists_quoted hprogram, fun contents => ?_⟩
    rw [outcome, hread]
    show showValue expression references = _
    unfold showValue
    split
    next fault hfault =>
      rw [hprogram] at hfault
      contradiction
    next found hfound =>
      obtain rfl := Except.ok.inj (hprogram.symm.trans hfound)
      rfl

/-- A name that starts with a blank, and one that is given twice. -/
theorem references_resolve_again :
    let words := ["-v", "--ref", "\" a\"=1", "-rb=2", "\"b\" - \" a\"", "-r=b=3"]
    let texts := ["\" a\"=1", "b=2", "b=3"]
    let expression := "\"b\" - \" a\""
    IsEvaluation words texts expression ∧
      ∃ value references, Decimal.read? "1" = some value ∧
        texts.mapM readReference = .ok references ∧
        readReference "\" a\"=1" = .ok (" a", value) ∧
        Command.read false ("eval" :: words) = .ok (.evaluate expression references) ∧
        Gives texts "b" (contextOf references "\"b\"") ∧
        Gives texts "c" (contextOf references "\"c\"") := by
  intro words texts expression
  have hevaluation : IsEvaluation words texts expression := by
    have hverbose : verboseSlot ∈ evaluationGrammar.options := by simp [evaluationGrammar]
    have hreference : referenceSlot ∈ evaluationGrammar.options := by simp [evaluationGrammar]
    refine ⟨[⟨verboseSlot, none⟩, ⟨referenceSlot, some "\" a\"=1"⟩, ⟨referenceSlot, some "b=2"⟩,
      ⟨expressionSlot, some expression⟩, ⟨referenceSlot, some "b=3"⟩], ?_, ?_, by simp, rfl⟩
    · have hflag : evaluationGrammar.Writes ⟨verboseSlot, none⟩ ["-v"] :=
        .flag (.short hverbose rfl) rfl
      have hfollowing : evaluationGrammar.Writes ⟨referenceSlot, some "\" a\"=1"⟩
          ["--ref", "\" a\"=1"] := .following (.long hreference) rfl (by rintro _ _ ⟨⟩)
      have hjoined : evaluationGrammar.Writes ⟨referenceSlot, some "b=2"⟩ ["-rb=2"] :=
        .joined hreference rfl rfl (by decide) (by decide)
      have hhead : expression.toList.head? ≠ some '-' := by decide
      have hplain : evaluationGrammar.Writes ⟨expressionSlot, some expression⟩ [expression] :=
        .plain rfl rfl fun _ _ h => hhead (congrArg List.head? h)
      have hattached : evaluationGrammar.Writes ⟨referenceSlot, some "b=3"⟩ ["-r=b=3"] :=
        .attached (.short hreference rfl) rfl
      exact .cons hflag (.cons hfollowing (.cons hjoined (.cons hplain (.cons hattached .nil))))
    · simp [Admits, verboseSlot, referenceSlot, expressionSlot, valueSlot]
  obtain ⟨value, hvalue⟩ : ∃ value, Decimal.read? "1" = some value := ⟨_, rfl⟩
  obtain ⟨references, hreferences⟩ : ∃ references, texts.mapM readReference = .ok references :=
    exists_eq_ok (by decide +kernel)
  obtain ⟨hread, -, hresolve⟩ := references_resolve
  obtain ⟨hcommand, hgives, -⟩ := hresolve words texts expression references hevaluation hreferences
  exact ⟨hevaluation, value, references, hvalue, hreferences,
    (hread " a" "1" value (by decide) (by decide) hvalue).1, hcommand, hgives "b", hgives "c"⟩

end Scorecard.CommandLine
