import Scorecard.CommandLine.Arguments
import Scorecard.Proofs.Fallible
import Scorecard.Proofs.Text.Runs

/-! Ways to write arguments. An option goes by its name or by its letter, and its value is
attached to it or follows it. In whichever way items are written, the values given are those
of the items in their order, and the first item that cannot be read is what is reported. -/
namespace Scorecard.CommandLine

/-- What is given to a slot. Only a flag goes without a text. -/
structure Item where
  slot : Slot
  text? : Option String

namespace Item

def value (item : Item) : Except UsageError (Option Value) :=
  match item.slot.intake, item.text? with
  | .flag, none => .ok none
  | .value read, some text => (read text).map some
  | _, _ => .error .misuse

/-- What an item adds to the values given. -/
def entry (item : Item) : Except UsageError (String × Option Value) :=
  item.value.map fun value => (item.slot.name, value)

theorem fst_of_entry {item : Item} {entry : String × Option Value} (h : item.entry = .ok entry) :
    entry.1 = item.slot.name := by
  unfold Item.entry at h
  cases hv : item.value with
  | error fault =>
    rw [hv] at h
    contradiction
  | ok value =>
    rw [hv] at h
    cases h
    rfl

end Item

/-- A word that is not taken for an option. -/
def IsPlain (word : String) : Prop :=
  ∀ c rest, word.toList ≠ '-' :: c :: rest

/-- No item is given where it has been given before, unless it may be given more than once. -/
def Admits : (names : List String) → List Item → Prop
  | _, [] => True
  | names, item :: items =>
    (item.slot.repeats = false → item.slot.name ∉ names) ∧ Admits (item.slot.name :: names) items

/-- What may not be given again is not given after. -/
theorem Admits.name_notMem {names : List String} {items : List Item} (h : Admits names items)
    {item : Item} (hitem : item ∈ items) (honce : item.slot.repeats = false) :
    item.slot.name ∉ names := by
  induction items generalizing names with
  | nil => contradiction
  | cons first rest ih =>
    obtain rfl | hrest := List.mem_cons.mp hitem
    · exact h.1 honce
    · exact fun hmem => ih h.2 hrest (List.mem_cons_of_mem _ hmem)

namespace Grammar

/-- Options are told apart by their names and by their letters, and from anything else. -/
structure Regular (g : Grammar) : Prop where
  name_ne : ∀ slot ∈ g.options, slot.name ≠ ""
  name_closed : ∀ slot ∈ g.options, '=' ∉ slot.name.toList
  names_nodup : (g.options.map Slot.name).Nodup
  letter_ne : ∀ slot ∈ g.options, slot.short? ≠ some '-'
  letters_nodup : (g.options.filterMap Slot.short?).Nodup
  positional : ∀ slot ∈ g.positional?, slot.name = "" ∧ slot.repeats = false

/-- What no other member has finds the member that has it. -/
theorem find?_of_nodup {α β : Type} [DecidableEq β] {key? : α → Option β} {members : List α}
    (h : (members.filterMap key?).Nodup) {a : α} {b : β} (ha : a ∈ members) (hb : key? a = some b) :
    members.find? (key? · == some b) = some a := by
  induction members with
  | nil => contradiction
  | cons first rest ih =>
    obtain rfl | hrest := List.mem_cons.mp ha
    · rw [List.find?_cons_of_pos (by simp [hb])]
    · have hmem : b ∈ rest.filterMap key? := List.mem_filterMap.mpr ⟨a, hrest, hb⟩
      cases hfirst : key? first with
      | none =>
        rw [List.filterMap_cons_none hfirst] at h
        rw [List.find?_cons_of_neg (by simp [hfirst])]
        exact ih h hrest
      | some other =>
        rw [List.filterMap_cons_some hfirst] at h
        obtain ⟨hnew, h⟩ := List.nodup_cons.mp h
        have hne : other ≠ b := fun heq => hnew (heq ▸ hmem)
        rw [List.find?_cons_of_neg (by simp [hfirst, hne])]
        exact ih h hrest

theorem Regular.named {g : Grammar} {slot : Slot} (hg : g.Regular) (hslot : slot ∈ g.options) :
    g.options.find? (·.name == slot.name) = some slot := by
  have hnodup : (g.options.filterMap fun slot => some slot.name).Nodup := by
    rw [← Function.comp_def, List.filterMap_eq_map]
    exact hg.names_nodup
  exact find?_of_nodup hnodup hslot rfl

theorem Regular.lettered {g : Grammar} {slot : Slot} {letter : Char} (hg : g.Regular)
    (hslot : slot ∈ g.options) (hletter : slot.short? = some letter) :
    g.options.find? (·.short? == some letter) = some slot :=
  find?_of_nodup hg.letters_nodup hslot hletter

/-- How an option may be named. -/
inductive Names (g : Grammar) (slot : Slot) : String → Prop
  | long : slot ∈ g.options → g.Names slot ("--" ++ slot.name)
  | short {letter} : slot ∈ g.options → slot.short? = some letter →
    g.Names slot (String.ofList ['-', letter])

theorem Names.mem {g : Grammar} {slot : Slot} {word : String} (h : g.Names slot word) :
    slot ∈ g.options := by
  cases h with
  | long hslot => exact hslot
  | short hslot _ => exact hslot

/-- How an item may be written. -/
inductive Writes (g : Grammar) : Item → List String → Prop
  | flag {slot word} : g.Names slot word → slot.intake = .flag → g.Writes ⟨slot, none⟩ [word]
  | following {slot read word text} :
    g.Names slot word → slot.intake = .value read → IsPlain text →
    g.Writes ⟨slot, some text⟩ [word, text]
  | attached {slot read word text} :
    g.Names slot word → slot.intake = .value read →
    g.Writes ⟨slot, some text⟩ [word ++ "=" ++ text]
  /-- A letter may have its value joined to it, if that is not taken for an attached one. -/
  | joined {slot read letter text} :
    slot ∈ g.options → slot.short? = some letter → slot.intake = .value read → text ≠ "" →
    text.toList.head? ≠ some '=' →
    g.Writes ⟨slot, some text⟩ [String.ofList ('-' :: letter :: text.toList)]
  | plain {slot read text} :
    g.positional? = some slot → slot.intake = .value read → IsPlain text →
    g.Writes ⟨slot, some text⟩ [text]

/-- Words that give some items in their order. -/
inductive Line (g : Grammar) : List Item → List String → Prop
  | nil : g.Line [] []
  | cons {item items words more} :
    g.Writes item words → g.Line items more → g.Line (item :: items) (words ++ more)
  /-- Behind a lone `--` a text may look like an option. -/
  | dashes {slot read text} :
    g.positional? = some slot → slot.intake = .value read →
    g.Line [⟨slot, some text⟩] ["--", text]

end Grammar

/-! ### One word -/

namespace Arguments

variable {g : Grammar} {a : Arguments} {word text : String} {rest : List String}

theorem take_long {c : Char} {option : List Char} (h : word.toList = '-' :: '-' :: c :: option) :
    take g a (word :: rest) = a.long g (c :: option) >>= fun a => a.take g rest := by
  rw [take, h]
  rfl

theorem take_cluster {c : Char} {options : List Char} (h : word.toList = '-' :: c :: options)
    (hc : c ≠ '-') :
    take g a (word :: rest) = a.cluster g (c :: options) >>= fun a => a.take g rest := by
  rw [take, h]
  split
  next heq => exact absurd (List.cons.inj (List.cons.inj heq).2).1 hc
  next heq => exact absurd (List.cons.inj (List.cons.inj heq).2).1 hc
  next heq =>
    cases heq
    rfl
  next hplain => exact absurd rfl (hplain c options)

/-- A plain word is a value that is awaited or stands for itself. -/
theorem take_of_isPlain (hw : IsPlain word) :
    take g a (word :: rest) =
      match a.pending with
      | some (slot, none) => take g { a with pending := some (slot, some word) } rest
      | _ => a.plain word >>= fun a => a.take g rest := by
  rw [take]
  split
  next heq => exact absurd heq (hw _ _)
  next heq => exact absurd heq (hw _ _)
  next heq => exact absurd heq (hw _ _)
  next => rfl

theorem long_name {slot : Slot} (hg : g.Regular) (hslot : slot ∈ g.options) :
    a.long g slot.name.toList = a.begin slot none := by
  have hall : ∀ c ∈ slot.name.toList, (c != '=') = true := by
    intro c hc
    apply bne_iff_ne.mpr
    rintro rfl
    exact hg.name_closed slot hslot hc
  have hend : ∀ c ∈ ([] : List Char).head?, ¬ (c != '=') = true := by simp
  obtain ⟨htake, hdrop⟩ := Text.takeWhile_append hall hend
  rw [List.append_nil] at htake hdrop
  rw [long, htake, hdrop, String.ofList_toList, hg.named hslot]

theorem long_attached {slot : Slot} (hg : g.Regular) (hslot : slot ∈ g.options) :
    a.long g (slot.name.toList ++ '=' :: text.toList) = a.begin slot (some text) := by
  obtain ⟨htake, hdrop⟩ := Text.takeWhile_append_cons (hg.name_closed slot hslot) text.toList
  rw [long, htake, hdrop, String.ofList_toList, hg.named hslot]
  simp only [String.ofList_toList]

theorem cluster_letter {slot : Slot} {letter : Char} (hg : g.Regular) (hslot : slot ∈ g.options)
    (hletter : slot.short? = some letter) : a.cluster g [letter] = a.begin slot none := by
  rw [cluster, hg.lettered hslot hletter]
  cases hintake : slot.intake with
  | flag =>
    simp only [hintake]
    cases a.begin slot none <;> rfl
  | value read => simp only [hintake]

theorem cluster_attached {slot : Slot} {letter : Char} {read : String → Except UsageError Value}
    (hg : g.Regular) (hslot : slot ∈ g.options) (hletter : slot.short? = some letter)
    (hread : slot.intake = .value read) :
    a.cluster g (letter :: '=' :: text.toList) = a.begin slot (some text) := by
  rw [cluster, hg.lettered hslot hletter]
  simp only [hread, String.ofList_toList]

theorem cluster_joined {slot : Slot} {letter : Char} {read : String → Except UsageError Value}
    (hg : g.Regular) (hslot : slot ∈ g.options) (hletter : slot.short? = some letter)
    (hread : slot.intake = .value read) (hne : text ≠ "") (hhead : text.toList.head? ≠ some '=') :
    a.cluster g (letter :: text.toList) = a.begin slot (some text) := by
  rw [cluster, hg.lettered hslot hletter]
  obtain ⟨c, more, hmore⟩ := List.exists_cons_of_ne_nil (mt String.toList_eq_nil_iff.mp hne)
  simp only [hread, hmore]
  split
  next => contradiction
  next => contradiction
  next heq =>
    rw [hmore, heq] at hhead
    exact absurd rfl hhead
  next => rw [← hmore, String.ofList_toList]

theorem take_names {slot : Slot} (hg : g.Regular) (hn : g.Names slot word) :
    take g a (word :: rest) = a.begin slot none >>= fun a => a.take g rest := by
  cases hn with
  | long hslot =>
    obtain ⟨c, name, hname⟩ :=
      List.exists_cons_of_ne_nil (mt String.toList_eq_nil_iff.mp (hg.name_ne slot hslot))
    have hword : ("--" ++ slot.name).toList = '-' :: '-' :: c :: name := by
      rw [String.toList_append, hname]
      rfl
    rw [take_long hword, ← hname, long_name hg hslot]
  | @short letter hslot hletter =>
    have hdash : letter ≠ '-' := fun h => hg.letter_ne slot hslot (h ▸ hletter)
    rw [take_cluster String.toList_ofList hdash, cluster_letter hg hslot hletter]

theorem take_attached {slot : Slot} {read : String → Except UsageError Value} (hg : g.Regular)
    (hn : g.Names slot word) (hread : slot.intake = .value read) :
    take g a ((word ++ "=" ++ text) :: rest) =
      a.begin slot (some text) >>= fun a => a.take g rest := by
  have hequals : "=".toList = ['='] := rfl
  cases hn with
  | long hslot =>
    obtain ⟨c, name, hname⟩ :=
      List.exists_cons_of_ne_nil (mt String.toList_eq_nil_iff.mp (hg.name_ne slot hslot))
    have hword : ("--" ++ slot.name ++ "=" ++ text).toList =
        '-' :: '-' :: c :: (name ++ '=' :: text.toList) := by
      rw [String.toList_append, String.toList_append, String.toList_append, hname, hequals,
        List.append_assoc]
      rfl
    rw [take_long hword, ← List.cons_append, ← hname, long_attached hg hslot]
  | @short letter hslot hletter =>
    have hdash : letter ≠ '-' := fun h => hg.letter_ne slot hslot (h ▸ hletter)
    have hword : (String.ofList ['-', letter] ++ "=" ++ text).toList =
        '-' :: letter :: '=' :: text.toList := by
      rw [String.toList_append, String.toList_append, String.toList_ofList, hequals]
      rfl
    rw [take_cluster hword hdash, cluster_attached hg hslot hletter hread]

/-! ### Items one by one -/

/-- The names under which something has been given or is owed. -/
def namesOf (given : List (String × Option Value)) (owed : Option Item) : List String :=
  (owed.map (·.slot.name)).toList ++ given.map Prod.fst

/-- Arguments on the way, with an item whose text is yet to be looked at. -/
def midway (g : Grammar) (given : List (String × Option Value)) (owed : Option Item) :
    Arguments where
  given
  pending := owed.map fun item => (item.slot, item.text?)
  positional? := if "" ∈ namesOf given owed then none else g.positional?

/-- An item that can be owed: it has a text for its slot, and may be given. -/
def CanOwe (given : List (String × Option Value)) (item : Item) : Prop :=
  (∃ read text, item.slot.intake = .value read ∧ item.text? = some text) ∧
    (item.slot.repeats = false → item.slot.name ∉ given.map Prod.fst)

variable {given : List (String × Option Value)} {owed : Option Item} {item : Item}

/-- What may be given is accepted as soon as it can be read. -/
theorem accept_eq {slot : Slot} (hnew : slot.repeats = false → slot.name ∉ a.given.map Prod.fst)
    (value : Except UsageError (Option Value)) :
    a.accept slot value =
      value.map fun value => { a with given := (slot.name, value) :: a.given, pending := none } := by
  have hrefuse : (a.has slot.name && !slot.repeats) = false := by
    cases hr : slot.repeats with
    | true => rw [Bool.not_true, Bool.and_false]
    | false =>
      have hhas : a.has slot.name = false := by
        refine List.any_eq_false.mpr fun entry hentry heq => hnew hr ?_
        exact List.mem_map.mpr ⟨entry, hentry, beq_iff_eq.mp heq⟩
      rw [hhas, Bool.false_and]
  rw [accept, hrefuse]
  cases value <;> rfl

theorem settle_midway (h : CanOwe given item) :
    (midway g given (some item)).settle =
      item.entry.map fun entry => midway g (entry :: given) none := by
  obtain ⟨⟨read, text, hread, htext⟩, hnew⟩ := h
  obtain ⟨slot, text?⟩ := item
  obtain rfl : text? = some text := htext
  have hread : slot.intake = .value read := hread
  have hentry : Item.entry ⟨slot, some text⟩ =
      ((read text).map some).map fun value => (slot.name, value) := by
    simp only [Item.entry, Item.value, hread]
  rw [settle]
  simp only [midway, Option.map, hread, hentry]
  rw [accept_eq hnew]
  cases read text <;> rfl

/-- Owe an item from now on; the argument that is no option comes once. -/
def hold (a : Arguments) (slot : Slot) (text : String) : Arguments where
  given := a.given
  pending := some (slot, some text)
  positional? := if slot.name = "" then none else a.positional?

theorem hold_midway (slot : Slot) (text : String) :
    (midway g given none).hold slot text = midway g given (some ⟨slot, some text⟩) := by
  have hmem : "" ∈ namesOf given (some ⟨slot, some text⟩) ↔
      slot.name = "" ∨ "" ∈ namesOf given none :=
    List.mem_cons.trans (or_congr_left eq_comm)
  simp only [hold, midway, hmem]
  by_cases hname : slot.name = ""
  · simp [hname]
  · simp [hname]

theorem hold_of_name_ne {slot : Slot} (hname : slot.name ≠ "") :
    { a with pending := some (slot, some text) } = a.hold slot text := by
  rw [hold, if_neg hname]

theorem begin_none_value {slot : Slot} {read : String → Except UsageError Value}
    (hread : slot.intake = .value read) :
    a.begin slot none = a.settle >>= fun a => pure { a with pending := some (slot, none) } := by
  simp only [begin, hread]

theorem begin_some_value {slot : Slot} {read : String → Except UsageError Value}
    (hread : slot.intake = .value read) (hname : slot.name ≠ "") :
    a.begin slot (some text) = a.settle >>= fun a => (a.hold slot text).settle := by
  simp only [begin, hread, hold_of_name_ne hname]

theorem begin_flag {slot : Slot} (hflag : slot.intake = .flag) :
    a.begin slot none = a.settle >>= fun a => a.accept slot (.ok none) := by
  simp only [begin, hflag]

/-- From all arguments on the way that have these names, the words give these items. -/
def Yields (g : Grammar) (names words : List String) (items : List Item) : Prop :=
  ∀ given owed, namesOf given owed = names → (∀ item ∈ owed, CanOwe given item) →
    (take g (midway g given owed) words).map Arguments.given =
      ((owed.toList ++ items).mapM Item.entry).map fun entries => entries.reverse ++ given

/-- What settles first and then gives some items gives what is owed and these items. -/
theorem settle_bind {run : Arguments → Except UsageError Arguments} {items : List Item}
    (h : ∀ item ∈ owed, CanOwe given item)
    (hrun : ∀ more, namesOf more none = namesOf given owed →
      (run (midway g more none)).map Arguments.given =
        (items.mapM Item.entry).map fun entries => entries.reverse ++ more) :
    ((midway g given owed).settle >>= run).map Arguments.given =
      ((owed.toList ++ items).mapM Item.entry).map fun entries => entries.reverse ++ given := by
  cases owed with
  | none => exact hrun given rfl
  | some item =>
    rw [settle_midway (h item rfl), Option.toList_some, List.singleton_append, List.mapM_cons]
    cases hentry : item.entry with
    | error fault => rfl
    | ok entry =>
      have hnames : namesOf (entry :: given) none = namesOf given (some item) := by
        rw [namesOf, List.map_cons, Item.fst_of_entry hentry]
        rfl
      refine (hrun (entry :: given) hnames).trans ?_
      cases items.mapM Item.entry with
      | error fault => rfl
      | ok entries => simp [Except.map, bind, Except.bind, pure, Except.pure]

variable {names words more : List String} {items : List Item}

theorem yields_nil : Yields g names [] [] := by
  intro given owed _ howed
  rw [take, ← bind_pure (midway g given owed).settle]
  exact settle_bind howed fun _ _ => rfl

section Steps

variable {slot : Slot} {read : String → Except UsageError Value} (hread : slot.intake = .value read)
  (hnew : slot.repeats = false → slot.name ∉ names)
include hread hnew

theorem canOwe (hnames : namesOf given none = names) : CanOwe given ⟨slot, some text⟩ := by
  refine ⟨⟨read, text, hread, rfl⟩, fun hr hmem => hnew hr ?_⟩
  rw [← hnames]
  exact hmem

variable (hmore : Yields g (slot.name :: names) more items)
include hmore

/-- A value that is still to be looked at when the next argument begins. -/
theorem Yields.of_later
    (htake : ∀ given owed, namesOf given owed = names → (∀ item ∈ owed, CanOwe given item) →
      take g (midway g given owed) words =
        (midway g given owed).settle >>= fun a => (a.hold slot text).take g more) :
    Yields g names words (⟨slot, some text⟩ :: items) := by
  intro given owed hnames howed
  rw [htake given owed hnames howed]
  refine settle_bind howed fun earlier hearlier => ?_
  rw [hold_midway]
  refine hmore earlier (some ⟨slot, some text⟩) ?_ ?_
  · exact congrArg (slot.name :: ·) (hearlier.trans hnames)
  · rintro _ ⟨⟩
    exact canOwe hread hnew (hearlier.trans hnames)

/-- A value that is looked at at once. -/
theorem Yields.of_now
    (htake : ∀ given owed, namesOf given owed = names → (∀ item ∈ owed, CanOwe given item) →
      take g (midway g given owed) words =
        (midway g given owed).settle >>= fun a => (a.hold slot text).settle >>= fun a =>
          a.take g more) :
    Yields g names words (⟨slot, some text⟩ :: items) := by
  intro given owed hnames howed
  rw [htake given owed hnames howed]
  refine settle_bind howed fun earlier hearlier => ?_
  rw [hold_midway]
  have howe : ∀ item ∈ some (⟨slot, some text⟩ : Item), CanOwe earlier item := by
    rintro _ ⟨⟩
    exact canOwe hread hnew (hearlier.trans hnames)
  refine settle_bind howe fun latest hlatest => ?_
  refine hmore latest none (hlatest.trans ?_) (by simp)
  exact congrArg (slot.name :: ·) (hearlier.trans hnames)

end Steps

/-- A flag settles what is owed and is given at once. -/
theorem accept_midway {slot : Slot} (hname : slot.name ≠ "")
    (hnew : slot.repeats = false → slot.name ∉ namesOf given none) :
    (midway g given none).accept slot (.ok none) =
      .ok (midway g ((slot.name, none) :: given) none) := by
  have hmem : "" ∈ namesOf ((slot.name, none) :: given) none ↔ "" ∈ namesOf given none :=
    List.mem_cons.trans (or_iff_right hname.symm)
  rw [accept_eq hnew]
  simp only [midway, hmem]
  rfl

theorem pending_midway_ne (h : ∀ item ∈ owed, CanOwe given item) (slot : Slot) :
    (midway g given owed).pending ≠ some (slot, none) := by
  intro heq
  obtain ⟨item, hitem, hpair⟩ := Option.map_eq_some_iff.mp heq
  obtain ⟨⟨_, text, -, htext⟩, -⟩ := h item hitem
  rw [htext] at hpair
  cases hpair

/-- The argument that is no option, where it has not been given yet. -/
theorem plain_midway {slot : Slot} (hpositional : g.positional? = some slot)
    (hname : slot.name = "") (hnew : slot.name ∉ namesOf given owed) :
    (midway g given owed).plain text =
      (midway g given owed).settle >>= fun a => pure (a.hold slot text) := by
  have hp : (midway g given owed).positional? = some slot := by
    rw [midway, if_neg (hname ▸ hnew), hpositional]
  rw [plain, hp]
  simp only [hold, if_pos hname]

/-- An item is given by the words it is written in. -/
theorem Yields.cons (hg : g.Regular) (hw : g.Writes item words)
    (hnew : item.slot.repeats = false → item.slot.name ∉ names)
    (hmore : Yields g (item.slot.name :: names) more items) :
    Yields g names (words ++ more) (item :: items) := by
  cases hw with
  | @flag slot word hn hflag =>
    rintro given owed rfl howed
    rw [List.singleton_append, take_names hg hn, begin_flag hflag, bind_assoc]
    refine settle_bind howed fun earlier hearlier => ?_
    rw [accept_midway (hg.name_ne slot hn.mem) (hearlier ▸ hnew), List.mapM_cons]
    have hentry : Item.entry ⟨slot, none⟩ = .ok (slot.name, none) := by
      simp only [Item.entry, Item.value, hflag]
      rfl
    rw [hentry]
    refine (hmore ((slot.name, none) :: earlier) none ?_ (by simp)).trans ?_
    · exact congrArg (slot.name :: ·) hearlier
    · cases h : items.mapM Item.entry with
      | error fault => simp [h, Except.map, bind, Except.bind]
      | ok entries => simp [h, Except.map, bind, Except.bind, pure, Except.pure]
  | @following slot read word text hn hread hplain =>
    refine .of_later hread hnew hmore fun given owed _ _ => ?_
    rw [List.cons_append, List.singleton_append, take_names hg hn, begin_none_value hread,
      bind_assoc]
    refine bind_congr fun a => ?_
    rw [pure_bind, take_of_isPlain hplain, ← hold_of_name_ne (hg.name_ne slot hn.mem)]
  | @attached slot read word text hn hread =>
    refine .of_now hread hnew hmore fun given owed _ _ => ?_
    rw [List.singleton_append, take_attached hg hn hread,
      begin_some_value hread (hg.name_ne slot hn.mem), bind_assoc]
  | @joined slot read letter text hslot hletter hread hne hhead =>
    have hdash : letter ≠ '-' := fun h => hg.letter_ne slot hslot (h ▸ hletter)
    refine .of_now hread hnew hmore fun given owed _ _ => ?_
    rw [List.singleton_append, take_cluster String.toList_ofList hdash,
      cluster_joined hg hslot hletter hread hne hhead,
      begin_some_value hread (hg.name_ne slot hslot), bind_assoc]
  | @plain slot read text hpositional hread hplain =>
    obtain ⟨hname, hrepeats⟩ := hg.positional slot hpositional
    refine .of_later hread hnew hmore fun given owed hnames howed => ?_
    have hnone := hnames ▸ hnew hrepeats
    rw [List.singleton_append, take_of_isPlain hplain]
    split
    next hpending => exact absurd hpending (pending_midway_ne howed _)
    next => rw [plain_midway hpositional hname hnone, bind_assoc, bind_congr fun a => pure_bind ..]

theorem yields_dashes {slot : Slot} {read : String → Except UsageError Value} (hg : g.Regular)
    (hpositional : g.positional? = some slot) (hread : slot.intake = .value read)
    (hnew : slot.repeats = false → slot.name ∉ names) :
    Yields g names ["--", text] [⟨slot, some text⟩] := by
  obtain ⟨hname, hrepeats⟩ := hg.positional slot hpositional
  refine .of_later hread hnew yields_nil fun given owed hnames howed => ?_
  have hdashes : "--".toList = ['-', '-'] := rfl
  have hnone := hnames ▸ hnew hrepeats
  rw [take, hdashes]
  simp only [List.foldlM_cons, List.foldlM_nil, plain_midway hpositional hname hnone, bind_assoc,
    pure_bind]
  rfl

theorem yields_of_line (hg : g.Regular) (hline : g.Line items words) (h : Admits names items) :
    Yields g names words items := by
  induction hline generalizing names with
  | nil => exact yields_nil
  | cons hw _ ih => exact .cons hg hw h.1 (ih h.2)
  | dashes hpositional hread => exact yields_dashes hg hpositional hread h.1

end Arguments

/-- In whichever way items are written, these are the values given, the latest first; and where
an item cannot be read, the first such item is what is wrong. -/
theorem Grammar.Line.given_read {g : Grammar} {items : List Item} {words : List String}
    (h : g.Line items words) (hg : g.Regular) (hadmits : Admits [] items) :
    (g.read words).map Arguments.given = (items.mapM Item.entry).map List.reverse := by
  have hyields := Arguments.yields_of_line hg h hadmits [] none rfl (by simp)
  simp only [List.append_nil] at hyields
  exact hyields

theorem Grammar.Line.exists_read {g : Grammar} {items : List Item} {words : List String}
    {entries : List (String × Option Value)} (h : g.Line items words) (hg : g.Regular)
    (hadmits : Admits [] items) (hentries : items.mapM Item.entry = .ok entries) :
    ∃ a, g.read words = .ok a ∧ a.given = entries.reverse := by
  have hgiven := h.given_read hg hadmits
  rw [hentries] at hgiven
  cases hread : g.read words with
  | error fault =>
    rw [hread] at hgiven
    contradiction
  | ok a =>
    rw [hread] at hgiven
    exact ⟨a, rfl, Except.ok.inj hgiven⟩

theorem Arguments.valuesOf_eq {a : Arguments} {entries : List (String × Option Value)}
    (h : a.given = entries.reverse) (name : String) :
    a.valuesOf name =
      entries.filterMap fun (given, value) => if given == name then value else none := by
  rw [valuesOf, h, List.filterMap_reverse, List.reverse_reverse]

end Scorecard.CommandLine
