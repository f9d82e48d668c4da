import Scorecard.CommandLine.Execution
import Scorecard.Proofs.Calendar.Cutting
import Scorecard.Proofs.Calendar.Notation
import Scorecard.Proofs.CommandLine.Writing
import Scorecard.Proofs.Fallible
import Scorecard.Proofs.Text.Runs

/-! Listings of bucket starts taken up again. A listing has a line for each start, and each
line can be given as the start of a listing in turn. That one counts anew from there, and yet
it has the same lines from there on. -/
namespace Scorecard.CommandLine

open Calendar (Frequency Range Timestamp countBound)

/-- What comes of a command line. -/
def outcome (contents : Except String String) (arguments : List String) : Outcome :=
  match Command.read false arguments with
  | .error e => .refused e
  | .ok command => command.run contents

/-! ### Lines -/

namespace Outcome

/-- Success with these lines, each of them ended by a line feed, and nothing else. -/
structure Prints (o : Outcome) (lines : List String) : Prop where
  code : o.code = 0
  errors : o.errors = ""
  output : o.output.toList = lines.flatMap fun line => line.toList ++ ['\n']
  unbroken : ∀ line ∈ lines, '\n' ∉ line.toList

theorem lines_inj {lines others : List String} (hlines : ∀ line ∈ lines, '\n' ∉ line.toList)
    (hothers : ∀ line ∈ others, '\n' ∉ line.toList)
    (h : (lines.flatMap fun line => line.toList ++ ['\n']) =
      others.flatMap fun line => line.toList ++ ['\n']) : lines = others := by
  induction lines generalizing others with
  | nil =>
    cases others with
    | nil => rfl
    | cons other others => simp at h
  | cons line lines ih =>
    cases others with
    | nil => simp at h
    | cons other others =>
      obtain ⟨hline, hlines⟩ := List.forall_mem_cons.mp hlines
      obtain ⟨hother, hothers⟩ := List.forall_mem_cons.mp hothers
      simp only [List.flatMap_cons, List.append_assoc, List.singleton_append] at h
      -- The first line feed on either side ends the first line.
      have hfirst : line.toList = other.toList := by
        have hrun := congrArg (List.takeWhile (· != '\n')) h
        rw [(Text.takeWhile_append_cons hline _).1] at hrun
        rwa [(Text.takeWhile_append_cons hother _).1] at hrun
      rw [hfirst] at h
      rw [String.toList_injective hfirst, ih hlines hothers (by simpa using h)]

/-- The lines that an outcome prints are determined. -/
theorem Prints.unique {o : Outcome} {lines others : List String} (h : o.Prints lines)
    (hothers : o.Prints others) : lines = others :=
  lines_inj h.unbroken hothers.unbroken (h.output.symm.trans hothers.output)

end Outcome

/-! ### Listings -/

section Listing
variable {start last : Calendar.Reading} {f : Frequency} {lines : List String}

theorem toList_foldl_lines (items : List Timestamp) (out : String) :
    (items.foldl (fun out t => out ++ t.secondText ++ "\n") out).toList =
      out.toList ++ (items.map Timestamp.secondText).flatMap fun line => line.toList ++ ['\n'] := by
  have hfeed : "\n".toList = ['\n'] := rfl
  induction items generalizing out with
  | nil => simp
  | cons t items ih => simp [ih, hfeed]

/-- A listing has a line for each start, unless the first date cannot be rounded down. -/
theorem prints_showRange_iff : (showRange start last f).Prints lines ↔
    ∃ first, start.time.roundDown? f = some first ∧
      lines = (Range.mk first last.time f).items.map Timestamp.secondText := by
  rw [showRange]
  cases start.time.roundDown? f with
  | none =>
    constructor
    · intro h
      have hcode := h.code
      contradiction
    · rintro ⟨_, ⟨⟩, _⟩
  | some first =>
    have hprints : (Outcome.succeeded ((Range.mk first last.time f).items.foldl
        (fun out t => out ++ t.secondText ++ "\n") "") "").Prints
        ((Range.mk first last.time f).items.map Timestamp.secondText) := by
      refine ⟨rfl, rfl, toList_foldl_lines _ _, ?_⟩
      intro line hline
      obtain ⟨t, -, rfl⟩ := List.mem_map.mp hline
      exact t.not_mem_secondText
    constructor
    · intro h
      exact ⟨first, rfl, h.unique hprints⟩
    · rintro ⟨_, ⟨⟩, rfl⟩
      exact hprints

/-- Each line of a listing is the start of a bucket, and starts a listing with the lines from
it on. -/
theorem prints_showRange_drop (h : (showRange start last f).Prints lines)
    (hcount : lines.length < countBound) {i : Nat} {line : String} (hline : lines[i]? = some line) :
    ∃ t : Timestamp, line = t.secondText ∧ t.nano = 0 ∧
      (∃ first, start.time.roundDown? f = some first ∧ first.shift? f i = some t) ∧
      t.roundDown? f = some t ∧ (showRange t.reading last f).Prints (lines.drop i) := by
  obtain ⟨first, hround, rfl⟩ := prints_showRange_iff.mp h
  rw [List.length_map] at hcount
  rw [List.getElem?_map, Option.map_eq_some_iff] at hline
  obtain ⟨t, ht, rfl⟩ := hline
  have hfirst := Timestamp.roundDown?_eq_some_iff.mp hround
  have hitem := (Range.getElem?_items_iff hcount).mp ht
  have hstart := (Range.item?_iff_isStart hfirst).mp hitem
  have hself : t.roundDown? f = some t := hstart.1.roundDown?_eq_iff.mpr hstart.1.bucketOf
  refine ⟨t, rfl, hstart.1.nano, ⟨first, hround, (Range.item?_eq_some_iff.mp hitem).1⟩, hself, ?_⟩
  -- The start rounds down to itself, so the second listing counts from there.
  refine prints_showRange_iff.mpr ⟨t, hself, ?_⟩
  rw [← List.map_drop, Range.items_eq_drop hfirst hstart.1 hcount]

end Listing

/-! ### Arguments -/

/-- What is taken by a listing. -/
def rangeGrammar : Grammar :=
  ⟨[verboseSlot, startSlot, endSlot, frequencySlot], none⟩

theorem regular_rangeGrammar : rangeGrammar.Regular where
  name_ne := by decide
  name_closed := by decide
  names_nodup := by decide
  letter_ne := by decide
  letters_nodup := by decide
  positional := by simp [rangeGrammar]

theorem entry_valueSlot {name label text : String} {short? : Option Char} {value : Value}
    {read : String → Except String Value} (h : read text = .ok value) :
    Item.entry ⟨valueSlot name short? label read, some text⟩ = .ok (name, some value) := by
  simp only [Item.entry, Item.value, valueSlot, h]
  rfl

/-- A listing asked for with its three values attached. -/
theorem read_range {S E F : String} {start last : Calendar.Reading} {f : Frequency}
    (hstart : readDate S = .ok start) (hlast : readDate E = .ok last)
    (hfrequency : readFrequency F = .ok f) :
    Command.read false ["range", "--start=" ++ S, "--end=" ++ E, "--frequency=" ++ F] =
      .ok (.range start last f) := by
  have hattached {slot : Slot} {read : String → Except UsageError Value} (text : String)
      (hslot : slot ∈ rangeGrammar.options) (hread : slot.intake = .value read) :
      rangeGrammar.Writes ⟨slot, some text⟩ ["--" ++ slot.name ++ "=" ++ text] :=
    .attached (.long hslot) hread
  have hline : rangeGrammar.Line [⟨startSlot, some S⟩, ⟨endSlot, some E⟩, ⟨frequencySlot, some F⟩]
      ["--start=" ++ S, "--end=" ++ E, "--frequency=" ++ F] :=
    .cons (hattached S (by simp [rangeGrammar]) rfl) <|
      .cons (hattached E (by simp [rangeGrammar]) rfl) <|
        .cons (hattached F (by simp [rangeGrammar]) rfl) .nil
  have hentries : [⟨startSlot, some S⟩, ⟨endSlot, some E⟩, ⟨frequencySlot, some F⟩].mapM
      Item.entry = .ok [("start", some (.date start)), ("end", some (.date last)),
        ("frequency", some (.frequency f))] :=
    mapM_eq_ok_iff.mpr <|
      .cons (entry_valueSlot (congrArg (Except.map Value.date) hstart)) <|
        .cons (entry_valueSlot (congrArg (Except.map Value.date) hlast)) <|
          .cons (entry_valueSlot (congrArg (Except.map Value.frequency) hfrequency)) .nil
  have hadmits : Admits [] [⟨startSlot, some S⟩, ⟨endSlot, some E⟩, ⟨frequencySlot, some F⟩] := by
    simp [Admits, startSlot, endSlot, frequencySlot, valueSlot]
  obtain ⟨a, hread, hgiven⟩ := hline.exists_read regular_rangeGrammar hadmits hentries
  show Command.readRange _ = _
  obtain ⟨given, pending, positional?⟩ := a
  obtain rfl := hgiven
  rw [Command.readRange, ← rangeGrammar, hread]
  rfl

/-! ### Listings taken up again -/

/-- Every line of a listing, for years of either sign, is read as the start of the bucket that it
was printed for, and a listing from there to the same end and in the same steps has exactly the
lines from that one on. The line can always be given as the start, as a value attached to the
option. -/
theorem outcome_resumes {contents : Except String String} {arguments lines : List String}
    {start last : Calendar.Reading} {f : Frequency}
    (hread : Command.read false arguments = .ok (.range start last f))
    (hprints : (outcome contents arguments).Prints lines) (hcount : lines.length < countBound)
    {i : Nat} {line : String} (hline : lines[i]? = some line) :
    ∃ t : Timestamp, line = t.secondText ∧ readDate line = .ok t.reading ∧
      (∃ first, start.time.roundDown? f = some first ∧ first.shift? f i = some t) ∧
      t.roundDown? f = some t ∧
      (∀ again : List String, Command.read false again = .ok (.range t.reading last f) →
        (outcome contents again).Prints (lines.drop i)) ∧
      ∀ E F : String, readDate E = .ok last → readFrequency F = .ok f →
        (outcome contents ["range", "--start=" ++ line, "--end=" ++ E,
          "--frequency=" ++ F]).Prints (lines.drop i) := by
  have hshown : (showRange start last f).Prints lines := by
    rwa [outcome, hread] at hprints
  obtain ⟨t, rfl, hnano, hfirst, hself, hrest⟩ := prints_showRange_drop hshown hcount hline
  have hdate : readDate t.secondText = .ok t.reading := by
    rw [readDate, Calendar.Timestamp.readDate?_secondText t hnano]
  have hagain : ∀ again : List String, Command.read false again = .ok (.range t.reading last f) →
      (outcome contents again).Prints (lines.drop i) := by
    intro again hagain
    rw [outcome, hagain]
    exact hrest
  refine ⟨t, rfl, hdate, hfirst, hself, hagain, ?_⟩
  intro E F hlast hfrequency
  exact hagain _ (read_range hdate hlast hfrequency)

/-- Days from the year before the year 0 on, taken up at the last day of that year. -/
theorem outcome_resumes_yearZero :
    let listing (start : String) := outcome (.ok "")
      ["range", "--start=" ++ start, "--end=" ++ "0000-01-02", "--frequency=" ++ "day"]
    let lines := ["-0001-12-30T00:00:00", "-0001-12-31T00:00:00", "0000-01-01T00:00:00",
      "0000-01-02T00:00:00"]
    (listing "-0001-12-30T12:30").Prints lines ∧ lines[1]? = some "-0001-12-31T00:00:00" ∧
      (listing "-0001-12-31T00:00:00").Prints
        ["-0001-12-31T00:00:00", "0000-01-01T00:00:00", "0000-01-02T00:00:00"] := by
  intro listing lines
  obtain ⟨start, hstart⟩ : ∃ start, readDate "-0001-12-30T12:30" = .ok start :=
    exists_eq_ok (by decide +kernel)
  obtain ⟨last, hlast⟩ : ∃ last, readDate "0000-01-02" = .ok last :=
    exists_eq_ok (by decide +kernel)
  have hfrequency : readFrequency "day" = .ok .day := rfl
  have hprints : (listing "-0001-12-30T12:30").Prints lines :=
    ⟨by decide +kernel, by decide +kernel, by decide +kernel, by decide +kernel⟩
  have hline : lines[1]? = some "-0001-12-31T00:00:00" := rfl
  obtain ⟨_, -, -, -, -, -, hagain⟩ :=
    outcome_resumes (read_range hstart hlast hfrequency) hprints (by decide) hline
  exact ⟨hprints, hline, hagain _ _ hlast hfrequency⟩

end Scorecard.CommandLine
