import Scorecard.Formula.Source
import Scorecard.Proofs.Formula.References

/-! Sources that keep their programs. A kept program could be out of date, or outlive a text
that does not compile. Neither happens: whatever a source is asked to do, it answers as
though it compiled its text anew every time, and a program that it keeps is the program of
the text it has. -/
namespace Scorecard.Formula

/-- A formula without a program: its text and its limits. -/
structure Wording where
  text : String
  limits : Limits

/-- What a formula can be asked to do. -/
inductive Command (ν : Type) where
  | setText (text : String)
  | compile
  | program
  | evaluate (context : Context ν) (registry : Registry ν)

/-- What it answers. -/
inductive Answer (ν : Type) where
  | changed (result : Except FormulaError Unit)
  | program (result : Except FormulaError (Program ν))
  /-- The value, with the keys that were asked for. -/
  | value (result : Except FormulaError ν) (lookups : List String)

variable {ν : Type} [Arithmetic ν]

namespace Wording

def compile (w : Wording) : Except FormulaError (Program ν) :=
  if w.text.isEmpty then .error (.parse .emptyInput) else Formula.compile w.limits w.text

/-- Carry out a command, with the program worked out for it alone. -/
def perform (w : Wording) : Command ν → Answer ν × Wording
  | .setText text =>
    if text.isEmpty then (.changed (.error (.parse .emptyInput)), w)
    else (.changed (.ok ()), { w with text })
  | .compile | .program => (.program w.compile, w)
  | .evaluate context registry =>
    match (w.compile : Except FormulaError (Program ν)) with
    | .error e => (.value (.error e) [], w)
    | .ok program =>
      let outcome := program.trace context registry
      (.value (outcome.result.mapError .evaluation) outcome.lookups, w)

end Wording

namespace Source

def wording (s : Source ν) : Wording := ⟨s.text, s.limits⟩

/-- Carry out a command. A text that is refused leaves the source as it was. -/
def perform (s : Source ν) : Command ν → Answer ν × Source ν
  | .setText text =>
    match s.setText text with
    | .ok next => (.changed (.ok ()), next)
    | .error e => (.changed (.error e), s)
  | .compile => (.program s.compile, s)
  | .program => (.program s.program.1, s.program.2)
  | .evaluate context registry =>
    let (result, lookups, next) := s.evaluate context registry
    (.value result lookups, next)

/-- A source that no command has been given to yet. -/
inductive IsNew : Source ν → Prop where
  | empty : IsNew empty
  | ofText {limits : Limits} {text : String} {s : Source ν} (h : ofText limits text = .ok s) :
      IsNew s

end Source

/-- The answers to commands carried out one after another, and what has become of the
formula. -/
def transcript {σ : Type} (perform : σ → Command ν → Answer ν × σ) (s : σ) :
    List (Command ν) → List (Answer ν) × σ
  | [] => ([], s)
  | command :: rest =>
    let (answer, next) := perform s command
    let (answers, last) := transcript perform next rest
    (answer :: answers, last)

namespace Source

/-- A program that is kept is the program of the text. -/
def Current (s : Source ν) : Prop :=
  ∀ program, s.program? = some program → s.wording.compile = .ok program

variable {s : Source ν}

theorem current_of_none (h : s.program? = none) : s.Current := by
  intro program hp
  rw [h] at hp
  contradiction

/-- No program is kept for a text that has none. -/
theorem Current.eq_none {e : FormulaError} (h : s.Current)
    (he : (s.wording.compile : Except FormulaError (Program ν)) = .error e) :
    s.program? = none := by
  cases hp : s.program? with
  | none => rfl
  | some program =>
    rw [h program hp] at he
    contradiction

omit [Arithmetic ν] in
theorem IsNew.program?_eq (h : s.IsNew) : s.program? = none := by
  cases h with
  | empty => rfl
  | ofText h =>
    unfold Source.ofText setText at h
    split at h
    · contradiction
    · cases h
      rfl

/-- The source with the program of its text, if that has one. -/
def compiled (s : Source ν) : Source ν :=
  { s with program? := s.wording.compile.toOption }

theorem current_compiled (s : Source ν) : s.compiled.Current := by
  intro program hp
  have hw : s.compiled.wording = s.wording := rfl
  rw [hw]
  cases hc : (s.wording.compile : Except FormulaError (Program ν)) with
  | ok found =>
    rw [compiled, hc] at hp
    exact congrArg Except.ok (Option.some.inj hp)
  | error e =>
    rw [compiled, hc] at hp
    contradiction

theorem Current.program_eq (h : s.Current) : s.program = (s.wording.compile, s.compiled) := by
  obtain ⟨text, limits, program?⟩ := s
  cases program? with
  | some program =>
    rw [compiled, h program rfl]
    rfl
  | none =>
    have hcompile : (⟨text, limits, none⟩ : Source ν).compile = Wording.compile ⟨text, limits⟩ := rfl
    simp only [program, compiled, wording, hcompile]
    cases (Wording.compile ⟨text, limits⟩ : Except FormulaError (Program ν)) with
    | ok program => rfl
    | error e => rfl

/-- What a command makes of a source. -/
def next (s : Source ν) : Command ν → Source ν
  | .setText text => if text.isEmpty then s else ⟨text, s.limits, none⟩
  | .compile => s
  | .program | .evaluate _ _ => s.compiled

/-- Every answer is that of the wording. -/
theorem Current.perform_eq (h : s.Current) (command : Command ν) :
    s.perform command = ((s.wording.perform command).1, s.next command) := by
  cases command with
  | setText text =>
    simp only [perform, setText, Wording.perform, next]
    by_cases ht : text.isEmpty
    · simp only [ht, if_true]
    · simp only [ht, Bool.false_eq_true, if_false]
  | compile => rfl
  | program =>
    rw [perform, h.program_eq]
    rfl
  | evaluate context registry =>
    simp only [perform, evaluate, h.program_eq, Wording.perform, next]
    cases (s.wording.compile : Except FormulaError (Program ν)) with
    | ok program => rfl
    | error e => rfl

theorem wording_next (s : Source ν) (command : Command ν) :
    (s.next command).wording = (s.wording.perform command).2 := by
  cases command with
  | setText text =>
    simp only [next, Wording.perform]
    by_cases ht : text.isEmpty
    · simp only [ht, if_true]
    · simp only [ht, Bool.false_eq_true, if_false]
      rfl
  | compile | program => rfl
  | evaluate context registry =>
    simp only [next, Wording.perform]
    cases (s.wording.compile : Except FormulaError (Program ν)) with
    | ok program => rfl
    | error e => rfl

theorem Current.next (h : s.Current) (command : Command ν) : (s.next command).Current := by
  cases command with
  | setText text =>
    simp only [Source.next]
    split
    · exact h
    · exact current_of_none rfl
  | compile => exact h
  | program | evaluate => exact s.current_compiled

/-- The two machines stay in step. -/
theorem Current.transcript_eq (h : s.Current) (commands : List (Command ν)) :
    (transcript perform s commands).1 = (transcript Wording.perform s.wording commands).1 ∧
      (transcript perform s commands).2.wording =
        (transcript Wording.perform s.wording commands).2 ∧
      (transcript perform s commands).2.Current := by
  induction commands generalizing s with
  | nil => exact ⟨rfl, rfl, h⟩
  | cons command rest ih =>
    -- What is left to do starts from a source that keeps a current program again.
    obtain ⟨hanswers, hwording, hcurrent⟩ := ih (h.next command)
    rw [s.wording_next] at hanswers hwording
    simp only [transcript, h.perform_eq]
    exact ⟨congrArg _ hanswers, hwording, hcurrent⟩

/-! ### What a command leaves alone -/

theorem next_of_refused {text : String} {e : FormulaError}
    (h : (s.wording.perform (.setText text)).1 = (.changed (.error e) : Answer ν)) :
    s.next (.setText text) = s := by
  by_cases ht : text.isEmpty
  · exact if_pos ht
  · simp [Wording.perform, ht] at h

theorem Current.program?_next {e : FormulaError} {command : Command ν} (h : s.Current)
    (he : (s.wording.compile : Except FormulaError (Program ν)) = .error e)
    (hc : ∀ text, command ≠ .setText text) : (s.next command).program? = none := by
  cases command with
  | setText text => exact absurd rfl (hc text)
  | compile => exact h.eq_none he
  | program | evaluate =>
    rw [Source.next, compiled, he]
    rfl

theorem accepted_of_text_next {command : Command ν} (h : (s.next command).text ≠ s.text) :
    ∃ text, command = .setText text ∧ (s.wording.perform command).1 = .changed (.ok ()) ∧
      s.next command = ⟨text, s.limits, none⟩ := by
  cases command with
  | setText text =>
    by_cases ht : text.isEmpty
    · rw [next, if_pos ht] at h
      contradiction
    · refine ⟨text, rfl, ?_, if_neg ht⟩
      rw [Wording.perform, if_neg ht]
  | compile | program | evaluate => exact absurd rfl h

end Source

/-- From its beginning on a source answers what its wording answers, which compiles anew for
every command. A program that is kept is that of the text. A text that is refused changes
nothing, a text that does not compile has no program kept, and one that does has its program
kept even if it cannot be evaluated. Nothing but a text that is accepted changes the text. -/
theorem transcript_eq_wording {start : Source ν} (h : start.IsNew)
    (commands : List (Command ν)) :
    let s := (transcript Source.perform start commands).2
    let w := (transcript Wording.perform start.wording commands).2
    (transcript Source.perform start commands).1 =
        (transcript Wording.perform start.wording commands).1 ∧
      s.wording = w ∧
      (∀ program, s.program? = some program → w.compile = .ok program) ∧
      ∀ command : Command ν,
        let answer := (s.perform command).1
        let next := (s.perform command).2
        answer = (w.perform command).1 ∧
          (∀ text e, command = .setText text → answer = .changed (.error e) → next = s) ∧
          (∀ e, (w.compile : Except FormulaError (Program ν)) = .error e →
            (∀ text, command ≠ .setText text) → next.program? = none) ∧
          (∀ context registry program, command = .evaluate context registry →
            w.compile = .ok program → next.program? = some program) ∧
          (next.text ≠ s.text → ∃ text, command = .setText text ∧ answer = .changed (.ok ()) ∧
            next = ⟨text, s.limits, none⟩) := by
  intro s w
  obtain ⟨hanswers, hw, hs⟩ :=
    (Source.current_of_none h.program?_eq).transcript_eq commands
  have hwording : s.wording = w := hw
  have hcurrent : s.Current := hs
  refine ⟨hanswers, hwording, fun program hp => hwording ▸ hcurrent program hp, ?_⟩
  intro command answer next
  have hperform := hcurrent.perform_eq command
  have hanswer : answer = (s.wording.perform command).1 := congrArg Prod.fst hperform
  have hnext : next = s.next command := congrArg Prod.snd hperform
  rw [← hwording]
  refine ⟨hanswer, ?_, ?_, ?_, ?_⟩
  · rintro text e rfl he
    rw [hnext]
    exact Source.next_of_refused (hanswer.symm.trans he)
  · intro e he hc
    rw [hnext]
    exact hcurrent.program?_next he hc
  · rintro context registry program rfl hp
    rw [hnext, Source.next, Source.compiled, hp]
    rfl
  · intro ht
    rw [hnext] at ht
    rw [hanswer, hnext]
    exact Source.accepted_of_text_next ht

/-- The first text does not compile, the second one cannot be evaluated, and the third is
refused. -/
theorem transcript_eq_wording_refused :
    let start : Source Float := ⟨"1+", .standard, none⟩
    let s := (transcript Source.perform start [.program, .setText "\"a\"", .setText ""]).2
    start.IsNew ∧ s.wording = ⟨"\"a\"", .standard⟩ ∧
      (s.perform (.evaluate .none .standard)).2.program? = some ⟨[.reference "\"a\""], []⟩ := by
  have hnew : (⟨"1+", .standard, none⟩ : Source Float).IsNew :=
    .ofText (show Source.ofText .standard "1+" = .ok _ from rfl)
  obtain ⟨-, hwording, -, hstep⟩ :=
    transcript_eq_wording hnew [.program, .setText "\"a\"", .setText ""]
  have hcompile : (Wording.compile ⟨"\"a\"", .standard⟩ : Except FormulaError (Program Float)) =
      .ok ⟨[.reference "\"a\""], []⟩ := by
    -- Values need not have a decidable equality, so all but them is compared.
    have hparts : ((Wording.compile ⟨"\"a\"", .standard⟩).toOption.map
        fun program : Program Float =>
          (program.instructions.map Instruction.key?, program.arities)) =
        some ([some "\"a\""], []) := by
      decide +kernel
    cases hprogram : (Wording.compile ⟨"\"a\"", .standard⟩ :
        Except FormulaError (Program Float)) with
    | error =>
      rw [hprogram] at hparts
      contradiction
    | ok program =>
      obtain ⟨instructions, arities⟩ := program
      rw [hprogram] at hparts
      obtain ⟨hkeys, rfl⟩ := Prod.mk.inj (Option.some.inj hparts)
      obtain ⟨instruction, rfl, hkey⟩ := List.map_eq_singleton_iff.mp hkeys
      rw [Instruction.key?_eq_some_iff.mp hkey]
  exact ⟨hnew, hwording, (hstep (.evaluate .none .standard)).2.2.2.1 _ _ _ rfl hcompile⟩

end Scorecard.Formula
