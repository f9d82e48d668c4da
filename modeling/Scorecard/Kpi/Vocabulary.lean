import Scorecard.Calendar.Frequency
import Scorecard.Text.Blank

/-! Vocabularies: fixed sets of entries, each stored as a code and spoken of by a
lower-case word. A word is recognised in any mixture of cases and with blanks
around it. -/
namespace Scorecard.Kpi

open Calendar (Frequency)

structure Vocabulary (α : Type) where
  /-- What the entries are, for messages. -/
  title : String
  /-- All entries in the order of their codes. -/
  entries : List α
  code : α → Int
  word : α → String

inductive VocabularyError where
  | unknownCode (title : String) (code : Int)
  | unknownWord (title text : String)
  deriving DecidableEq, Repr

def VocabularyError.message : VocabularyError → String
  | unknownCode title code => s!"Unknown {title} code: {code}"
  | unknownWord title text => s!"Unknown {title}: '{text}'"

/-- Lower case of the letters A to Z. -/
def lowercase (text : String) : String :=
  String.ofList (text.toList.map Char.toLower)

namespace Vocabulary

variable {α : Type} (v : Vocabulary α)

def ofCode? (code : Int) : Option α :=
  v.entries.find? (v.code · == code)

def ofWord? (text : String) : Option α :=
  v.entries.find? (v.word · == lowercase (Text.trim text))

def ofCode (code : Int) : Except VocabularyError α :=
  match v.ofCode? code with
  | some entry => .ok entry
  | none => .error (.unknownCode v.title code)

def ofWord (text : String) : Except VocabularyError α :=
  match v.ofWord? text with
  | some entry => .ok entry
  | none => .error (.unknownWord v.title text)

/-- The entry that a data file names; data files write words exactly. -/
def ofExactWord? (word : String) : Option α :=
  v.entries.find? (v.word · == word)

end Vocabulary

/-- How the raw values of a bucket become one value. -/
inductive Reduction where
  | mean
  /-- The mean weighted by the weight of each value. -/
  | weighted
  | sum
  | min
  | max
  /-- No raw values: a formula over other series. -/
  | formula
  deriving DecidableEq, Repr

inductive TargetKind where
  | constant
  /-- The value of another series. -/
  | kpi
  deriving DecidableEq, Repr

inductive MarginKind where
  | constant
  /-- The value of another series. -/
  | kpi
  /-- A percentage of the target. -/
  | percentage
  deriving DecidableEq, Repr

/-- The direction in which values improve. -/
inductive Trend where
  | up
  | down
  deriving DecidableEq, Repr

def frequencies : Vocabulary Frequency where
  title := "frequency type"
  entries := [.year, .semester, .month, .week, .day, .hour, .minute, .second]
  code
    | .year => 0 | .semester => 1 | .month => 2 | .week => 3
    | .day => 4 | .hour => 5 | .minute => 6 | .second => 7
  word
    | .year => "year" | .semester => "semester" | .month => "month" | .week => "week"
    | .day => "day" | .hour => "hour" | .minute => "minute" | .second => "seconds"

def reductions : Vocabulary Reduction where
  title := "consolidation type"
  entries := [.mean, .weighted, .sum, .min, .max, .formula]
  code
    | .mean => 1 | .weighted => 2 | .sum => 3 | .min => 4 | .max => 5 | .formula => 6
  word
    | .mean => "mean" | .weighted => "weighted" | .sum => "sum" | .min => "min" | .max => "max"
    | .formula => "formula"

def targetKinds : Vocabulary TargetKind where
  title := "target type"
  entries := [.constant, .kpi]
  code
    | .constant => 0 | .kpi => 1
  word
    | .constant => "constant" | .kpi => "kpi"

def marginKinds : Vocabulary MarginKind where
  title := "target margin type"
  entries := [.constant, .kpi, .percentage]
  code
    | .constant => 0 | .kpi => 1 | .percentage => 2
  word
    | .constant => "constant" | .kpi => "kpi" | .percentage => "percentage"

def trends : Vocabulary Trend where
  title := "trend type"
  entries := [.up, .down]
  code
    | .up => 0 | .down => 1
  word
    | .up => "up" | .down => "down"

theorem frequencies_ofCode? (f : Frequency) :
    frequencies.ofCode? (frequencies.code f) = some f := by
  cases f <;> rfl

theorem reductions_ofCode? (r : Reduction) : reductions.ofCode? (reductions.code r) = some r := by
  cases r <;> rfl

end Scorecard.Kpi
