/-! Control characters and control sequences inside text. A terminal acts on them
and shows the rest; `visible` is that rest, for text that goes anywhere else. A
sequence begins with an escape character and runs to a final character of its
kind; an escape character inside it begins the next one, and a cancel or
substitute character gives it up. -/
namespace Scorecard.Text

/-- Where a reader stands. -/
inductive Control where
  /-- In plain text. -/
  | plain
  /-- Behind an escape character. -/
  | escape
  /-- Behind an escape character and the intermediate characters of its sequence. -/
  | intermediate
  /-- In a control sequence, in front of its final character. -/
  | sequence
  /-- At the head of a device control string. -/
  | device
  /-- In the parameters of a device control string. -/
  | deviceParameter
  /-- In the intermediate characters of a device control string. -/
  | deviceIntermediate
  /-- In the body of a string, which a string terminator ends. -/
  | body
  /-- In an operating system command, which a bell ends. -/
  | command
  deriving DecidableEq, Repr

/-- A character from `first` to `last`. -/
def isWithin (first last c : Char) : Bool :=
  first ≤ c && c ≤ last

/-- The byte of the string terminator occurs in the UTF-8 form. -/
def terminatesString (c : Char) : Bool :=
  (String.utf8EncodeChar c).contains 0x9C

/-- The control characters that are shown: tab, line feed, form feed and carriage return. -/
def isLayout (c : Char) : Bool :=
  c == '\t' || c == '\n' || c == '\x0c' || c == '\r'

namespace Control

/-- Where the reader stands behind a character that is not shown. -/
def next (state : Control) (c : Char) : Control :=
  if c == '\x1b' then escape
  else if c == '\x18' || c == '\x1a' then plain
  else match state with
    | plain => plain
    | escape =>
      if c == '[' then sequence
      else if c == ']' then command
      else if c == 'P' then device
      else if c == 'X' || c == '^' || c == '_' then body
      else if isWithin ' ' '/' c then intermediate
      else if isWithin '0' '~' c then plain
      else escape
    | intermediate => if isWithin '0' '~' c then plain else intermediate
    | sequence => if isWithin '@' '~' c then plain else sequence
    | device =>
      if isWithin ' ' '/' c then deviceIntermediate
      else if isWithin '0' '?' c then deviceParameter
      else if isWithin '@' '~' c then body
      else device
    | deviceParameter =>
      if isWithin ' ' '/' c then deviceIntermediate
      else if isWithin '<' '~' c then body
      else deviceParameter
    | deviceIntermediate => if isWithin '0' '~' c then body else deviceIntermediate
    | body => if terminatesString c then plain else body
    | command => if c == '\x07' then plain else command

/-- Plain text is shown but for its control characters. Layout is shown inside a
sequence too, unless the sequence carries a string. -/
def shows (state : Control) (c : Char) : Bool :=
  match state with
  | plain => isLayout c || (' ' ≤ c && c != '\x7f')
  | escape | intermediate | sequence => isLayout c
  | device | deviceParameter | deviceIntermediate | body | command => false

/-- What is shown of a text. While characters are shown (`showing`) they are read
as plain text, so behind layout inside a sequence the text is plain; the sequence
goes on at the next control character, unless a character beyond ASCII came first. -/
def shown (state : Control) (showing : Bool) : List Char → List Char
  | [] => []
  | c :: rest =>
    if (if showing then plain else state).shows c then
      c :: shown (if c.toNat < 128 then state else plain) true rest
    else shown (state.next c) false rest

theorem shown_plain (showing : Bool) (text : List Char) (h : ∀ c ∈ text, plain.shows c = true) :
    shown plain showing text = text := by
  induction text generalizing showing with
  | nil => rfl
  | cons c rest ih =>
    have hrest := ih true fun d hd => h d (List.mem_cons_of_mem c hd)
    simp [shown, h c List.mem_cons_self, hrest]

end Control

/-- The text without control characters and control sequences. -/
def visible (text : String) : String :=
  String.ofList (Control.shown .plain false text.toList)

example : visible "a\x1b[1;31mred\x1b[0m\x7f" = "ared" := by cbv
example : visible "\x1b]0;title\x07z" = "z" := by cbv

end Scorecard.Text
