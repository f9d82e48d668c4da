import Scorecard.Json.Value

/-! Records in JSON. A record is an object with known field names, or an array of
the values in the order of the names. An object may have other fields, which are
not looked at, but no known field twice; an array may stop early but not go on. -/
namespace Scorecard.Json

/-- The values of the fields named `name`; `none` if some field has no sound name. -/
def fieldsNamed? (name : String) : List (Option String × Json) → Option (List Json)
  | [] => some []
  | (none, _) :: _ => none
  | (some found, value) :: rest =>
    (fieldsNamed? name rest).map fun values => if found = name then value :: values else values

/-- The value of each named field, in the order of the names. -/
def record? (names : List String) : Json → Option (List (Option Json))
  | object fields =>
    names.mapM fun name =>
      match fieldsNamed? name fields with
      | some [] => some none
      | some [value] => some (some value)
      | _ => none
  | array items =>
    if items.length ≤ names.length then
      some ((List.range names.length).map fun index => items[index]?)
    else none
  | _ => none

/-- A field that has to be there. -/
def required? {α : Type} (read : Json → Option α) (field : Option Json) : Option α :=
  field.bind read

/-- A field that may be missing or null. -/
def optional? {α : Type} (read : Json → Option α) : Option Json → Option (Option α)
  | none | some null => some none
  | some value => (read value).map some

/-- A word of a fixed set, as a string or as the only field of an object with null. -/
def word? : Json → Option String
  | string text => text
  | object [(name, null)] => name
  | _ => none

end Scorecard.Json
