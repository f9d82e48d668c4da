import Scorecard.Formula.Function
import Scorecard.Proofs.Text.ByteOrder

/-! Registrations one after another. Names that have one upper case form are one name, for
looking up as well as for listing. What was registered last under it is found, and what was
known before stays as it was under every other name. -/
namespace Scorecard.Formula

variable {ν : Type}

namespace Registry

/-- The registry after further registrations, in the order made. -/
def registerAll (r : Registry ν) (registrations : List (String × Function ν)) : Registry ν :=
  registrations.foldl (fun r (name, f) => r.register name f) r

/-! ### What is found -/

theorem get?_registerAll (r : Registry ν) (registrations : List (String × Function ν))
    (name : String) :
    (r.registerAll registrations).get? name =
      ((registrations.reverse.find? fun (other, _) =>
        Text.uppercase other = Text.uppercase name).map Prod.snd).or (r.get? name) := by
  induction registrations generalizing r with
  | nil => rfl
  | cons first rest ih =>
    obtain ⟨other, f⟩ := first
    have hstep : r.registerAll ((other, f) :: rest) = (r.register other f).registerAll rest := rfl
    rw [hstep, ih, get?_register, List.reverse_cons, List.find?_append, Option.map_or,
      Option.or_assoc]
    congr 1
    by_cases h : Text.uppercase other = Text.uppercase name <;> simp [h]

/-- A lookup does not care for the spelling of a name, only for its upper case form. -/
theorem contains_iff (r : Registry ν) (name : String) :
    r.contains name ↔ Text.uppercase name ∈ r.names := by
  rw [names, Std.TreeMap.mem_keys, contains, get?, Std.TreeMap.get?_eq_getElem?,
    Std.TreeMap.isSome_getElem?_eq_contains, Std.TreeMap.contains_iff_mem]

/-! ### What is listed -/

theorem mem_names_register {r : Registry ν} {name key : String} {f : Function ν} :
    key ∈ (r.register name f).names ↔ key ∈ r.names ∨ Text.uppercase name = key := by
  simp only [names, register, Std.TreeMap.mem_keys, Std.TreeMap.mem_insert,
    Std.LawfulEqOrd.compare_eq_iff_eq]
  exact or_comm

theorem mem_names_registerAll {r : Registry ν} {registrations : List (String × Function ν)}
    {key : String} : key ∈ (r.registerAll registrations).names ↔
      key ∈ r.names ∨ ∃ entry ∈ registrations, Text.uppercase entry.1 = key := by
  induction registrations generalizing r with
  | nil => simp [registerAll]
  | cons first rest ih =>
    have hstep : r.registerAll (first :: rest) =
        (r.register first.1 first.2).registerAll rest := rfl
    rw [hstep, ih, mem_names_register, or_assoc]
    simp

/-- The order of names is the order of their bytes. -/
theorem names_ordered (r : Registry ν) :
    r.names.Pairwise fun first later => Text.bytes first < Text.bytes later :=
  r.entries.ordered_keys.imp fun h => Text.bytes_lt (Text.compare_eq_lt_iff.mp h)

/-- After any registrations a name has the definition that was registered last under its upper
case form, or else the one it had in the beginning. The listing has each of these forms once, in
the order of their bytes, and a further registration touches no other name. A function of a
fixed number of arguments is run on just as many, and reports both numbers otherwise. -/
theorem registerAll_keeps_last (base : Registry ν) (registrations : List (String × Function ν)) :
    let r := base.registerAll registrations
    (∀ name, r.get? name =
      ((registrations.reverse.find? fun (other, _) =>
        Text.uppercase other = Text.uppercase name).map Prod.snd).or (base.get? name)) ∧
    (∀ name, r.contains name ↔
      (∃ entry ∈ registrations, Text.uppercase entry.1 = Text.uppercase name) ∨
        base.contains name) ∧
    (∀ name f other, Text.uppercase other ≠ Text.uppercase name →
      (r.register name f).get? other = r.get? other) ∧
    r.names.Pairwise (fun first later => Text.bytes first < Text.bytes later) ∧
    (∀ key, key ∈ r.names ↔
      key ∈ base.names ∨ ∃ entry ∈ registrations, Text.uppercase entry.1 = key) ∧
    (∀ name, Text.uppercase name ∈ r.names ↔ r.contains name) ∧
    ∀ (count : Nat) (run : List ν → Except EvaluationError ν) (name : String) (arguments : List ν),
      Function.call ⟨.fixed count, run⟩ name arguments =
        if arguments.length = count then run arguments
        else .error (.argumentCount name count arguments.length) := by
  intro r
  refine ⟨get?_registerAll base registrations, ?_, ?_, r.names_ordered,
    fun _ => mem_names_registerAll, fun name => (r.contains_iff name).symm, fun _ _ _ _ => rfl⟩
  · intro name
    rw [contains_iff, contains_iff, mem_names_registerAll, or_comm]
  · intro name f other hne
    rw [get?_register, if_neg hne.symm]

/-- Two spellings that come to the same capitals are one name. -/
example (r : Registry Float) (f : Function Float) :
    (r.register "straße" f).get? "Strasse" = some f := by
  have hkey : Text.uppercase "straße" = Text.uppercase "Strasse" := by decide +kernel
  rw [get?_register, if_pos hkey]

end Registry

end Scorecard.Formula
