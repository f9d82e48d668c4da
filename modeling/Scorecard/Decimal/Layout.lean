import Scorecard.Decimal.Shortest

/-! Decimal text of floating-point numbers. The digits are always the shortest
that read back; a layout says how they are written. -/
namespace Scorecard.Decimal

/-- How digits become text. -/
structure Layout where
  /-- The powers of the leading digit that are written without an exponent;
  all of them when no bounds are given. -/
  positional : Option (Int × Int)
  /-- What a whole number written without an exponent ends in. -/
  wholeEnding : String
  tie : Tie

/-- Plain positional text: never an exponent, no point in a whole number. -/
def Layout.plain : Layout := ⟨none, "", .up⟩

/-- The form used in data files: a point in every positional number, an
exponent from `10 ^ 16` up and below `10 ^ -5`. -/
def Layout.data : Layout := ⟨some (-5, 15), ".0", .even⟩

def zeros (n : Nat) : String := String.ofList (List.replicate n '0')

/-- Positional text of `digits * 10 ^ exponent`. -/
def positionalText (wholeEnding : String) (d : Digits) : String :=
  let text := toString d.digits
  let point : Int := text.length + d.exponent
  if 0 ≤ d.exponent then text ++ zeros d.exponent.toNat ++ wholeEnding
  else if 0 < point then
    String.ofList (text.toList.take point.toNat) ++ "." ++
      String.ofList (text.toList.drop point.toNat)
  else "0." ++ zeros (-point).toNat ++ text

/-- One digit before the point, the rest behind it, and a signed exponent. -/
def exponentText (d : Digits) : String :=
  match (toString d.digits).toList with
  | [] => ""
  | first :: rest =>
    let power : Int := rest.length + d.exponent
    let fraction := if rest.isEmpty then "" else "." ++ String.ofList rest
    let sign := if 0 ≤ power then "+" else "-"
    String.ofList [first] ++ fraction ++ "e" ++ sign ++ toString power.natAbs

def Layout.write (l : Layout) (d : Digits) : String :=
  let power : Int := (toString d.digits).length + d.exponent - 1
  match l.positional with
  | none => positionalText l.wholeEnding d
  | some (low, high) =>
    if low ≤ power ∧ power ≤ high then positionalText l.wholeEnding d else exponentText d

example : Layout.plain.write ⟨15, 20⟩ = "1500000000000000000000" := by cbv
example : Layout.plain.write ⟨15, -8⟩ = "0.00000015" := by cbv
example : Layout.data.write ⟨5, 2⟩ = "500.0" := by cbv
example : Layout.data.write ⟨1, 16⟩ = "1e+16" := by cbv
example : Layout.data.write ⟨15, -7⟩ = "1.5e-6" := by cbv

/-- The text of a finite number under a layout. -/
def Layout.render (l : Layout) (x : Float) : String :=
  let b := Binary.ofFloat x
  let sign := if b.negative then "-" else ""
  if b.mantissa == 0 then sign ++ "0" ++ l.wholeEnding
  else sign ++ l.write (shortest l.tie b)

/-- The plain text of any number; what is not a number has no sign. -/
def plainText (x : Float) : String :=
  if x.isNaN then "NaN"
  else if x.isFinite then Layout.plain.render x
  else if x < 0 then "-inf"
  else "inf"

end Scorecard.Decimal
