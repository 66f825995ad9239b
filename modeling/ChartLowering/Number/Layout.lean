import ChartLowering.Number.Shortest

/-!
# Numbers as text

Integers are written in full. A double is written with its shortest digits, positionally while the
decimal point stands within sixteen digits of the first one, and with an exponent otherwise.
-/

namespace ChartLowering

/-- How many digits stand before the decimal point of a decimal. -/
def Decimal.point (d : Decimal) : Int := (toString d.digits).length + d.exponent

/-- Digits with the point among them. A whole number ends in `.0`. -/
def Decimal.positional (d : Decimal) : String :=
  let digits := toString d.digits
  if 0 ≤ d.exponent then digits ++ String.ofList (List.replicate d.exponent.toNat '0') ++ ".0"
  else if d.point ≤ 0 then
    "0." ++ String.ofList (List.replicate (-d.point).toNat '0') ++ digits
  else
    String.ofList (digits.toList.take d.point.toNat) ++ "." ++
      String.ofList (digits.toList.drop d.point.toNat)

/-- An exponent with its sign and at least two digits. -/
def exponentText (e : Int) : String :=
  let digits := toString e.natAbs
  (if e < 0 then "-" else "+") ++ (if digits.length < 2 then "0" ++ digits else digits)

/-- One digit before the point, the others after it, then the power of ten. -/
def Decimal.scientific (d : Decimal) : String :=
  let digits := (toString d.digits).toList
  let fraction := if digits.length ≤ 1 then "" else "." ++ String.ofList (digits.drop 1)
  String.ofList (digits.take 1) ++ fraction ++ "e" ++ exponentText (d.point - 1)

def Decimal.text (d : Decimal) : String :=
  if -4 < d.point ∧ d.point ≤ 16 then d.positional else d.scientific

namespace Binary64

def signText (negative : Bool) : String := if negative then "-" else ""

/-- The text that tells a double from all others, in lower case where it is no number. -/
def text : Binary64 → String
  | nan => "nan"
  | infinite negative => signText negative ++ "inf"
  | finite negative 0 _ => signText negative ++ "0.0"
  | finite negative significand exponent =>
      signText negative ++ (Shortest.decimal significand exponent).text

end Binary64

end ChartLowering
