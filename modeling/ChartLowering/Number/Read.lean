import ChartLowering.Number.Binary64
import ChartLowering.Text.Basic

/-!
# Reading doubles

Decimal digits with a point anywhere among or beside them and an exponent, or one of the names of
the values that are not finite, in any case.
-/

namespace ChartLowering.Binary64

def valueOf (digits : List Char) : Nat :=
  digits.foldl (fun n c ↦ 10 * n + (c.toNat - '0'.toNat)) 0

/-- An exponent up to the very end, zero if there is nothing. -/
def exponentOf? : List Char → Option Int
  | [] => some 0
  | c :: rest =>
      if c = 'e' ∨ c = 'E' then
        let (negative, digits) : Bool × List Char :=
          match rest with
          | '-' :: digits => (true, digits)
          | '+' :: digits => (false, digits)
          | digits => (false, digits)
        if digits ≠ [] ∧ digits.all Char.isDigit then
          some (if negative then -(valueOf digits : Int) else valueOf digits)
        else none
      else none

/-- A number without its sign. -/
def ofUnsigned? (negative : Bool) (cs : List Char) : Option Binary64 :=
  let name := String.ofList (cs.map Char.toLower)
  if name = "inf" ∨ name = "infinity" then some (infinite negative)
  else if name = "nan" then some nan
  else
    let whole := cs.takeWhile Char.isDigit
    let (fraction, rest) : List Char × List Char :=
      match cs.dropWhile Char.isDigit with
      | '.' :: rest => (rest.takeWhile Char.isDigit, rest.dropWhile Char.isDigit)
      | rest => ([], rest)
    if whole ++ fraction = [] then none
    else (exponentOf? rest).map fun e ↦
      ofDecimal negative (valueOf (whole ++ fraction)) (e - fraction.length)

/-- A number with nothing around it. -/
def ofChars? : List Char → Option Binary64
  | '-' :: cs => ofUnsigned? true cs
  | '+' :: cs => ofUnsigned? false cs
  | cs => ofUnsigned? false cs

/-- Low lines that stand between two digits are left out. Any other one makes the text invalid. -/
def dropLowLines? (previous : Char) : List Char → Option (List Char)
  | [] => some []
  | '_' :: rest =>
      if previous.isDigit && (rest.head?.map Char.isDigit).getD false then dropLowLines? '_' rest
      else none
  | c :: rest => (dropLowLines? c rest).map (c :: ·)

/-- A digit of any script as the one of ours. -/
def plainDigit (c : Char) : Char :=
  match Text.digitValue? c with
  | some d => Char.ofNat ('0'.toNat + d)
  | none => c

/-- A number in digits of any script, with low lines between them and blanks around the whole. -/
def ofText? (s : String) : Option Binary64 :=
  match dropLowLines? ' ' ((Text.trimOf Text.isMargin s.toList).map plainDigit) with
  | some cs => ofChars? cs
  | none => none

end ChartLowering.Binary64
