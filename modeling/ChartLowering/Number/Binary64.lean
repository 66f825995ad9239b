/-!
# Binary floating point, 64 bits

A finite double is a sign, a significand and a power of two. Rounding and comparison are exact
arithmetic on natural numbers and integers.
-/

namespace ChartLowering

/-- A double: `significand * 2 ^ exponent` under a sign, an infinity, or no number at all. -/
inductive Binary64 where
  | nan
  | infinite (negative : Bool)
  | finite (negative : Bool) (significand : Nat) (exponent : Int)
  deriving DecidableEq, Repr, Inhabited

namespace Binary64

/-- The least exponent, that of the subnormal numbers. -/
def minExponent : Int := -1074

/-- The greatest exponent of a finite number. -/
def maxExponent : Int := 971

def zero (negative : Bool) : Binary64 := finite negative 0 minExponent

/-- A quotient to the nearest natural number, a half to the even one. -/
def roundHalfEven (num den : Nat) : Nat :=
  let quotient := num / den
  let doubled := 2 * (num % den)
  if doubled < den then quotient
  else if den < doubled then quotient + 1
  else if quotient % 2 = 0 then quotient else quotient + 1

/-- `num / den` over a power of two, as a fraction of natural numbers. -/
def scaleDown (num den : Nat) (exponent : Int) : Nat × Nat :=
  if 0 ≤ exponent then (num, den * Nat.pow 2 exponent.toNat)
  else (num * Nat.pow 2 (-exponent).toNat, den)

/-- The exponent at which the integral part of `num / den` has 53 bits, or the least one. -/
def exponentOf (num den : Nat) : Int :=
  let guess : Int := (Nat.log2 num : Int) - Nat.log2 den - 52
  let (n, d) := scaleDown num den guess
  max minExponent (if n / d < Nat.pow 2 52 then guess - 1 else guess)

/-- The double nearest to the fraction `num / den`, a tie going to the even significand. -/
def ofFraction (negative : Bool) (num den : Nat) : Binary64 :=
  if num = 0 then zero negative
  else
    let exponent := exponentOf num den
    let (n, d) := scaleDown num den exponent
    let significand := roundHalfEven n d
    let (significand, exponent) :=
      if significand = Nat.pow 2 53 then (Nat.pow 2 52, exponent + 1) else (significand, exponent)
    if maxExponent < exponent then infinite negative else finite negative significand exponent

/-- The double nearest to `digits * 10 ^ exponent`. Far outside the range of a double the power is
not computed. -/
def ofDecimal (negative : Bool) (digits : Nat) (exponent : Int) : Binary64 :=
  if digits = 0 then zero negative
  else
    let magnitude : Int := exponent + (Nat.log2 digits : Int) / 3
    if 400 < exponent then infinite negative
    else if magnitude < -400 then zero negative
    else if 0 ≤ exponent then ofFraction negative (digits * Nat.pow 10 exponent.toNat) 1
    else ofFraction negative digits (Nat.pow 10 (-exponent).toNat)

/-- The nearest double, or nothing beyond the finite ones. -/
def ofInt? (i : Int) : Option Binary64 :=
  match ofFraction (decide (i < 0)) i.natAbs 1 with
  | infinite _ => none
  | x => some x

def isFinite : Binary64 → Bool
  | finite _ _ _ => true
  | _ => false

def toFraction? : Binary64 → Option (Int × Nat)
  | finite negative significand exponent =>
      let magnitude : Int × Nat :=
        if 0 ≤ exponent then (significand * Nat.pow 2 exponent.toNat, 1)
        else (significand, Nat.pow 2 (-exponent).toNat)
      some (if negative then -magnitude.1 else magnitude.1, magnitude.2)
  | _ => none

/-- The integer that a double is, if it is one. -/
def toInt? (x : Binary64) : Option Int :=
  match x.toFraction? with
  | some (n, d) => if n % d = 0 then some (n / d) else none
  | none => none

def isZero : Binary64 → Bool
  | finite _ 0 _ => true
  | _ => false

def negate : Binary64 → Binary64
  | nan => nan
  | infinite negative => infinite !negative
  | finite negative significand exponent => finite (!negative) significand exponent

/-- The order of two doubles, or nothing if one of them is no number. -/
def compare? : Binary64 → Binary64 → Option Ordering
  | nan, _ => none
  | _, nan => none
  | infinite a, infinite b => some (compare b a)
  | infinite a, _ => some (if a then .lt else .gt)
  | _, infinite b => some (if b then .gt else .lt)
  | x, y =>
      match x.toFraction?, y.toFraction? with
      | some (a, b), some (c, d) => some (compare (a * d) (c * b))
      | _, _ => none

/-- The order of a double and an integer, exact for integers of any size. -/
def compareInt? : Binary64 → Int → Option Ordering
  | nan, _ => none
  | infinite negative, _ => some (if negative then .lt else .gt)
  | x, i => x.toFraction?.map fun (n, d) ↦ compare n (i * d)

def oneMinus : Binary64 → Binary64
  | nan => nan
  | infinite negative => infinite !negative
  | x =>
      match x.toFraction? with
      | some (n, d) => let rest : Int := d - n; ofFraction (decide (rest < 0)) rest.natAbs d
      | none => nan

end Binary64

end ChartLowering
