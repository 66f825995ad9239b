import ChartLowering.Number.Binary64

/-!
# The shortest decimal of a double

Of the decimals that read back as a double, one with the fewest digits, and of those the nearest.
-/

namespace ChartLowering

/-- The number `digits * 10 ^ exponent`. -/
structure Decimal where
  digits : Nat
  exponent : Int
  deriving DecidableEq, Repr

namespace Shortest

/-- The decimals that round to a positive double lie between `low / unit` and `high / unit`, the
ends among them if `closed`. The double itself is `middle / unit`. -/
structure Interval where
  low : Nat
  middle : Nat
  high : Nat
  unit : Nat
  closed : Bool

/-- Half way to each neighbour. Below a power of two the neighbour is only half as far. -/
def interval (significand : Nat) (exponent : Int) : Interval :=
  let below := if significand = Nat.pow 2 52 ∧ Binary64.minExponent < exponent then 1 else 2
  let scale := Nat.pow 2 (exponent - 2).toNat
  { low := (4 * significand - below) * scale
    middle := 4 * significand * scale
    high := (4 * significand + 2) * scale
    unit := Nat.pow 2 (2 - exponent).toNat
    closed := significand % 2 = 0 }

namespace Interval

def holds (i : Interval) (d : Decimal) : Bool :=
  let point := d.digits * i.unit * Nat.pow 10 d.exponent.toNat
  let scale := Nat.pow 10 (-d.exponent).toNat
  if i.closed then i.low * scale ≤ point && point ≤ i.high * scale
  else i.low * scale < point && point < i.high * scale

/-- The least `p` with `middle / unit < 10 ^ p`, looked for upwards from below. -/
def pointFrom (i : Interval) : Nat → Int → Int
  | 0, p => p
  | fuel + 1, p =>
      if i.middle * Nat.pow 10 (-p).toNat < i.unit * Nat.pow 10 p.toNat then p
      else i.pointFrom fuel (p + 1)

/-- How many digits stand before the decimal point, negative for zeros after it. -/
def point (i : Interval) : Int :=
  let bits : Int := (Nat.log2 i.middle : Int) - Nat.log2 i.unit
  i.pointFrom 4 (bits * 30103 / 100000 - 1)

/-- The multiples of a power of ten next to the double, the nearer one first. -/
def neighbours (i : Interval) (exponent : Int) : Decimal × Decimal :=
  let num := i.middle * Nat.pow 10 (-exponent).toNat
  let den := i.unit * Nat.pow 10 exponent.toNat
  let below := num / den
  if Binary64.roundHalfEven num den = below then (⟨below, exponent⟩, ⟨below + 1, exponent⟩)
  else (⟨below + 1, exponent⟩, ⟨below, exponent⟩)

/-- The better of the two neighbours that reads back. -/
def onGrid? (i : Interval) (exponent : Int) : Option Decimal :=
  let (nearer, farther) := i.neighbours exponent
  if i.holds nearer then some nearer
  else if i.holds farther then some farther
  else none

end Interval

/-- Trailing zeros go into the exponent. -/
def trim : Nat → Decimal → Decimal
  | 0, d => d
  | fuel + 1, d =>
      if d.digits ≠ 0 ∧ d.digits % 10 = 0 then trim fuel ⟨d.digits / 10, d.exponent + 1⟩ else d

/-- Seventeen digits always suffice. -/
def decimal (significand : Nat) (exponent : Int) : Decimal :=
  let i := interval significand exponent
  let point := i.point
  let found := (List.range 17).findSome? fun (n : Nat) ↦ i.onGrid? (point - (n + 1))
  trim 17 (found.getD (i.neighbours (point - 17)).1)

end Shortest

end ChartLowering
