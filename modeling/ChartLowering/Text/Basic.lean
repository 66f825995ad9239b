/-!
# Characters and texts

Classes of characters are given as ranges of code points. Blanks and digits are those of all
scripts; hexadecimal digits are plain ones. Texts are searched and folded as lists of characters.
-/

namespace ChartLowering

/-- Inclusive ranges of code points. -/
abbrev CodeRanges := List (Nat × Nat)

namespace CodeRanges

def contains (ranges : CodeRanges) (c : Char) : Bool :=
  ranges.any fun (first, last) ↦ first ≤ c.toNat && c.toNat ≤ last

end CodeRanges

namespace Text

/-! ## Blanks -/

/-- The separators, with the control characters that separate lines, files and records. -/
def blankRanges : CodeRanges :=
  [(9, 13), (28, 32), (133, 133), (160, 160), (5760, 5760), (8192, 8202),
   (8232, 8233), (8239, 8239), (8287, 8287), (12288, 12288)]

def isBlank (c : Char) : Bool := blankRanges.contains c

/-- A blank that may stand around a number: any but the separators of files and records. -/
def isMargin (c : Char) : Bool := isBlank c && !(0x1c ≤ c.toNat && c.toNat ≤ 0x1f)

/-- Characters without those of one kind at their two ends. -/
def trimOf (isOuter : Char → Bool) (cs : List Char) : List Char :=
  ((cs.dropWhile isOuter).reverse.dropWhile isOuter).reverse

/-- A text without the blanks at its two ends. -/
def trimBlank (s : String) : String := String.ofList (trimOf isBlank s.toList)

/-! ## Digits -/

/-- Each script with decimal digits has them in a row of ten, from zero on. -/
def digitRanges : CodeRanges :=
  [(48, 57), (1632, 1641), (1776, 1785), (1984, 1993), (2406, 2415),
   (2534, 2543), (2662, 2671), (2790, 2799), (2918, 2927), (3046, 3055),
   (3174, 3183), (3302, 3311), (3430, 3439), (3558, 3567), (3664, 3673),
   (3792, 3801), (3872, 3881), (4160, 4169), (4240, 4249), (6112, 6121),
   (6160, 6169), (6470, 6479), (6608, 6617), (6784, 6793), (6800, 6809),
   (6992, 7001), (7088, 7097), (7232, 7241), (7248, 7257), (42528, 42537),
   (43216, 43225), (43264, 43273), (43472, 43481), (43504, 43513), (43600, 43609),
   (44016, 44025), (65296, 65305), (66720, 66729), (68912, 68921), (69734, 69743),
   (69872, 69881), (69942, 69951), (70096, 70105), (70384, 70393), (70736, 70745),
   (70864, 70873), (71248, 71257), (71360, 71369), (71472, 71481), (71904, 71913),
   (72016, 72025), (72784, 72793), (73040, 73049), (73120, 73129), (92768, 92777),
   (92864, 92873), (93008, 93017), (120782, 120831), (123200, 123209), (123632, 123641),
   (125264, 125273), (130032, 130041)]

/-- The value of a decimal digit of any script. -/
def digitValue? (c : Char) : Option Nat :=
  (digitRanges.find? fun (first, last) ↦ first ≤ c.toNat && c.toNat ≤ last).map
    fun (first, _) ↦ (c.toNat - first) % 10

/-- A number in lower case hexadecimal digits, at least `width` of them. -/
def hex (width n : Nat) : List Char :=
  let digits := Nat.toDigits 16 n
  List.replicate (width - digits.length) '0' ++ digits

/-- The value of a hexadecimal digit. -/
def hexValue? (c : Char) : Option Nat :=
  if '0' ≤ c ∧ c ≤ '9' then some (c.toNat - '0'.toNat)
  else if 'a' ≤ c ∧ c ≤ 'f' then some (c.toNat - 'a'.toNat + 10)
  else if 'A' ≤ c ∧ c ≤ 'F' then some (c.toNat - 'A'.toNat + 10)
  else none

/-! ## Searching and folding -/

/-- Where a part first occurs. The empty part occurs at the start. -/
def indexOf? (part : List Char) : List Char → Option Nat
  | [] => if part.isEmpty then some 0 else none
  | c :: cs => if part.isPrefixOf (c :: cs) then some 0 else (indexOf? part cs).map (· + 1)

def occurs (part text : String) : Bool := (indexOf? part.toList text.toList).isSome

/-- A text with the capital letters from A to Z in lower case. -/
def lower (text : String) : String := String.ofList (text.toList.map Char.toLower)

/-- The pieces between the occurrences of a character. -/
def splitAt (separator : Char) : List Char → List (List Char)
  | [] => [[]]
  | c :: cs =>
      if c = separator then [] :: splitAt separator cs
      else
        match splitAt separator cs with
        | piece :: rest => (c :: piece) :: rest
        | [] => [[c]]

end Text

end ChartLowering
