import ChartLowering.Fault
import ChartLowering.Value.Record

/-!
# Names in lower case with hyphens

The values of an enumeration are such names.
-/

namespace ChartLowering.Kebab

def isSmall (c : Char) : Bool := ('a' ≤ c && c ≤ 'z') || ('0' ≤ c && c ≤ '9')

/-- Words of small letters and digits with single hyphens between them. `inWord` says whether a
word has begun. One line break may follow at the very end. -/
def matchFrom : Bool → List Char → Bool
  | inWord, [] => inWord
  | inWord, ['\n'] => inWord
  | inWord, c :: cs =>
      if isSmall c then matchFrom true cs else c == '-' && inWord && matchFrom false cs

def isKebab (s : String) : Bool := matchFrom false s.toList

/-- How many low lines a text begins with. -/
def lowLines (cs : List Char) : Nat := (cs.takeWhile (· == '_')).length

/-- Is a name between as many low lines on either side, and no more? -/
def isBetween (count : Nat) (name : String) : Bool :=
  let cs := name.toList
  lowLines cs == count && lowLines cs.reverse == count && 2 * count < cs.length

/-- Can no member of an enumeration have this name? -/
def isRefused (name : String) : Bool := name == "" || name == "mro" || isBetween 1 name

/-- Are all values of an enumeration names in lower case? What stands between double low lines
belongs to the enumeration itself and is no member. -/
def checkValues (members : Record Value) : Except Fault Unit := do
  if members.any fun m ↦ isRefused m.1 then throw .badContent
  for m in members.filter fun m ↦ !isBetween 2 m.1 do
    match m.2 with
    | .text s => if !isKebab s then throw .assertion
    | v => if v.truthy then throw .wrongKind else throw .assertion

end ChartLowering.Kebab
