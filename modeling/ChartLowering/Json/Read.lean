import ChartLowering.Text.Basic
import ChartLowering.Value.Basic

/-!
# Reading JSON

A reader that keeps the order of members and tells integers from other numbers. Each reader gives
what it found and the characters after it.
-/

namespace ChartLowering.Json

def skipBlank (cs : List Char) : List Char :=
  cs.dropWhile fun c ↦ c == ' ' || c == '\t' || c == '\n' || c == '\r'

/-- The code unit that four hexadecimal digits stand for. -/
def codeUnit? (a b c d : Char) : Option Nat := do
  let a ← Text.hexValue? a
  let b ← Text.hexValue? b
  let c ← Text.hexValue? c
  let d ← Text.hexValue? d
  pure (((a * 16 + b) * 16 + c) * 16 + d)

/-- The character of an escape with one letter. -/
def escaped? : Char → Option Char
  | '"' => some '"'
  | '\\' => some '\\'
  | '/' => some '/'
  | 'b' => some '\x08'
  | 'f' => some '\x0c'
  | 'n' => some '\n'
  | 'r' => some '\r'
  | 't' => some '\t'
  | _ => none

/-- A character in front of what was read, if there is one. -/
def push (c : Char) : Option (List Char × List Char) → Option (List Char × List Char)
  | some (text, rest) => some (c :: text, rest)
  | none => none

/-- The rest of a string literal, after its opening quote. -/
def readString : List Char → Option (List Char × List Char)
  | [] => none
  | '"' :: rest => some ([], rest)
  | '\\' :: 'u' :: a :: b :: c :: d :: rest =>
      match codeUnit? a b c d with
      | none => none
      | some high =>
          if 0xD800 ≤ high ∧ high < 0xDC00 then
            match rest with
            | '\\' :: 'u' :: a :: b :: c :: d :: rest =>
                match codeUnit? a b c d with
                | none => none
                | some low =>
                    push (Char.ofNat (0x10000 + (high - 0xD800) * 0x400 + (low - 0xDC00)))
                      (readString rest)
            | _ => none
          else push (Char.ofNat high) (readString rest)
  | '\\' :: c :: rest =>
      match escaped? c with
      | none => none
      | some c => push c (readString rest)
  | c :: rest => if c.toNat < 0x20 then none else push c (readString rest)

def natOf (digits : List Char) : Nat :=
  digits.foldl (fun n c ↦ 10 * n + (c.toNat - '0'.toNat)) 0

def readDigits (cs : List Char) : List Char × List Char :=
  (cs.takeWhile Char.isDigit, cs.dropWhile Char.isDigit)

/-- The digits after a decimal point, none if there is no point. -/
def readFraction : List Char → Option (List Char × List Char)
  | '.' :: rest =>
      match readDigits rest with
      | ([], _) => none
      | found => some found
  | rest => some ([], rest)

/-- The exponent of a number, nothing if there is none. -/
def readExponent : List Char → Option (Option Int × List Char)
  | c :: rest =>
      if c = 'e' ∨ c = 'E' then
        let (negative, rest) : Bool × List Char :=
          match rest with
          | '-' :: rest => (true, rest)
          | '+' :: rest => (false, rest)
          | rest => (false, rest)
        match readDigits rest with
        | ([], _) => none
        | (digits, rest) =>
            some (some (if negative then -(natOf digits : Int) else natOf digits), rest)
      else some (none, c :: rest)
  | [] => some (none, [])

/-- A number without its sign. -/
def readMagnitude (negative : Bool) (cs : List Char) : Option (Value × List Char) :=
  let (whole, rest) := readDigits cs
  if whole = [] ∨ (whole.head? = some '0' ∧ 1 < whole.length) then none
  else
    match readFraction rest with
    | none => none
    | some (fraction, rest') =>
        match readExponent rest' with
        | none => none
        | some (exponent, rest'') =>
            if fraction = [] ∧ exponent = none then
              some (.int (if negative then -(natOf whole : Int) else natOf whole), rest)
            else
              some (.float (Binary64.ofDecimal negative (natOf (whole ++ fraction))
                (exponent.getD 0 - fraction.length)), rest'')

def readNumber : List Char → Option (Value × List Char)
  | '-' :: rest => readMagnitude true rest
  | rest => readMagnitude false rest

mutual

/-- A value, within a bound on its depth and length. -/
def readValue : Nat → List Char → Option (Value × List Char)
  | 0, _ => none
  | fuel + 1, cs =>
      match skipBlank cs with
      | 'n' :: 'u' :: 'l' :: 'l' :: rest => some (.null, rest)
      | 't' :: 'r' :: 'u' :: 'e' :: rest => some (.bool true, rest)
      | 'f' :: 'a' :: 'l' :: 's' :: 'e' :: rest => some (.bool false, rest)
      | '"' :: rest => (readString rest).map fun (text, rest) ↦ (.text (String.ofList text), rest)
      | '[' :: rest =>
          match skipBlank rest with
          | ']' :: rest => some (.list [], rest)
          | rest => (readItems fuel rest).map fun (items, rest) ↦ (.list items, rest)
      | '{' :: rest =>
          match skipBlank rest with
          | '}' :: rest => some (.object [], rest)
          | rest => (readMembers fuel rest).map fun (members, rest) ↦ (.object members, rest)
      | rest => readNumber rest

/-- The items of an array up to its closing bracket, at least one. -/
def readItems : Nat → List Char → Option (List Value × List Char)
  | 0, _ => none
  | fuel + 1, cs =>
      match readValue fuel cs with
      | none => none
      | some (item, rest) =>
          match skipBlank rest with
          | ']' :: rest => some ([item], rest)
          | ',' :: rest =>
              (readItems fuel rest).map fun (items, rest) ↦ (item :: items, rest)
          | _ => none

/-- The members of an object up to its closing brace, at least one. -/
def readMembers : Nat → List Char → Option (List (String × Value) × List Char)
  | 0, _ => none
  | fuel + 1, cs =>
      match skipBlank cs with
      | '"' :: rest =>
          match readString rest with
          | none => none
          | some (key, rest) =>
              match skipBlank rest with
              | ':' :: rest =>
                  match readValue fuel rest with
                  | none => none
                  | some (value, rest) =>
                      let member := (String.ofList key, value)
                      match skipBlank rest with
                      | '}' :: rest => some ([member], rest)
                      | ',' :: rest =>
                          (readMembers fuel rest).map fun (members, rest) ↦
                            (member :: members, rest)
                      | _ => none
              | _ => none
      | _ => none

end

def read? (s : String) : Option Value :=
  match readValue (s.length + 1) s.toList with
  | some (v, rest) => if skipBlank rest = [] then some v else none
  | none => none

end ChartLowering.Json
