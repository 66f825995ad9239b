import ChartLowering.Number.Read
import ChartLowering.Text.Basic
import ChartLowering.Value.Basic

/-!
# TOML values

Readers of keys and values, each of which gives what it found and the characters after it.
-/

namespace ChartLowering.Toml

/-- What a reader found, and the rest. -/
abbrev Found (α : Type) := Option (α × List Char)

def isSpace (c : Char) : Bool := c == ' ' || c == '\t'

def skipSpace (cs : List Char) : List Char := cs.dropWhile isSpace

/-- Controls other than the tab, which have to be escaped. -/
def isControl (c : Char) : Bool := (c.toNat < 0x20 && c != '\t') || c.toNat == 0x7f

/-- The rest of a line after a comment, if there is one. -/
def skipComment : List Char → Option (List Char)
  | '#' :: rest =>
      if (rest.takeWhile (· != '\n')).any isControl then none else some (rest.dropWhile (· != '\n'))
  | cs => some cs

/-- The rest after spaces, line breaks and comments. -/
def skipLines : Nat → List Char → Option (List Char)
  | 0, _ => none
  | fuel + 1, cs =>
      match cs.dropWhile fun c ↦ isSpace c || c == '\n' with
      | '#' :: rest =>
          match skipComment ('#' :: rest) with
          | some rest => skipLines fuel rest
          | none => none
      | rest => some rest

def push (c : Char) : Found (List Char) → Found (List Char)
  | some (text, rest) => some (c :: text, rest)
  | none => none

/-- The character that a number of hexadecimal digits stands for. -/
def scalar? (digits : List Char) : Option Char := do
  let values ← digits.mapM Text.hexValue?
  let code := values.foldl (fun n d ↦ 16 * n + d) 0
  if code.isValidChar then some (Char.ofNat code) else none

/-- The character of an escape with one letter. -/
def escaped? : Char → Option Char
  | 'b' => some '\x08'
  | 't' => some '\t'
  | 'n' => some '\n'
  | 'f' => some '\x0c'
  | 'r' => some '\r'
  | '"' => some '"'
  | '\\' => some '\\'
  | _ => none

/-- The rest of a string on one line. -/
def readBasic : List Char → Found (List Char)
  | [] => none
  | '"' :: rest => some ([], rest)
  | '\\' :: 'u' :: a :: b :: c :: d :: rest =>
      match scalar? [a, b, c, d] with
      | some e => push e (readBasic rest)
      | none => none
  | '\\' :: 'U' :: a :: b :: c :: d :: e :: f :: g :: h :: rest =>
      match scalar? [a, b, c, d, e, f, g, h] with
      | some e => push e (readBasic rest)
      | none => none
  | '\\' :: c :: rest =>
      match escaped? c with
      | some e => push e (readBasic rest)
      | none => none
  | c :: rest => if isControl c then none else push c (readBasic rest)

/-- The rest of a string without escapes, up to its quote. -/
def readLiteral : List Char → Found (List Char)
  | [] => none
  | '\'' :: rest => some ([], rest)
  | c :: rest => if isControl c then none else push c (readLiteral rest)

/-- What follows a backslash at the end of a line: the next line that is not blank. -/
def skipBreak (cs : List Char) : Option (List Char) :=
  match skipSpace cs with
  | [] => some []
  | '\n' :: rest => some (rest.dropWhile fun c ↦ isSpace c || c == '\n')
  | _ => none

/-- The rest of a string over several lines. Up to two quotes may stand before the closing ones.
The fuel bounds the length. -/
def readLong (quote : Char) (escapes : Bool) : Nat → List Char → Found (List Char)
  | 0, _ => none
  | _ + 1, [] => none
  | fuel + 1, c :: rest =>
      if c = quote ∧ rest.take 2 = [quote, quote] then
        let extra := ((rest.drop 2).takeWhile (· == quote)).take 2
        some (extra, (rest.drop 2).drop extra.length)
      else if c = '\\' ∧ escapes then
        match rest with
        | 'u' :: x :: y :: z :: w :: rest =>
            match scalar? [x, y, z, w] with
            | some e => push e (readLong quote escapes fuel rest)
            | none => none
        | 'U' :: x :: y :: z :: w :: p :: q :: r :: s :: rest =>
            match scalar? [x, y, z, w, p, q, r, s] with
            | some e => push e (readLong quote escapes fuel rest)
            | none => none
        | d :: rest =>
            if isSpace d || d == '\n' then
              match skipBreak (d :: rest) with
              | some rest => readLong quote escapes fuel rest
              | none => none
            else
              match escaped? d with
              | some e => push e (readLong quote escapes fuel rest)
              | none => none
        | [] => none
      else if isControl c && c != '\n' then none
      else push c (readLong quote escapes fuel rest)

/-- A line break right after the opening quotes does not count. -/
def dropBreak : List Char → List Char
  | '\n' :: rest => rest
  | cs => cs

/-- A string in any of its four forms. -/
def readString : List Char → Found (List Char)
  | '"' :: '"' :: '"' :: rest => readLong '"' true (rest.length + 1) (dropBreak rest)
  | '\'' :: '\'' :: '\'' :: rest => readLong '\'' false (rest.length + 1) (dropBreak rest)
  | '"' :: rest => readBasic rest
  | '\'' :: rest => readLiteral rest
  | _ => none

def isBare (c : Char) : Bool := c.isAlphanum || c == '-' || c == '_'

/-- One part of a key. A string over several lines is none. -/
def readKeyPart : List Char → Found String
  | '"' :: rest => (readBasic rest).map fun (key, rest) ↦ (String.ofList key, rest)
  | '\'' :: rest => (readLiteral rest).map fun (key, rest) ↦ (String.ofList key, rest)
  | cs =>
      match cs.takeWhile isBare with
      | [] => none
      | key => some (String.ofList key, cs.dropWhile isBare)

/-- A key of parts with dots between them, and the spaces after it. -/
def readKey : Nat → List Char → Found (List String)
  | 0, _ => none
  | fuel + 1, cs =>
      match readKeyPart cs with
      | none => none
      | some (part, rest) =>
          match skipSpace rest with
          | '.' :: rest =>
              (readKey fuel (skipSpace rest)).map fun (parts, rest) ↦ (part :: parts, rest)
          | rest => some ([part], rest)

/-- Digits of a base with single low lines between them, as far as they go. -/
def readDigits (isDigit : Char → Bool) : List Char → List Char × List Char
  | '_' :: c :: rest =>
      if isDigit c then
        let (digits, rest) := readDigits isDigit rest
        (c :: digits, rest)
      else ([], '_' :: c :: rest)
  | c :: rest =>
      if isDigit c then
        let (digits, rest) := readDigits isDigit rest
        (c :: digits, rest)
      else ([], c :: rest)
  | [] => ([], [])

def readNumeral (isDigit : Char → Bool) : List Char → Found (List Char)
  | c :: rest =>
      if isDigit c then
        let (digits, rest) := readDigits isDigit rest
        some (c :: digits, rest)
      else none
  | [] => none

def readBased (base : Nat) (isDigit : Char → Bool) (cs : List Char) : Found Value :=
  (readNumeral isDigit cs).map fun (digits, rest) ↦
    (.int (digits.foldl (fun n c ↦ base * n + (Text.hexValue? c).getD 0) 0 : Nat), rest)

/-- The point and the digits after it, nothing if they are not there. -/
def readFraction : List Char → List Char × List Char
  | '.' :: rest =>
      match readNumeral Char.isDigit rest with
      | some (digits, rest') => ('.' :: digits, rest')
      | none => ([], '.' :: rest)
  | rest => ([], rest)

def readSign : List Char → List Char × List Char
  | '-' :: rest => (['-'], rest)
  | '+' :: rest => (['+'], rest)
  | rest => ([], rest)

/-- The exponent, nothing if it is not there. -/
def readExponent : List Char → List Char × List Char
  | c :: rest =>
      if c = 'e' ∨ c = 'E' then
        let (sign, after) := readSign rest
        match readNumeral Char.isDigit after with
        | some (digits, rest') => ('e' :: sign ++ digits, rest')
        | none => ([], c :: rest)
      else ([], c :: rest)
  | [] => ([], [])

/-- The whole part of a number, without further digits after a leading zero. -/
def readWhole : List Char → Found (List Char)
  | '0' :: rest => some (['0'], rest)
  | cs => readNumeral Char.isDigit cs

/-- A number in base ten, or the name of a double that is not finite. -/
def readDecimal (cs : List Char) : Found Value :=
  let (sign, after) := readSign cs
  match readWhole after with
  | some (whole, rest) =>
      let (fraction, rest) := readFraction rest
      let (exponent, rest) := readExponent rest
      if fraction = [] ∧ exponent = [] then
        let n : Int := Binary64.valueOf whole
        some (.int (if sign = ['-'] then -n else n), rest)
      else
        (Binary64.ofChars? (sign ++ whole ++ fraction ++ exponent)).map fun x ↦ (.float x, rest)
  | none =>
      if after.take 3 = ['i', 'n', 'f'] then
        some (.float (.infinite (sign = ['-'])), after.drop 3)
      else if after.take 3 = ['n', 'a', 'n'] then some (.float .nan, after.drop 3)
      else none

def isHexDigit (c : Char) : Bool := (Text.hexValue? c).isSome

def readNumber : List Char → Found Value
  | '0' :: 'x' :: rest => (readBased 16 isHexDigit rest).or (some (.int 0, 'x' :: rest))
  | '0' :: 'b' :: rest =>
      (readBased 2 (fun c ↦ c == '0' || c == '1') rest).or (some (.int 0, 'b' :: rest))
  | '0' :: 'o' :: rest =>
      (readBased 8 (fun c ↦ '0' ≤ c && c ≤ '7') rest).or (some (.int 0, 'o' :: rest))
  | cs => readDecimal cs

/-- Puts a value under a key of several parts into a table, which must not have one there. Only
tables can be reached into. -/
def putAt (value : Value) : List String → Record Value → Option (Record Value)
  | [], _ => none
  | [key], table => if table.has key then none else some (table.put key value)
  | key :: rest, table =>
      match table.get? key with
      | none => (putAt value rest []).map fun inner ↦ table.put key (.object inner)
      | some (.object inner) =>
          (putAt value rest inner).map fun inner ↦ table.put key (.object inner)
      | some _ => none

mutual

/-- A value, within a bound on its length. -/
def readValue : Nat → List Char → Found Value
  | 0, _ => none
  | fuel + 1, cs =>
      match cs with
      | '"' :: _ | '\'' :: _ => (readString cs).map fun (s, rest) ↦ (.text (String.ofList s), rest)
      | 't' :: 'r' :: 'u' :: 'e' :: rest => some (.bool true, rest)
      | 'f' :: 'a' :: 'l' :: 's' :: 'e' :: rest => some (.bool false, rest)
      | '[' :: rest => (readItems fuel rest).map fun (items, rest) ↦ (.list items, rest)
      | '{' :: rest =>
          match skipSpace rest with
          | '}' :: rest => some (.object [], rest)
          | rest =>
              (readPairs fuel [] [] rest).map fun (members, rest) ↦ (.object members, rest)
      | cs => readNumber cs

/-- The items of an array up to its closing bracket. -/
def readItems : Nat → List Char → Found (List Value)
  | 0, _ => none
  | fuel + 1, cs =>
      match skipLines (cs.length + 1) cs with
      | none => none
      | some (']' :: rest) => some ([], rest)
      | some cs =>
          match readValue fuel cs with
          | none => none
          | some (item, rest) =>
              match skipLines (rest.length + 1) rest with
              | some (']' :: rest) => some ([item], rest)
              | some (',' :: rest) =>
                  (readItems fuel rest).map fun (items, rest) ↦ (item :: items, rest)
              | _ => none

/-- The pairs of an inline table up to its closing brace, at least one. A table or list that is
the value of a pair is complete, and its key closed to further ones. -/
def readPairs : Nat → List (List String) → Record Value → List Char → Found (Record Value)
  | 0, _, _, _ => none
  | fuel + 1, closed, table, cs =>
      match readKey (cs.length + 1) cs with
      | some (key, '=' :: rest) =>
          match readValue fuel (skipSpace rest) with
          | none => none
          | some (value, rest) =>
              match (if closed.any (·.isPrefixOf key) then none else putAt value key table) with
              | none => none
              | some table =>
                  let closed := if value.isList || value.isObject then key :: closed else closed
                  match skipSpace rest with
                  | '}' :: rest => some (table, rest)
                  | ',' :: rest => readPairs fuel closed table (skipSpace rest)
                  | _ => none
      | _ => none

end

end ChartLowering.Toml
