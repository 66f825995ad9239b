import ChartLowering.Expression
import ChartLowering.Json.Read
import ChartLowering.Proofs.Number.Rounding

/-!
# The expression language

The part of the expression language that tests of columns are written in: numbers, columns of the
row, arithmetic, comparisons and connectives, with the usual precedence. Texts are cut into tokens
and read as trees, and trees are evaluated over rows of rational numbers.
-/

namespace ChartLowering.Expression

inductive Operator where
  | or
  | and
  | less
  | greater
  | atMost
  | atLeast
  | plus
  | minus
  | times
  deriving DecidableEq, Repr

/-- How tightly an operator binds. -/
def Operator.precedence : Operator → Nat
  | or => 1
  | and => 2
  | less | greater | atMost | atLeast => 3
  | plus | minus => 4
  | times => 5

inductive Token where
  | number (d : Decimal)
  | text (s : String)
  | word (s : String)
  | opening
  | closing
  | openBracket
  | closeBracket
  | operator (o : Operator)
  deriving DecidableEq, Repr

/-- An expression. A minus sign in front of an operand is no operator. -/
inductive Tree where
  | number (d : Decimal)
  | column (name : String)
  | negate (t : Tree)
  | binary (o : Operator) (left right : Tree)
  deriving DecidableEq, Repr

section Tokens

/-- A number as it is written without a sign, by its digits and its exponent. -/
def readDecimal? (cs : List Char) : Option (Decimal × List Char) :=
  let (whole, rest) := Json.readDigits cs
  if whole = [] ∨ (whole.head? = some '0' ∧ 1 < whole.length) then none
  else
    match Json.readFraction rest with
    | none => none
    | some (fraction, rest) =>
        match Json.readExponent rest with
        | none => none
        | some (exponent, rest) =>
            some (⟨Json.natOf (whole ++ fraction), exponent.getD 0 - fraction.length⟩, rest)

/-- A bracket or an operator. An operator takes as many characters as it can, and what they are in
other operators, as two minus signs are, is not read. -/
def symbol? : List Char → Option (Token × List Char)
  | '(' :: rest => some (.opening, rest)
  | ')' :: rest => some (.closing, rest)
  | '[' :: rest => some (.openBracket, rest)
  | ']' :: rest => some (.closeBracket, rest)
  | '|' :: '|' :: rest => some (.operator .or, rest)
  | '&' :: '&' :: rest => some (.operator .and, rest)
  | '<' :: '=' :: rest => some (.operator .atMost, rest)
  | '>' :: '=' :: rest => some (.operator .atLeast, rest)
  | '<' :: '<' :: _ | '>' :: '>' :: _ | '+' :: '+' :: _ | '-' :: '-' :: _ | '*' :: '*' :: _ => none
  | '<' :: rest => some (.operator .less, rest)
  | '>' :: rest => some (.operator .greater, rest)
  | '+' :: rest => some (.operator .plus, rest)
  | '-' :: rest => some (.operator .minus, rest)
  | '*' :: rest => some (.operator .times, rest)
  | _ => none

/-- The first token of a text that does not begin with a blank. -/
def token? : List Char → Option (Token × List Char)
  | [] => none
  | c :: rest =>
      if c = '"' then
        (Json.readString rest).map fun (s, rest) ↦ (.text (String.ofList s), rest)
      else if c.isDigit then
        (readDecimal? (c :: rest)).map fun (d, rest) ↦ (.number d, rest)
      else if c.isAlpha then
        some (.word (String.ofList ((c :: rest).takeWhile Char.isAlphanum)),
          (c :: rest).dropWhile Char.isAlphanum)
      else symbol? (c :: rest)

def tokens? (cs : List Char) : Option (List Token) :=
  if Json.skipBlank cs = [] then some []
  else
    match token? (Json.skipBlank cs) with
    | none => none
    | some (t, rest) =>
        if rest.length < (Json.skipBlank cs).length then (tokens? rest).map (t :: ·) else none
termination_by cs.length
decreasing_by
  rename_i hshorter
  exact hshorter.trans_le (List.dropWhile_sublist _).length_le

end Tokens

section Trees

mutual

/-- A number, a column, an expression between brackets, or one of these after a minus sign, which
binds more tightly than all operators. -/
def operand : List Token → Option (Tree × List Token)
  | .number d :: rest => some (.number d, rest)
  | .word "datum" :: .openBracket :: .text name :: .closeBracket :: rest =>
      some (.column name, rest)
  | .operator .minus :: rest =>
      match expression 6 rest with
      | some (t, rest) => some (.negate t, rest)
      | none => none
  | .opening :: rest =>
      match expression 1 rest with
      | some (t, .closing :: rest) => some (t, rest)
      | _ => none
  | _ => none
termination_by ts => (ts.length, 0)

/-- An expression whose operators outside brackets bind at least so tightly. -/
def expression (least : Nat) (ts : List Token) : Option (Tree × List Token) :=
  match operand ts with
  | some (left, rest) => if rest.length < ts.length then climb least left rest else none
  | none => none
termination_by (ts.length, 1)

/-- What follows a left operand as far as operators bind at least so tightly. -/
def climb (least : Nat) (left : Tree) (ts : List Token) : Option (Tree × List Token) :=
  match ts with
  | .operator o :: rest =>
      if least ≤ o.precedence then
        match expression (o.precedence + 1) rest with
        | some (right, after) =>
            if after.length ≤ rest.length then climb least (.binary o left right) after else none
        | none => none
      else some (left, .operator o :: rest)
  | ts => some (left, ts)
termination_by (ts.length, 0)

end

/-- The expression that a text is, up to its very end. -/
def read? (s : String) : Option Tree :=
  match (tokens? s.toList).bind (expression 1) with
  | some (t, []) => some t
  | _ => none

end Trees

section Evaluation

/-- What a number in an expression stands for: the number as it is written, or the double that is
nearest to it. -/
inductive Reading where
  | exact
  | nearest
  deriving DecidableEq, Repr

def Reading.value : Reading → Decimal → ℚ
  | exact, d => d.value
  | nearest, d => (Binary64.ofDecimal false d.digits d.exponent).value

/-- A number in an expression, maybe after a minus sign. -/
def Reading.signed (reading : Reading) (negative : Bool) (d : Decimal) : ℚ :=
  if negative then -reading.value d else reading.value d

variable (reading : Reading) (row : String → ℚ)

/-- The number that an expression comes to, if it is one of numbers. -/
def Tree.number? : Tree → Option ℚ
  | number d => some (reading.value d)
  | column name => some (row name)
  | negate t => (t.number?).map fun x ↦ -x
  | binary .plus l r => l.number?.bind fun x ↦ r.number?.map fun y ↦ x + y
  | binary .minus l r => l.number?.bind fun x ↦ r.number?.map fun y ↦ x - y
  | binary .times l r => l.number?.bind fun x ↦ r.number?.map fun y ↦ x * y
  | _ => none

/-- Does a test hold, if an expression is one? -/
def Tree.holds? : Tree → Option Bool
  | binary .or l r => l.holds?.bind fun x ↦ r.holds?.map fun y ↦ x || y
  | binary .and l r => l.holds?.bind fun x ↦ r.holds?.map fun y ↦ x && y
  | binary .less l r =>
      (l.number? reading row).bind fun x ↦ (r.number? reading row).map fun y ↦ decide (x < y)
  | binary .greater l r =>
      (l.number? reading row).bind fun x ↦ (r.number? reading row).map fun y ↦ decide (y < x)
  | binary .atMost l r =>
      (l.number? reading row).bind fun x ↦ (r.number? reading row).map fun y ↦ decide (x ≤ y)
  | binary .atLeast l r =>
      (l.number? reading row).bind fun x ↦ (r.number? reading row).map fun y ↦ decide (y ≤ x)
  | _ => none

/-- Does a row pass a filter, if the text of the filter is a test? -/
def passes? (filter : String) : Option Bool := (read? filter).bind (Tree.holds? reading row)

end Evaluation

end ChartLowering.Expression
