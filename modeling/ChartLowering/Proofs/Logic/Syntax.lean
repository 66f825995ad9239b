import ChartLowering.Proofs.Expression.Syntax

/-!
# The logic of expressions

Tests are put together from calls, columns, constants and lists by comparisons, equalities and
connectives. Their texts are cut into the tokens of arithmetic and a few more, and read as terms by
the usual precedence. The truth of a term follows from that of the terms below its connectives.
-/

namespace ChartLowering.Logic

open Expression (Token Operator)

inductive Infix where
  | operator (o : Operator)
  | equal
  | notEqual
  deriving DecidableEq, Repr

/-- How tightly an operator binds. Equalities stand between the connectives and comparisons. -/
def Infix.level : Infix → Nat
  | operator o => 2 * o.precedence
  | equal | notEqual => 5

inductive Sign where
  | plus
  | minus
  | not
  deriving DecidableEq, Repr

inductive Lexeme where
  | token (t : Token)
  | equal
  | notEqual
  | not
  | comma
  deriving DecidableEq, Repr

def Lexeme.operator? : Lexeme → Option Infix
  | token (.operator o) => some (.operator o)
  | equal => some .equal
  | notEqual => some .notEqual
  | _ => none

def Lexeme.sign? : Lexeme → Option Sign
  | token (.operator .plus) => some .plus
  | token (.operator .minus) => some .minus
  | not => some .not
  | _ => none

/-- An expression. The constants that have names are names like others. -/
inductive Term where
  | number (d : Decimal)
  | text (s : String)
  | name (s : String)
  | column (name : String)
  | list (items : List Term)
  | call (function : String) (arguments : List Term)
  | signed (sign : Sign) (t : Term)
  | binary (o : Infix) (left right : Term)

section Lexemes

/-- The first lexeme of a text that does not begin with a blank. The loose inequality is not
read. -/
def lexeme? : List Char → Option (Lexeme × List Char)
  | '=' :: '=' :: '=' :: rest => some (.equal, rest)
  | '!' :: '=' :: '=' :: rest => some (.notEqual, rest)
  | '!' :: '=' :: _ => none
  | '!' :: rest => some (.not, rest)
  | ',' :: rest => some (.comma, rest)
  | cs => (Expression.token? cs).map fun (t, rest) ↦ (.token t, rest)

def lexemes? (cs : List Char) : Option (List Lexeme) :=
  if Json.skipBlank cs = [] then some []
  else
    match lexeme? (Json.skipBlank cs) with
    | none => none
    | some (l, rest) =>
        if rest.length < (Json.skipBlank cs).length then (lexemes? rest).map (l :: ·) else none
termination_by cs.length
decreasing_by
  rename_i hshorter
  exact hshorter.trans_le (List.dropWhile_sublist _).length_le

end Lexemes

section Terms

mutual

/-- A constant, a column, a list, a call, a term between parentheses, or one of these after a sign,
which binds more tightly than all operators. -/
def operand : List Lexeme → Option (Term × List Lexeme)
  | .token (.number d) :: rest => some (.number d, rest)
  | .token (.text s) :: rest => some (.text s, rest)
  | .token (.word "datum") :: .token .openBracket :: .token (.text name) ::
      .token .closeBracket :: rest => some (.column name, rest)
  | .token (.word f) :: .token .opening :: rest =>
      match items .closing rest with
      | some (arguments, rest) => some (.call f arguments, rest)
      | none => none
  | .token (.word s) :: rest => some (.name s, rest)
  | .token .openBracket :: rest =>
      match items .closeBracket rest with
      | some (found, rest) => some (.list found, rest)
      | none => none
  | .token .opening :: rest =>
      match expression 1 rest with
      | some (t, .token .closing :: rest) => some (t, rest)
      | _ => none
  | l :: rest =>
      match l.sign? with
      | some sign =>
          match expression 11 rest with
          | some (t, rest) => some (.signed sign t, rest)
          | none => none
      | none => none
  | [] => none
termination_by ls => (ls.length, 0)

/-- A term whose operators outside parentheses bind at least so tightly. -/
def expression (least : Nat) (ls : List Lexeme) : Option (Term × List Lexeme) :=
  match operand ls with
  | some (left, rest) => if rest.length < ls.length then climb least left rest else none
  | none => none
termination_by (ls.length, 1)

/-- What follows a left operand as far as operators bind at least so tightly. -/
def climb (least : Nat) (left : Term) (ls : List Lexeme) : Option (Term × List Lexeme) :=
  match ls with
  | [] => some (left, [])
  | l :: rest =>
      match l.operator? with
      | some o =>
          if least ≤ o.level then
            match expression (o.level + 1) rest with
            | some (right, after) =>
                if after.length ≤ rest.length then climb least (.binary o left right) after
                else none
            | none => none
          else some (left, l :: rest)
      | none => some (left, l :: rest)
termination_by (ls.length, 0)

/-- Terms with commas between them, up to a closing token. -/
def items (close : Token) (ls : List Lexeme) : Option (List Term × List Lexeme) :=
  match ls with
  | .token t :: rest => if t = close then some ([], rest) else itemsFrom close (.token t :: rest)
  | ls => itemsFrom close ls
termination_by (ls.length, 3)

def itemsFrom (close : Token) (ls : List Lexeme) : Option (List Term × List Lexeme) :=
  match expression 1 ls with
  | some (t, .comma :: rest) =>
      if rest.length < ls.length then
        match itemsFrom close rest with
        | some (found, rest) => some (t :: found, rest)
        | none => none
      else none
  | some (t, .token c :: rest) => if c = close then some ([t], rest) else none
  | _ => none
termination_by (ls.length, 2)

end

/-- The term that a text is, up to its very end. -/
def read? (s : String) : Option Term :=
  match (lexemes? s.toList).bind (expression 1) with
  | some (t, []) => some t
  | _ => none

end Terms

/-- The truth of a term, given that of the terms that are no connectives. -/
def Term.holds (given : Term → Bool) : Term → Bool
  | signed .not t => !t.holds given
  | binary (.operator .and) l r => l.holds given && r.holds given
  | binary (.operator .or) l r => l.holds given || r.holds given
  | t => given t

end ChartLowering.Logic
