import ChartLowering.Predicate
import ChartLowering.Proofs.Logic.Lexemes
import ChartLowering.Proofs.Report
import ChartLowering.Proofs.Value.Record

/-!
# Tests of fields and their combinations

A predicate is a test of a field, a combination of predicates, or the negation of one. Its text is
read as the same combination of what the tests of fields are read as, whatever characters there are
in the names of columns and in constants.
-/

namespace ChartLowering.Predicate

open Logic

/-- A constant that a column is compared with. -/
inductive Constant where
  | null
  | bool (b : Bool)
  | int (i : Int)
  | text (s : String)
  | list (items : List Constant)

namespace Constant

mutual

def value : Constant → Value
  | null => .null
  | bool b => .bool b
  | int i => .int i
  | text s => .text s
  | list items => .list (values items)

def values : List Constant → List Value
  | [] => []
  | c :: rest => c.value :: values rest

end

mutual

def term : Constant → Term
  | null => .name "null"
  | bool true => .name "true"
  | bool false => .name "false"
  | int (.ofNat n) => .number ⟨n, 0⟩
  | int (.negSucc n) => .signed .minus (.number ⟨n + 1, 0⟩)
  | text s => .text s
  | list items => .list (terms items)

def terms : List Constant → List Term
  | [] => []
  | c :: rest => c.term :: terms rest

end

end Constant

inductive Comparison where
  | equal
  | less
  | atMost
  | greater
  | atLeast
  deriving DecidableEq, Repr

namespace Comparison

def key : Comparison → String
  | equal => "equal"
  | less => "lt"
  | atMost => "lte"
  | greater => "gt"
  | atLeast => "gte"

def text : Comparison → String
  | equal => "==="
  | less => "<"
  | atMost => "<="
  | greater => ">"
  | atLeast => ">="

def sign : Comparison → Infix
  | equal => .equal
  | less => .operator .less
  | atMost => .operator .atMost
  | greater => .operator .greater
  | atLeast => .operator .atLeast

end Comparison

inductive Check where
  | compare (c : Comparison) (constant : Constant)
  | within (lower upper : Constant)
  | among (constants : List Constant)
  | validity (valid : Bool)

structure FieldTest where
  column : String
  check : Check

/-- What the text of a test is read as. -/
def FieldTest.term (test : FieldTest) : Term :=
  let column := Term.column test.column
  match test.check with
  | .compare c constant => .binary c.sign column constant.term
  | .within .null .null => .name "true"
  | .within lower .null => .binary (.operator .atLeast) column lower.term
  | .within .null upper => .binary (.operator .atMost) column upper.term
  | .within lower upper => .call "inrange" [column, .list [lower.term, upper.term]]
  | .among constants =>
      .binary .notEqual (.call "indexof" [.list (Constant.terms constants), column])
        (.signed .minus (.number ⟨1, 0⟩))
  | .validity true =>
      .binary (.operator .and) (.call "isValid" [column]) (.call "isFinite" [.signed .plus column])
  | .validity false =>
      .binary (.operator .or) (.signed .not (.call "isValid" [column]))
        (.signed .not (.call "isFinite" [.signed .plus column]))

inductive Connective where
  | and
  | or
  deriving DecidableEq, Repr

namespace Connective

def key : Connective → String
  | and => "and"
  | or => "or"

def sign : Connective → Infix
  | and => .operator .and
  | or => .operator .or

def holds : Connective → List Bool → Bool
  | and, truths => truths.all id
  | or, truths => truths.any id

end Connective

/-- A predicate, taken as what it means. -/
inductive Test where
  | field (test : FieldTest)
  | joined (c : Connective) (first : Test) (rest : List Test)
  | negation (t : Test)

namespace Test

mutual

/-- The truth of a predicate, given that of the tests of fields. -/
def holds (given : FieldTest → Bool) : Test → Bool
  | field test => given test
  | joined c first rest => c.holds (first.holds given :: truths given rest)
  | negation t => !t.holds given

def truths (given : FieldTest → Bool) : List Test → List Bool
  | [] => []
  | t :: rest => t.holds given :: truths given rest

end

end Test

/-- A combination of tests as an expression has it, two operands at a time. -/
inductive Formula where
  | atom (test : FieldTest)
  | joined (c : Connective) (left right : Formula)
  | negation (f : Formula)

namespace Formula

def holds (given : FieldTest → Bool) : Formula → Bool
  | atom test => given test
  | joined c l r => c.holds [l.holds given, r.holds given]
  | negation f => !f.holds given

def term : Formula → Term
  | atom test => test.term
  | joined c l r => .binary c.sign l.term r.term
  | negation f => .signed .not f.term

/-- An expression is as true as the formula, if the tests are as true as what they are read as. -/
theorem holds_term (given : Term → Bool) (f : Formula) :
    f.term.holds given = f.holds fun test ↦ test.term.holds given := by
  induction f with
  | atom test => rfl
  | joined c l r ihl ihr => cases c <;> simp [term, holds, Connective.sign, Connective.holds,
      Term.holds, ihl, ihr]
  | negation f ih => simp [term, holds, Term.holds, ih]

end Formula

namespace Test

mutual

def formula : Test → Formula
  | field test => .atom test
  | joined c first rest => (formulas rest).foldl (.joined c) first.formula
  | negation t => .negation t.formula

def formulas : List Test → List Formula
  | [] => []
  | t :: rest => t.formula :: formulas rest

end

theorem holds_foldl (given : FieldTest → Bool) (c : Connective) (f : Formula) (fs : List Formula) :
    (fs.foldl (.joined c) f).holds given =
      c.holds (f.holds given :: fs.map (Formula.holds given)) := by
  induction fs generalizing f with
  | nil => cases c <;> simp [Connective.holds]
  | cons g fs ih =>
      rw [List.foldl_cons, ih]
      cases c <;> simp [Formula.holds, Connective.holds, Bool.and_assoc, Bool.or_assoc]

mutual

theorem holds_formula (given : FieldTest → Bool) : ∀ t : Test,
    t.formula.holds given = t.holds given
  | field _ => rfl
  | joined c first rest => by
      rw [formula, holds_foldl, holds_formula given first, holds_formulas given rest, holds]
  | negation t => by rw [formula, Formula.holds, holds_formula given t, holds]

theorem holds_formulas (given : FieldTest → Bool) : ∀ ts : List Test,
    (formulas ts).map (Formula.holds given) = truths given ts
  | [] => rfl
  | t :: rest => by
      rw [formulas, List.map_cons, holds_formula given t, holds_formulas given rest, truths]

end

end Test

section Denotation

variable {members : Record Value} {v : Value}

/-- What a field is checked for, by the first member that says so. -/
inductive Checks (members : Record Value) : Check → Prop
  | compare (c : Comparison) (constant : Constant)
      (hkey : comparisons.find? (fun c ↦ members.has c.1) = some (c.key, c.text))
      (hvalue : members.value c.key = constant.value) : Checks members (.compare c constant)
  | within (lower upper : Constant)
      (hcompared : comparisons.find? (fun c ↦ members.has c.1) = none)
      (hkey : members.has "range" = true)
      (hbounds : (members.value "range").elements = .ok [lower.value, upper.value]) :
      Checks members (.within lower upper)
  | among (constants : List Constant)
      (hcompared : comparisons.find? (fun c ↦ members.has c.1) = none)
      (hranged : members.has "range" = false)
      (hitems : choiceItems (choices members) = .ok (Constant.values constants)) :
      Checks members (.among constants)
  | validity (hcompared : comparisons.find? (fun c ↦ members.has c.1) = none)
      (hranged : members.has "range" = false) (hchosen : (choices members).isNull = true)
      (hkey : members.has "valid" = true) :
      Checks members (.validity (members.value "valid").truthy)

def compositions : List String := ["and", "or", "not"]

/-- The members are a test of a field at an accepted path. -/
structure IsField (members : Record Value) (test : FieldTest) : Prop where
  composed : ∀ key ∈ compositions, members.has key = false
  timeUnit : members.has "timeUnit" = false
  path : ∃ v, members.get? "field" = some v ∧ FieldPath.flatten v.shown = .ok test.column
  check : Checks members test.check

/-- The members are a combination by that name, and by none that is looked for before it. -/
structure Composes (members : Record Value) (key : String) (v : Value) : Prop where
  before : ∀ other ∈ compositions.takeWhile (· != key), members.has other = false
  get? : members.get? key = some v

mutual

/-- A value is a predicate of this meaning. -/
inductive Denotes : Value → Test → Prop
  | field {members : Record Value} {test : FieldTest} (h : IsField members test) :
      Denotes (.object members) (.field test)
  | joined {members : Record Value} {c : Connective} {v : Value} {first : Test} {rest : List Test}
      (hkey : Composes members c.key v) (h : DenoteAll v.itemsOrSelf (first :: rest)) :
      Denotes (.object members) (.joined c first rest)
  | negation {members : Record Value} {v : Value} {t : Test} (hkey : Composes members "not" v)
      (h : Denotes v t) : Denotes (.object members) (.negation t)

inductive DenoteAll : List Value → List Test → Prop
  | nil : DenoteAll [] []
  | cons {v : Value} {vs : List Value} {t : Test} {ts : List Test} (h : Denotes v t)
      (hs : DenoteAll vs ts) : DenoteAll (v :: vs) (t :: ts)

end

end Denotation

end ChartLowering.Predicate
