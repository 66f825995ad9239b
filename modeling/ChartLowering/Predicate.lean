import ChartLowering.Expression
import ChartLowering.Value.Access

/-!
# Predicates

A test is an expression as it stands, a comparison of a field, or a combination of tests.
-/

namespace ChartLowering.Predicate

/-- The comparisons with one constant, in the order in which they are looked for. -/
def comparisons : List (String × String) :=
  [("equal", "==="), ("lt", "<"), ("lte", "<="), ("gt", ">"), ("gte", ">=")]

/-- A test that a column lies between two bounds, each of which may be `null`. -/
def rangeText (ref : String) (bounds : Value) : Except Fault String := do
  match ← bounds.elements with
  | [.null, .null] => pure "true"
  | [lower, .null] => pure (ref ++ " >= " ++ (← Expression.literal lower))
  | [.null, upper] => pure (ref ++ " <= " ++ (← Expression.literal upper))
  | [lower, upper] => do
      let lower ← Expression.literal lower
      let upper ← Expression.literal upper
      pure ("inrange(" ++ ref ++ ", [" ++ lower ++ ", " ++ upper ++ "])")
  | _ => throw .badContent

/-- The values among which a column is looked for, `null` if there are none. -/
def choices (members : Record Value) : Value :=
  match members.get? "oneOf" with
  | some v => v
  | none => members.value "in"

/-- The items of a choice. A checked field definition gives its members as pairs, but a type among
them has no form as a constant. -/
def choiceItems (choices : Value) : Except Fault (List Value) :=
  match choices with
  | .fieldDef members =>
      if (Record.value members "type").isNull then choices.elements else throw .wrongKind
  | choices => choices.elements

def choiceText (ref : String) (choices : Value) : Except Fault String := do
  let items ← choiceItems choices
  pure ("indexof(" ++ (← Expression.literal (.list items)) ++ ", " ++ ref ++ ") !== -1")

def fieldText (members : Record Value) : Except Fault String := do
  if members.has "timeUnit" then throw (.spec .timeUnitPredicate)
  let ref ← Expression.field (← members.require "field").shown "datum"
  match comparisons.find? fun c ↦ members.has c.1 with
  | some (key, operator) => pure (ref ++ operator ++ (← Expression.literal (members.value key)))
  | none =>
      if members.has "range" then rangeText ref (members.value "range")
      else if (choices members).isNull then
        if members.has "valid" then pure (Expression.validity ref (members.value "valid").truthy)
        else throw (.spec (.fieldPredicate (.object members)))
      else choiceText ref (choices members)

def joined (operator : String) (operands : List String) : String :=
  operator.intercalate (operands.map fun t ↦ "(" ++ t ++ ")")

mutual

def text : Value → Except Fault String
  | .text s => pure s
  | .object members =>
      match operands "and" members with
      | some operands => do pure (joined " && " (← operands))
      | none =>
          match operands "or" members with
          | some operands => do pure (joined " || " (← operands))
          | none =>
              match operand "not" members with
              | some operand => do pure ("!(" ++ (← operand) ++ ")")
              | none =>
                  if Record.has members "field" then fieldText members
                  else throw (.spec (.predicate (.object members)))
  | v => throw (.spec (.predicate v))
termination_by structural v => v

def texts : List Value → Except Fault (List String)
  | [] => pure []
  | v :: rest => do
      let t ← text v
      let rest ← texts rest
      pure (t :: rest)
termination_by structural items => items

/-- The operands under a name, one or a list of them. -/
def operands (key : String) : List (String × Value) → Option (Except Fault (List String))
  | [] => none
  | (k, v) :: rest =>
      if k == key then
        match v with
        | .list items => some (texts items)
        | v => some (do pure [← text v])
      else operands key rest
termination_by structural members => members

def operand (key : String) : List (String × Value) → Option (Except Fault String)
  | [] => none
  | (k, v) :: rest => if k == key then some (text v) else operand key rest
termination_by structural members => members

end

end ChartLowering.Predicate
