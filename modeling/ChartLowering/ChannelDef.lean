import ChartLowering.FieldDef.Basic

/-!
# Channel definitions

What an encoding maps a channel to: a field, a value, a datum, a condition, or a list of these.
-/

namespace ChartLowering.ChannelDef

def isFieldDef : Value → Bool
  | .fieldDef _ => true
  | .object members =>
      Record.has members "field" || Record.value members "aggregate" == .text "count"
  | _ => false

def isValueDef (v : Value) : Bool := v.hasMember "value"

def isDatumDef (v : Value) : Bool := v.hasMember "datum"

def isSignal (v : Value) : Bool := v.hasMember "signal"

def isExpression (v : Value) : Bool := v.hasMember "expr"

/-- Is there a condition, in an object or among the further members of a checked definition? -/
def isConditional : Value → Bool
  | .fieldDef members | .object members => !(Record.value members "condition").isNull
  | _ => false

/-- The field definition that a channel definition is, if it is one. -/
def fieldDef? (v : Value) : Except Fault (Option FieldDef) :=
  if isFieldDef v then some <$> FieldDef.read v else pure none

/-- The field definition of a condition, if the condition is one. -/
def conditionalFieldDef? (v : Value) : Except Fault (Option FieldDef) :=
  match v.member? "condition" with
  | some condition =>
      if isFieldDef condition then do
        pure (some (← FieldDef.ofMembers (← condition.asRecord)))
      else pure none
  | none => pure none

/-- The field definition of a channel, or else that of its condition. -/
def anyFieldDef? (v : Value) : Except Fault (Option FieldDef) := do
  match ← fieldDef? v with
  | some fd => pure (some fd)
  | none => conditionalFieldDef? v

/-- All field definitions of an encoding, in the order of channels and of the items of lists. -/
def fieldDefs (encoding : Record Value) : Except Fault (List FieldDef) := do
  let found ← (encoding.flatMap fun m ↦ m.2.itemsOrSelf).mapM anyFieldDef?
  pure (found.filterMap id)

end ChartLowering.ChannelDef
