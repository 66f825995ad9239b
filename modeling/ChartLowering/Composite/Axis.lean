import ChartLowering.Encoding.Normal
import ChartLowering.Mark.Property

/-!
# The continuous axis

A composite mark summarises one continuous field, which lies on x or on y. The mark runs along that
axis unless its definition says otherwise.
-/

namespace ChartLowering

/-- The direction of a mark. A definition may name anything as a direction. -/
inductive Orientation where
  | vertical
  | horizontal
  | other (v : Value)
  deriving DecidableEq

namespace Orientation

def ofValue (v : Value) : Orientation :=
  if v == .text "vertical" then vertical
  else if v == .text "horizontal" then horizontal
  else other v

def toValue : Orientation → Value
  | vertical => .text "vertical"
  | horizontal => .text "horizontal"
  | other v => v

def across : Orientation → Orientation
  | vertical => horizontal
  | _ => vertical

def channel : Orientation → String
  | vertical => "y"
  | _ => "x"

end Orientation

/-- The type of a mark that is given by a definition or by its type alone. -/
def Mark.typeOf : Value → Value
  | .object members => Record.value members "type"
  | .text type => .text type
  | _ => .null

namespace ContinuousAxis

/-- Does a field with these members have continuous values? -/
def isContinuousField (members : Record Value) : Bool :=
  let type := members.value "type"
  if type == .text FieldType.quantitative.name then !(members.value "bin").truthy
  else type == .text FieldType.temporal.name

/-- Is a datum continuous, by its type or else as a number? -/
def isContinuousDatum (type datum : Value) : Bool :=
  match type, datum with
  | .null, .int _ | .null, .float _ => true
  | .null, _ => false
  | type, _ =>
      type == .text FieldType.quantitative.name || type == .text FieldType.temporal.name

def isContinuous (v : Value) : Bool :=
  match v with
  | .object members =>
      if ChannelDef.isFieldDef v then isContinuousField members
      else
        match v.member? "datum" with
        | some datum => isContinuousDatum (Record.value members "type") datum
        | none => false
  | _ => false

/-- Are the values of a channel points in time? -/
def isTime (v : Value) : Bool :=
  v.member? "type" == some (.text FieldType.temporal.name) ||
    (Value.ofOption (v.member? "timeUnit")).truthy

/-- The aggregate of a field definition, `null` for none. -/
def aggregateOf (v : Value) : Value :=
  if ChannelDef.isFieldDef v then Value.ofOption (v.member? "aggregate") else .null

/-- The direction between two continuous axes: along the one that the mark aggregates, else along
the one that is not time, else upwards. -/
def between (mark : String) (x y : Value) : Except Fault Orientation :=
  let byMark (v : Value) : Bool := aggregateOf v == .text mark
  let plain (v : Value) : Bool := !(aggregateOf v).truthy
  if plain x && byMark y then pure .vertical
  else if plain y && byMark x then pure .horizontal
  else if byMark x && byMark y then throw (.spec (.bothAxesAggregated (.text mark)))
  else if isTime y && !isTime x then pure .horizontal
  else pure .vertical

/-- The members of an encoding, none if it is not given. -/
def encodingOf (spec : Record Value) : Except Fault Encoding :=
  let encoding := spec.value "encoding"
  if encoding.truthy then encoding.members "get" else pure []

/-- The direction of a composite mark: as its definition says, or along its continuous axis. -/
def orientation (spec : Record Value) (mark : String) : Except Fault Orientation := do
  let explicit := Value.ofOption ((spec.value "mark").member? "orient")
  if explicit.truthy then pure (.ofValue explicit)
  else
    let encoding ← encodingOf spec
    let x := encoding.value "x"
    let y := encoding.value "y"
    match isContinuous x, isContinuous y with
    | true, true => between mark x y
    | true, false => pure .horizontal
    | false, true => pure .vertical
    | false, false => throw (.spec (.noContinuousAxis (.text mark)))

end ContinuousAxis

/-- The channel of a continuous axis and the members of its definition, without an aggregate. -/
structure ContinuousAxis where
  channel : String
  definition : Record Value
  deriving DecidableEq

namespace ContinuousAxis

def field (a : ContinuousAxis) : Value := a.definition.value "field"

/-- What the axis is called: its own title or else its field. -/
def title (definition : Record Value) : Value :=
  match definition.value "title" with
  | .null => definition.value "field"
  | title => title

/-- The members of a definition without its aggregate, which the composite mark brings itself. -/
def withoutAggregate (mark : String) (v : Value) : Report (Record Value) := do
  let members ← v.asRecord
  let aggregate := members.value "aggregate"
  if !aggregate.isNull && aggregate != .text mark then
    Report.warn .compositeAxis (.customAggregate aggregate (.text mark))
  pure (members.erase "aggregate")

def ofSpec (spec : Record Value) (orient : Orientation) (mark : String) :
    Report ContinuousAxis := do
  let encoding ← encodingOf spec
  match encoding.value orient.channel with
  | .null => throw (.spec (.noContinuousAxis (.text mark)))
  | v => do
      let members ← withoutAggregate mark v
      if members.has "field" then pure ⟨orient.channel, members⟩
      else throw (.spec (.noContinuousAxis (.text mark)))

end ContinuousAxis

end ChartLowering
