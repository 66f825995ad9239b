import ChartLowering.Composite.Axis
import ChartLowering.Composite.Layer

/-!
# Parts of composite marks

A composite mark is drawn in parts. The definition of the mark switches each of them on or off, or
on with a style; where it says nothing the settings do.
-/

namespace ChartLowering.Part

/-- Is this a switch that is on? Any style counts, an empty one too. -/
def isOn (v : Value) : Bool := v.isObject || v.truthy

def isDrawn (mark : MarkDef) (settings : Record Value) (part : String) : Bool :=
  match mark.value part with
  | .null => isOn (settings.value part)
  | given => isOn given

/-- The members of a style, none if it is not one. -/
def styleMembers (v : Value) : Record Value := v.members?.getD []

/-- The properties that a mark hands on to its parts. -/
def handedOn (mark : MarkDef) : Record Value :=
  ["clip", "color", "opacity"].filterMap fun key ↦
    let v := mark.value key
    if v.truthy then some (key, v) else none

/-- The mark of a part. Each of these goes over those before it: the style from the settings, what
the composite mark hands on, what the part is by itself, its style name, and its style from the
definition of the composite mark. -/
def styled (mark : MarkDef) (settings : Record Value) (part : String) (base : MarkDef) : MarkDef :=
  let own := Record.override (styleMembers (settings.value part)) (handedOn mark)
  let named := (Record.override own base).put "style"
    (.text ((mark.value "type").shown ++ "-" ++ part))
  Record.override named (styleMembers (mark.value part))

def layers (mark : MarkDef) (settings : Record Value) (part : String) (base : UnitLayer) :
    List UnitLayer :=
  if isDrawn mark settings part then
    [{ base with mark := styled mark settings part base.mark }]
  else []

/-- What all parts that show statistics share. -/
structure Context where
  mark : MarkDef
  axis : ContinuousAxis
  encoding : Encoding
  /-- The settings of the composite mark. -/
  settings : Record Value

namespace Context

def column (c : Context) (statistic : String) : Value :=
  .text (statistic ++ "_" ++ c.axis.field.shown)

/-- The axis with a statistic in place of its field. -/
def position (c : Context) (statistic : String) : Record Value :=
  let definition := c.axis.definition
  [("field", c.column statistic), ("type", definition.value "type")] ++
    (match ContinuousAxis.title definition with
      | .null => []
      | title => [("title", title)]) ++
    ["scale", "axis"].filterMap fun key ↦ (definition.get? key).map fun v ↦ (key, v)

/-- The encoding of a part that reaches from one statistic to another, if it has two ends. -/
def encodingOf (c : Context) (start : String) (stop : Option String) (extra : Encoding) :
    Encoding :=
  let along := [(c.axis.channel, Value.object (c.position start))]
  let ending := match stop with
    | some stop => [(c.axis.channel ++ "2", Value.object [("field", c.column stop)])]
    | none => []
  Record.override (Record.override (along ++ ending) c.encoding) extra

/-- A part as a layer, if it is drawn. Properties that are `null` are left out of its mark. -/
def make (c : Context) (part : String) (mark : MarkDef) (start : String)
    (stop : Option String := none) (extra : Encoding := []) : List UnitLayer :=
  layers c.mark c.settings part
    { mark := mark.filter fun m ↦ !m.2.isNull
      encoding := c.encodingOf start stop extra }

end Context

end ChartLowering.Part
