import ChartLowering.ChannelDef
import ChartLowering.Composite.Axis
import ChartLowering.FieldDef.Name

/-!
# Tooltips of composite marks

Tooltips that aggregate are computed along with the mark. All others need the single rows and
can only be shown where those are drawn. Unless the author has aggregated tooltips, the mark gets
ones that list its statistics.
-/

namespace ChartLowering.Tooltip

def isAggregated (v : Value) : Bool := (Value.ofOption (v.member? "aggregate")).truthy

/-- The tooltips of an encoding. -/
structure Split where
  /-- Those that need the single rows: `null`, one definition, or a list of several. -/
  plain : Value
  /-- The encoding with aggregated tooltips only, after its other channels. -/
  encoding : Encoding

/-- A list as one definition, if it has just one. -/
def unwrapped : List Value → Value
  | [] => .null
  | [v] => v
  | items => .list items

def split (encoding : Encoding) : Split :=
  let others := encoding.erase "tooltip"
  match encoding.value "tooltip" with
  | .list items =>
      let aggregated := items.filter isAggregated
      { plain := unwrapped (items.filter fun v ↦ !isAggregated v)
        encoding := if aggregated.isEmpty then others
          else others ++ [("tooltip", .list aggregated)] }
  | tooltip =>
      if !tooltip.truthy then ⟨.null, others⟩
      else if isAggregated tooltip then ⟨.null, others ++ [("tooltip", tooltip)]⟩
      else ⟨tooltip, others⟩

/-- One statistic: how its column is named after the field, and how its title begins. -/
structure Row where
  column : String
  title : Value

/-- The title of a row. A reference to an expression stays one. -/
def rowTitle (title : Value) (ending : String) : Value :=
  match title.member? "signal" with
  | some signal => .object [("signal", .text (signal.shown ++ "\"" ++ ending ++ "\""))]
  | none => .text (title.shown ++ ending)

/-- The tooltip of one statistic of the field that a definition names. -/
def ofRow (definition : Record Value) (ending : String) (row : Row) : Except Fault Value := do
  match ← definition.require "field" with
  | .text field =>
      pure (.object
        [("field", .text (row.column ++ field)), ("type", definition.value "type"),
         ("title", rowTitle row.title ending)])
  | _ => throw .wrongKind

/-- The tooltips of all fields of an encoding, each only once. -/
def ofFields (encoding : Encoding) : Except Fault (List Value) := do
  let fields ← (← ChannelDef.fieldDefs encoding).mapM fun fd ↦ do
    pure (Value.object (← fd.asText))
  Json.unique fields

/-- The tooltip channel of a part: the author's own, or one that lists statistics and then the
fields of the encoding. -/
def channel (rows : List Row) (definition : Record Value) (encoding : Encoding)
    (withField : Bool := true) : Except Fault Encoding := do
  match encoding.get? "tooltip" with
  | some tooltip => pure [("tooltip", tooltip)]
  | none =>
      let ending := if withField then " of " ++ (ContinuousAxis.title definition).shown else ""
      let summary ← rows.mapM (ofRow definition ending)
      pure [("tooltip", .list (summary ++ (← ofFields encoding)))]

end ChartLowering.Tooltip
