import ChartLowering.Composite.Part
import ChartLowering.Composite.Tooltip
import ChartLowering.FieldDef.Title
import ChartLowering.Grammar.Extent

/-!
# Error bars

An error bar shows a center and an extent around it, both computed from one field for each group.
-/

namespace ChartLowering.Errorbar

def markName : String := "errorbar"

def parts : List String := ["ticks", "rule"]

/-- The channels by which extents that are computed already would be given. -/
def preaggregated : List String := ["x2", "y2", "xError", "yError", "xError2", "yError2"]

/-- The extent that a mark definition or the settings give. -/
def extentOf (mark : MarkDef) (settings : Settings) : Except Fault ErrorbarExtent :=
  let given := mark.value "extent"
  if given.truthy then
    match given.text?.bind ErrorbarExtent.ofName? with
    | some extent => pure extent
    | none => throw (.spec (.extent (.text markName) given))
  else pure settings.errorbar.extent

/-- The operation that gives the center, if the mark definition names none. -/
def defaultCenter (extent : ErrorbarExtent) : String :=
  if extent = .iqr then "median" else "mean"

def centerOf (mark : MarkDef) (extent : ErrorbarExtent) : Value :=
  let given := mark.value "center"
  if given.truthy then given else .text (defaultCenter extent)

/-- Does the center go with the extent? The median goes with quartiles and nothing else does. -/
def isUsual (center : Value) (extent : ErrorbarExtent) : Bool :=
  (center == .text "median") == (extent == .iqr)

/-- How the center and the extent are computed and named. -/
structure Statistics where
  measures : List Measure
  steps : List Transform
  rows : List Tooltip.Row
  /-- Do the titles of the tooltip need the name of the field? -/
  withField : Bool

def operationOf (center : Value) : Except Fault String :=
  match center with
  | .text op => pure op
  | .list _ => throw .notRecord
  | _ => throw .wrongKind

def deviation (field : Value) (center : Value) (extent : ErrorbarExtent) :
    Except Fault Statistics := do
  let op ← operationOf center
  let name := field.shown
  let center := Expression.datum ("center_" ++ name)
  let distance := Expression.datum ("extent_" ++ name)
  let title := Text.capitalize op
  pure
    { measures :=
        [⟨extent.name, some field, "extent_" ++ name⟩, ⟨op, some field, "center_" ++ name⟩]
      steps :=
        [.calculate (center ++ " + " ++ distance) ("upper_" ++ name),
         .calculate (center ++ " - " ++ distance) ("lower_" ++ name)]
      rows :=
        [⟨"center_", .text title⟩, ⟨"upper_", .text (title ++ " + " ++ extent.name)⟩,
         ⟨"lower_", .text (title ++ " - " ++ extent.name)⟩]
      withField := true }

def operationTitle (field : Value) (countTitle op : String) : Except Fault Value := do
  let field ← Value.optional Value.text? field
  let fd : FieldDef :=
    { field, type := some .quantitative, aggregate := some (.named op), bin := none
      timeUnit := none, title := .null, extras := [] }
  fd.defaultTitle (.text countTitle)

def interval (field : Value) (countTitle lower upper center : String) :
    Except Fault Statistics := do
  let name := field.shown
  let upperTitle ← operationTitle field countTitle upper
  let lowerTitle ← operationTitle field countTitle lower
  let centerTitle ← operationTitle field countTitle center
  pure
    { measures :=
        [⟨lower, some field, "lower_" ++ name⟩, ⟨upper, some field, "upper_" ++ name⟩,
         ⟨center, some field, "center_" ++ name⟩]
      steps := []
      rows := [⟨"upper_", upperTitle⟩, ⟨"lower_", lowerTitle⟩, ⟨"center_", centerTitle⟩]
      withField := false }

def statistics (field center : Value) (extent : ErrorbarExtent) (countTitle : String) :
    Except Fault Statistics :=
  match extent with
  | .stderr | .stdev => deviation field center extent
  | .ci => interval field countTitle "ci0" "ci1" "mean"
  | .iqr => interval field countTitle "q1" "q3" "median"

def rule (thickness : Value) : MarkDef :=
  [("type", .text "rule"), ("ariaRoleDescription", .text "errorbar"), ("size", thickness)]

def tick (mark : MarkDef) (orient : Orientation) : MarkDef :=
  [("type", .text "tick"), ("orient", orient.across.toValue), ("aria", .bool false),
   ("thickness", mark.value "thickness"), ("size", mark.value "size")]

/-- The rule and the ticks at its ends. -/
def layers (c : Part.Context) (orient : Orientation) (tooltip : Encoding) : List UnitLayer :=
  let tick := tick c.mark orient
  c.make "ticks" tick "lower" none tooltip ++ c.make "ticks" tick "upper" none tooltip ++
    c.make "rule" (rule (c.mark.value "thickness")) "lower" "upper" tooltip

/-- Several parts become layers, and a single one the specification itself. -/
def drawing : List UnitLayer → Drawing
  | [] => .nothing
  | [layer] => .single layer
  | layers => .layers (layers.map .unit)

def expand (spec : Record Value) (settings : Settings := {})
    (parse : Shorthand.Reader := Shorthand.members) : Report Expansion := do
  let encoding ← Encoding.normalize (spec.value "encoding") parse
  let spec := spec.put "encoding" (.object encoding)
  if let some channel := preaggregated.find? encoding.has then
    throw (.spec (.preaggregated (.text channel)))
  let mark := MarkDef.ofValue (← spec.require "mark")
  if !(spec.value "params").isNull then Report.warn .errorbar (.selection (.text markName))
  let extent ← extentOf mark settings
  let center := centerOf mark extent
  if !isUsual center extent then
    Report.warn .errorbar (.centerExtent center (.text extent.name) (.text markName))
  let orient ← ContinuousAxis.orientation spec markName
  let axis ← ContinuousAxis.ofSpec spec orient markName
  let stats ← statistics axis.field center extent settings.countTitle
  let lifted ← Extraction.ofEncoding (encoding.erase axis.channel) settings.countTitle
  let others := lifted.encoding.erase "size"
  let tooltip ← Tooltip.channel stats.rows axis.definition others stats.withField
  let outer := Expansion.kept spec
  let written ← Expansion.written outer
  let steps := lifted.prepared ++
    .aggregate (lifted.measures ++ stats.measures) lifted.groupby :: stats.steps
  let c : Part.Context :=
    { mark, axis, encoding := others
      settings := Settings.openBlock settings.errorbar.members }
  pure ⟨outer, some (written ++ steps), drawing (layers c orient tooltip)⟩

end ChartLowering.Errorbar
