import ChartLowering.Composite.Boxplot.Statistics
import ChartLowering.Composite.Part

/-!
# Parts of a boxplot

A bar from one quartile to the other, a tick at the median, rules and ticks for the whiskers, and
points for outliers.
-/

namespace ChartLowering.Boxplot

structure Look where
  plan : Plan
  mark : MarkDef
  settings : Settings
  /-- The size of the mark, `null` if nothing gives one. -/
  size : Value
  /-- The encoding of the tick at the median. -/
  medianEncoding : Encoding
  /-- The tooltip of the box and the median. -/
  summary : Encoding
  /-- The tooltip of the whiskers. -/
  whiskerTooltip : Encoding

namespace Look

/-- The encoding without size and color, which only the box shows as they are. -/
def plainEncoding (plan : Plan) : Encoding := plan.lifted.encoding.without ["color", "size"]

/-- The color of a style, or of all marks where a box is only switched on or off. -/
def boxColor (s : Settings) : Value :=
  let color := match s.boxplot.box with
    | some (.style members) => Record.value members "color"
    | _ => Value.ofOption (s.mark.color.map .text)
  if color.truthy then color else .text Defaults.boxColor

/-- A member that is left out unless it is given. -/
def optionalMember (key : String) (v : Value) : Record Value :=
  if v.truthy then [(key, v)] else []

/-- The color of the tick at the median: that of the box, where the box has no height. Elsewhere
the tick keeps its own. -/
def medianColor (plan : Plan) (s : Settings) : Except Fault Value := do
  let field := plan.axis.field.shown
  let lower ← Plan.read ("lower_box_" ++ field)
  let upper ← Plan.read ("upper_box_" ++ field)
  let color := plan.lifted.encoding.value "color"
  let shown ← if color.truthy then color.spread else pure [("value", boxColor s)]
  let condition := Record.override [("test", .text (lower ++ " >= " ++ upper))] shown
  pure (.object [("condition", .object condition)])

def medianEncodingOf (plan : Plan) (s : Settings) : Except Fault Encoding := do
  let color ← medianColor plan s
  let size := optionalMember "size" (plan.lifted.encoding.value "size")
  pure ((Record.override (plainEncoding plan) size).put "color" color)

/-- The rows of a tooltip for all five statistics. -/
def summaryRows (w : Whiskers) : List Tooltip.Row :=
  [⟨Plan.greatestName w, .text "Max"⟩, ⟨"upper_box_", .text "Q3"⟩, ⟨"mid_box_", .text "Median"⟩,
   ⟨"lower_box_", .text "Q1"⟩, ⟨Plan.leastName w, .text "Min"⟩]

def whiskerRows : List Tooltip.Row :=
  [⟨"upper_whisker_", .text "Upper Whisker"⟩, ⟨"lower_whisker_", .text "Lower Whisker"⟩]

def ofPlan (plan : Plan) (mark : MarkDef) (settings : Settings) : Except Fault Look := do
  let size ← mark.property settings "size"
  let medianEncoding ← medianEncodingOf plan settings
  let definition := plan.axis.definition
  let encoding := plan.lifted.encoding
  let summary ← Tooltip.channel (summaryRows plan.whiskers) definition encoding
  let whiskerTooltip ← if plan.whiskers = .minMax then pure summary
    else Tooltip.channel whiskerRows definition encoding
  pure { plan, mark, settings, size, medianEncoding, summary, whiskerTooltip }

def partSettings (l : Look) : Record Value := Settings.openBlock l.settings.boxplot.members

def context (l : Look) (encoding : Encoding) : Part.Context :=
  { mark := l.mark, axis := l.plan.axis, encoding, settings := l.partSettings }

/-- How the composite mark treats invalid data. -/
def invalid (l : Look) : String × Value := ("invalid", l.mark.value "invalid")

def silent : String × Value := ("aria", .bool false)

def rule (l : Look) : MarkDef := [("type", .text "rule"), l.invalid, silent]

def tick (l : Look) : MarkDef :=
  [("type", .text "tick"), ("color", .text "black"), ("opacity", .int 1),
   ("orient", l.plan.orient.across.toValue), l.invalid, silent]

/-- The rules and end ticks of the whiskers. -/
def whiskers (l : Look) : List UnitLayer :=
  let c := l.context (plainEncoding l.plan)
  c.make "rule" l.rule "lower_whisker" "lower_box" l.whiskerTooltip ++
  c.make "rule" l.rule "upper_box" "upper_whisker" l.whiskerTooltip ++
  c.make "ticks" l.tick "lower_whisker" none l.whiskerTooltip ++
  c.make "ticks" l.tick "upper_whisker" none l.whiskerTooltip

def box (l : Look) : List UnitLayer :=
  let mark : MarkDef :=
    [("type", .text "bar")] ++ optionalMember "size" l.size ++
      [("orient", l.plan.orient.toValue), l.invalid, ("ariaRoleDescription", .text "box")]
  (l.context l.plan.lifted.encoding).make "box" mark "lower_box" "upper_box" l.summary

/-- The color that the settings give the median. -/
def medianStyleColor (s : Settings) : Value :=
  match s.boxplot.median with
  | some (.style members) => Record.value members "color"
  | _ => .null

def median (l : Look) : List UnitLayer :=
  let mark : MarkDef :=
    [("type", .text "tick"), l.invalid] ++ optionalMember "color" (medianStyleColor l.settings) ++
      optionalMember "size" l.size ++ [("orient", l.plan.orient.across.toValue), silent]
  (l.context l.medianEncoding).make "median" mark "mid_box" none l.summary

def untitledGuide (definition : Record Value) : Except Fault (Record Value) := do
  let guide := definition.value "axis"
  if guide.truthy then pure ((← guide.members).erase "title") else pure []

def valuePosition (definition : Record Value) : Except Fault (Record Value) := do
  let guide ← untitledGuide definition
  let title := match ContinuousAxis.title definition with
    | .null => []
    | title => [("title", title)]
  let scale := match definition.get? "scale" with
    | some scale => [("scale", scale)]
    | none => []
  pure
    ([("field", definition.value "field"), ("type", definition.value "type")] ++ title ++ scale ++
      optionalMember "axis" (.object guide))

/-- The points beyond the limits. Only they can show tooltips that need the single rows. -/
def outliers (l : Look) (limits : Plan.Limits) : Except Fault (List UnitLayer) := do
  let position ← valuePosition l.plan.axis.definition
  let others := (plainEncoding l.plan).erase "tooltip"
  let color := optionalMember "color" (l.plan.lifted.encoding.value "color")
  let tooltip := optionalMember "tooltip" l.plan.tooltip
  pure (Part.layers l.mark l.partSettings "outliers"
    { transforms := [.filter limits.outside]
      mark := [("type", .text "point")]
      encoding := Record.override [(l.plan.axis.channel, .object position)]
        (others ++ color ++ tooltip) })

end Look

end ChartLowering.Boxplot
