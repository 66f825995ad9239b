import ChartLowering.Composite.Boxplot.Parts

/-!
# Boxplots

A boxplot becomes layers of plain marks. Whiskers up to the extremes come from the same statistics
as the box. Whiskers that leave out outliers need the single rows: these get the quartiles of
their group, and are drawn as outliers or aggregated again as whiskers.
-/

namespace ChartLowering.Boxplot

/-- The extent that a mark definition or the settings give. -/
def extentOf (mark : MarkDef) (settings : Settings) : Value :=
  match mark.value "extent" with
  | .null => settings.boxplot.extent.toValue
  | extent => extent

/-- The layers of outliers and whiskers, in one group if there are outliers. -/
def rowLayer (look : Look) (limits : Plan.Limits) : Except Fault Layer := do
  let steps := look.plan.whiskerSteps limits
  let whiskers := look.whiskers.map Layer.unit
  match ← look.outliers limits with
  | [] => pure (.group (look.plan.quartilesOnRows ++ steps) whiskers)
  | outliers =>
      pure (.group look.plan.quartilesOnRows (outliers.map .unit ++ [.group steps whiskers]))

def draw (outer : Record Value) (look : Look) : Except Fault Expansion := do
  let body := (look.box ++ look.median).map Layer.unit
  if look.plan.whiskers = .tukey then
    let rows ← rowLayer look (← look.plan.limits)
    pure ⟨outer, none, .layers [rows, .group look.plan.statistics body]⟩
  else
    let written ← Expansion.written outer
    let whiskers := look.whiskers.map Layer.unit
    pure ⟨outer, some (written ++ look.plan.statistics), .layers (whiskers ++ body)⟩

/-- The expansion of a boxplot. Its whiskers can be asked for apart from its extent. -/
def expand (spec : Record Value) (settings : Settings := {}) (whiskers : Option Whiskers := none)
    (parse : Shorthand.Reader := Shorthand.members) : Report Expansion := do
  let encoding ← Encoding.normalize (spec.value "encoding") parse
  let spec := spec.put "encoding" (.object encoding)
  let mark := MarkDef.ofValue (← spec.require "mark")
  if !(spec.value "params").isNull then Report.warn .boxplot (.selection (.text markName))
  let extent := extentOf mark settings
  let whiskers ← match whiskers with
    | some whiskers => pure whiskers
    | none => whiskersOf extent
  let multiplier ← multiplierOf extent
  let plan ← Plan.ofSpec spec encoding whiskers multiplier settings.countTitle
  let look ← Look.ofPlan plan mark settings
  draw (Expansion.kept spec) look

end ChartLowering.Boxplot
