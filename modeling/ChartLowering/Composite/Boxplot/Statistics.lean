import ChartLowering.Composite.Layer
import ChartLowering.Composite.Tooltip
import ChartLowering.Grammar.Extent

/-!
# Statistics of a boxplot

For each group the quartiles, the median and the ends of the whiskers of one field are computed.
Whiskers reach to the extremes, or no further than a multiple of the interquartile range beyond the
quartiles.
-/

namespace ChartLowering.Boxplot

def markName : String := "boxplot"

def parts : List String := ["box", "median", "outliers", "rule", "ticks"]

def whiskersOf (extent : Value) : Except Fault Whiskers :=
  match extent with
  | .int _ | .float _ => pure .tukey
  | extent =>
      if extent == .text Whiskers.tukey.name then pure .tukey
      else if extent == .text Whiskers.minMax.name then pure .minMax
      else throw (.spec (.extent (.text markName) extent))

/-- How many times the interquartile range the whiskers may reach. -/
def multiplierOf (extent : Value) : Except Fault Binary64 :=
  match extent with
  | .int i =>
      match Binary64.ofInt? i with
      | some x => pure x
      | none => throw .overflow
  | .float x => pure x
  | _ => pure Defaults.tukeyMultiplier

/-- What the parts of a boxplot are drawn from. -/
structure Plan where
  whiskers : Whiskers
  multiplier : Binary64
  orient : Orientation
  axis : ContinuousAxis
  /-- The name of the column of the field. -/
  column : String
  /-- The steps that hold whiskers inside the range of the data. -/
  bounds : List Transform
  /-- The tooltips that need the single rows. -/
  tooltip : Value
  /-- The rest of the encoding and what was lifted from it. -/
  lifted : Extraction

namespace Plan

def read (path : String) : Except Fault String := Expression.field path "datum"

/-- The multiplier as a number of the expression language. -/
def multiplierText (multiplier : Binary64) : Except Fault String :=
  Expression.number (.float multiplier)

/-- The quartiles of a field. -/
def quartiles (field : Value) (column : String) : List Measure :=
  [⟨"q1", some field, "lower_box_" ++ column⟩, ⟨"q3", some field, "upper_box_" ++ column⟩]

/-- How the columns of the least and the greatest value begin. They are the ends of the whiskers
only if whiskers reach to the extremes. -/
def leastName (whiskers : Whiskers) : String :=
  if whiskers = .minMax then "lower_whisker_" else "min_"

def greatestName (whiskers : Whiskers) : String :=
  if whiskers = .minMax then "upper_whisker_" else "max_"

/-- The quartiles, the median and the extremes. -/
def measures (whiskers : Whiskers) (field : Value) (column : String) : List Measure :=
  quartiles field column ++
    [⟨"median", some field, "mid_box_" ++ column⟩,
     ⟨"min", some field, leastName whiskers ++ column⟩,
     ⟨"max", some field, greatestName whiskers ++ column⟩]

/-- The steps that compute the ends of whiskers from quartiles and extremes in one row. -/
def boundSteps (multiplier : Binary64) (column : String) : Except Fault (List Transform) := do
  let lower ← read ("lower_box_" ++ column)
  let upper ← read ("upper_box_" ++ column)
  let range ← read ("iqr_" ++ column)
  let k ← multiplierText multiplier
  let greatest ← read ("max_" ++ column)
  let least ← read ("min_" ++ column)
  pure
    [.calculate (upper ++ " - " ++ lower) ("iqr_" ++ column),
     .calculate ("min(" ++ upper ++ " + " ++ range ++ " * " ++ k ++ ", " ++ greatest ++ ")")
       ("upper_whisker_" ++ column),
     .calculate ("max(" ++ lower ++ " - " ++ range ++ " * " ++ k ++ ", " ++ least ++ ")")
       ("lower_whisker_" ++ column)]

/-- The plan for a specification whose encoding is in normal form. -/
def ofSpec (spec : Record Value) (encoding : Encoding) (whiskers : Whiskers)
    (multiplier : Binary64) (countTitle : String) : Report Plan := do
  let orient ← ContinuousAxis.orientation spec markName
  let axis ← ContinuousAxis.ofSpec spec orient markName
  let column ← FieldPath.flatten axis.field.shown
  let bounds ← if whiskers = .boundedIqr then boundSteps multiplier column else pure []
  let split := Tooltip.split (encoding.erase axis.channel)
  let lifted ← Extraction.ofEncoding split.encoding countTitle
  pure { whiskers, multiplier, orient, axis, column, bounds, tooltip := split.plain, lifted }

/-- The steps that compute all statistics in one row for each group. -/
def statistics (p : Plan) : List Transform :=
  p.lifted.prepared ++
    .aggregate (p.lifted.measures ++ measures p.whiskers p.axis.field p.column) p.lifted.groupby ::
    p.bounds

/-- The steps that add the quartiles of its group to every row. -/
def quartilesOnRows (p : Plan) : List Transform :=
  p.lifted.prepared ++ [.joinAggregate (quartiles p.axis.field p.column) p.lifted.groupby]

/-- The limits beyond which a value is an outlier, and the value, as expressions. -/
structure Limits where
  lower : String
  upper : String
  value : String

def limits (p : Plan) : Except Fault Limits := do
  let field := p.axis.field.shown
  let lower ← read ("lower_box_" ++ field)
  let upper ← read ("upper_box_" ++ field)
  let range := "(" ++ upper ++ " - " ++ lower ++ ")"
  let k ← multiplierText p.multiplier
  pure
    { lower := lower ++ " - " ++ k ++ " * " ++ range
      upper := upper ++ " + " ++ k ++ " * " ++ range
      value := ← read field }

namespace Limits

def outside (l : Limits) : String :=
  "(" ++ l.value ++ " < " ++ l.lower ++ ") || (" ++ l.value ++ " > " ++ l.upper ++ ")"

def inside (l : Limits) : String :=
  "(" ++ l.lower ++ " <= " ++ l.value ++ ") && (" ++ l.value ++ " <= " ++ l.upper ++ ")"

end Limits

/-- The ends of the whiskers of rows that have their quartiles already. -/
def whiskerMeasures (p : Plan) : List Measure :=
  let field := p.axis.field
  let name := field.shown
  [⟨"min", some field, "lower_whisker_" ++ p.column⟩,
   ⟨"max", some field, "upper_whisker_" ++ p.column⟩,
   ⟨"min", some (.text ("lower_box_" ++ name)), "lower_box_" ++ p.column⟩,
   ⟨"max", some (.text ("upper_box_" ++ name)), "upper_box_" ++ p.column⟩]

/-- The steps that compute the ends of the whiskers from the rows within the limits. -/
def whiskerSteps (p : Plan) (l : Limits) : List Transform :=
  [.filter l.inside, .aggregate (p.whiskerMeasures ++ p.lifted.measures) p.lifted.groupby]

end Plan

end ChartLowering.Boxplot
