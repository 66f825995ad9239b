import ChartLowering.Encoding.Lifted
import ChartLowering.Mark.Property

/-!
# Layers and transforms

What a composite mark expands into: layers of plain marks, alone or in groups, with the transforms
that prepare their data.
-/

namespace ChartLowering

inductive Transform where
  /-- A step that the author has written. -/
  | given (v : Value)
  | bin (t : BinTransform)
  | timeUnit (t : TimeUnitTransform)
  /-- One row for each group. -/
  | aggregate (measures : List Measure) (groupby : List String)
  /-- The aggregates of its group on every row. -/
  | joinAggregate (measures : List Measure) (groupby : List String)
  | calculate (expr output : String)
  | filter (expr : String)
  deriving DecidableEq

namespace Transform

def grouped (key : String) (measures : List Measure) (groupby : List String) : Value :=
  .object
    [(key, .list (measures.map Measure.toValue)), ("groupby", .list (groupby.map .text))]

def toValue : Transform → Value
  | given v => v
  | bin t => t.toValue
  | timeUnit t => t.toValue
  | aggregate measures groupby => grouped "aggregate" measures groupby
  | joinAggregate measures groupby => grouped "joinaggregate" measures groupby
  | calculate expr output => .object [("calculate", .text expr), ("as", .text output)]
  | filter expr => .object [("filter", .text expr)]

/-- Transforms as a member, which is left out if there are none. -/
def members (transforms : List Transform) : Record Value :=
  if transforms.isEmpty then []
  else [("transform", .list (transforms.map toValue))]

end Transform

/-- The bins and time units that an encoding asks for, as transforms. -/
def Extraction.prepared (e : Extraction) : List Transform :=
  e.bins.map .bin ++ e.timeUnits.map .timeUnit

structure UnitLayer where
  transforms : List Transform := []
  mark : MarkDef
  encoding : Encoding
  deriving DecidableEq

def UnitLayer.members (l : UnitLayer) : Record Value :=
  Transform.members l.transforms ++
    [("mark", .object l.mark), ("encoding", .object l.encoding)]

inductive Layer where
  | unit (layer : UnitLayer)
  | group (transforms : List Transform) (layers : List Layer)

namespace Layer

mutual

def toValue : Layer → Value
  | unit layer => .object layer.members
  | group transforms layers =>
      .object (Transform.members transforms ++ [("layer", .list (toValues layers))])
termination_by structural layer => layer

def toValues : List Layer → List Value
  | [] => []
  | layer :: rest => toValue layer :: toValues rest
termination_by structural layers => layers

end

end Layer

/-- What the expansion of a composite mark draws. -/
inductive Drawing where
  | layers (layers : List Layer)
  | single (layer : UnitLayer)
  | nothing

/-- A specification after its composite mark has been expanded: the members that it keeps, the
transforms of the whole if they differ from those kept, and what is drawn. -/
structure Expansion where
  outer : Record Value
  transforms : Option (List Transform)
  drawing : Drawing

namespace Expansion

/-- The members that an expansion adds to those that it keeps. -/
def added (e : Expansion) : Record Value :=
  (match e.transforms with
    | some transforms => [("transform", .list (transforms.map Transform.toValue))]
    | none => []) ++
  match e.drawing with
  | .layers layers => [("layer", .list (Layer.toValues layers))]
  | .single layer => layer.members
  | .nothing => []

def toRecord (e : Expansion) : Record Value := Record.override e.outer e.added

/-- The members of a specification that its expansion keeps. -/
def kept (spec : Record Value) : Record Value :=
  spec.without ["mark", "encoding", "params", "projection"]

/-- The transforms that the author has written. -/
def written (spec : Record Value) : Except Fault (List Transform) := do
  let given := spec.value "transform"
  if given.truthy then pure ((← given.elements).map .given) else pure []

end Expansion

end ChartLowering
