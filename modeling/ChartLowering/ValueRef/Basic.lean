import ChartLowering.ChannelDef
import ChartLowering.Encoding.Lifted
import ChartLowering.Unit.Scale

/-!
# Value references

A value reference tells the renderer how to compute one visual property of a mark: a literal, an
expression, or a field or a datum through a scale.
-/

namespace ChartLowering

abbrev ValueRef := Record Value

namespace ValueRef

/-- A literal, or the expression that a reference to one names. -/
def ofValue (v : Value) : ValueRef :=
  match v.member? "expr", v.member? "signal" with
  | some expression, _ => [("signal", expression)]
  | none, some signal => [("signal", signal)]
  | none, none => [("value", v)]

def groupSize (side : String) : ValueRef := [("field", .object [("group", .text side)])]

/-- A literal on a channel. The words `width` and `height` stand for the size of the group. -/
def ofChannelValue (channel : String) (v : Value) : ValueRef :=
  if ["x", "x2"].contains channel && v == .text "width" then groupSize "width"
  else if ["y", "y2"].contains channel && v == .text "height" then groupSize "height"
  else ofValue v

/-- A reference moved by an offset, if one is given. -/
def moved (offset : Value) (ref : ValueRef) : ValueRef :=
  if offset.truthy then ref.put "offset" offset else ref

/-- A reference through a scale, if there is one with a name. -/
def throughScale (scale : Option String) (ref : ValueRef) : ValueRef :=
  match scale with
  | none | some "" => ref
  | some name => ("scale", .text name) :: ref

def ofDatum (scale : Option String) (datum offset : Value) : ValueRef :=
  let own : ValueRef :=
    match datum.member? "signal", datum.member? "expr" with
    | some signal, _ => [("signal", signal)]
    | none, some expression => [("signal", expression)]
    | none, none => [("value", datum)]
  moved offset (throughScale scale own)

def ofField (scale : Option String) (fd : FieldDef) (suffix : Option String) (offset : Value) :
    Except Fault ValueRef := do
  pure (moved offset (throughScale scale [("field", .text (← fd.reference suffix))]))

/-- The datum or else the field of a definition. -/
def ofDefinition (scale : Option String) (v : Value) (suffix : Option String) (offset : Value) :
    Except Fault ValueRef := do
  match v.member? "datum" with
  | some datum => pure (ofDatum scale datum offset)
  | none =>
      match ← ChannelDef.fieldDef? v with
      | some fd => ofField scale fd suffix offset
      | none => throw (.invariant (.neitherFieldNorDatum v))

def scaleText (scale : Option String) : String := scale.getD "None"

/-- A place between the two ends of a band, as an expression. -/
def betweenText (scale : Option String) (start stop : String) (band : Value) :
    Except Fault String := do
  let near ← Expression.number band.oneMinus
  let far ← Expression.number band
  pure ("scale(\"" ++ scaleText scale ++ "\", " ++ near ++ " * " ++ start ++ " + " ++ far ++
    " * " ++ stop ++ ")")

/-- A place between the two ends of a bin: one of them, or a share of both. -/
def interpolated (scale : Option String) (fd : FieldDef) (band offset : Value) :
    Except Fault ValueRef := do
  if !band.isNumber then throw .wrongKind
  let inside := band.compareInt? 0 == some .gt && band.compareInt? 1 == some .lt
  let read (suffix : Option String) := if inside then fd.datum suffix else fd.reference suffix
  let start ← read none
  let stop ← read "end"
  let name := Value.ofOption (scale.map .text)
  if band.compareInt? 0 == some .eq then
    pure (moved offset [("scale", name), ("field", .text start)])
  else if band.compareInt? 1 == some .eq then
    pure (moved offset [("scale", name), ("field", .text stop)])
  else pure (moved offset [("signal", .text (← betweenText scale start stop band))])

end ValueRef

inductive DomainEnd where
  | least
  | greatest
  deriving DecidableEq, Repr

namespace ValueRef

/-- Zero through a scale, or an end of the domain if zero may lie outside of it. -/
def zeroOrEnd (name : Option String) (scale : Option Scale) (stop : DomainEnd) :
    Except Fault (Option ValueRef) :=
  match scale, name.filter (· != "") with
  | some scale, some name => do
      let domain := "domain('" ++ name ++ "')"
      let edge := match stop with
        | .least => domain ++ "[0]"
        | .greatest => "peek(" ++ domain ++ ")"
      match ← scale.domainZero with
      | .definitely => pure (some [("scale", .text name), ("value", .int 0)])
      | .maybe =>
          pure (some [("signal", .text
            ("scale('" ++ name ++ "', inrange(0, " ++ domain ++ ") ? 0 : " ++ edge ++ ")"))])
      | .definitelyNot =>
          pure (some [("signal", .text ("scale('" ++ name ++ "', " ++ edge ++ ")"))])
  | _, _ => pure none

end ValueRef

end ChartLowering
