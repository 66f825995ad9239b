import ChartLowering.ValueRef.Basic

/-!
# Center values

The reference for the center of what a channel shows. A binned field, or a time unit of a temporal
one, is shown at a place inside its band.
-/

namespace ChartLowering.ValueRef

/-- Where inside its band a field is shown, `null` if nothing says so. -/
def bandPosition (settings : Settings) (mark : MarkDef) (fd : FieldDef) : Except Fault Value :=
  match fd.extras.value "bandPosition" with
  | .null =>
      if fd.givenTimeUnit?.isSome then mark.configured settings "timeUnitBandPosition"
      else if fd.isBinned then pure (.float (.ofDecimal false 5 (-1)))
      else pure .null
  | explicit => pure explicit

/-- Does the scale list its values one by one? -/
def isDiscrete (scale : Option Scale) : Except Fault Bool :=
  match scale with
  | some scale => scale.type.isAmong ScaleType.discrete
  | none => pure false

/-- Is the field shown by bands, given its place inside them? -/
def banded (fd : FieldDef) (band : Value) : Bool :=
  fd.isBinned || (band.truthy && fd.givenTimeUnit?.isSome && fd.type == some .temporal)

structure Context where
  channel : String
  scale : Option Scale
  scaleName : Option String
  mark : MarkDef
  settings : Settings
  /-- Where inside its band a field is shown, `null` if the definition decides. -/
  band : Value := .null
  offset : Value := .null

/-- The center of a band. On a scale that lists its values, a bin is one of them. -/
def ofBand (c : Context) (fd : FieldDef) (band : Value) : Except Fault ValueRef := do
  let interpolates ← if band.truthy then (! ·) <$> isDiscrete c.scale else pure false
  if interpolates then interpolated c.scaleName fd band c.offset
  else
    let suffix := if Lifted.needsRange fd c.channel then some "range" else none
    ofField c.scaleName fd suffix c.offset

/-- The center of what a field or datum definition shows. -/
def ofShown (c : Context) (v : Value) : Except Fault ValueRef := do
  let plain : Except Fault ValueRef := do
    let suffix := if ← isDiscrete c.scale then some "range" else none
    ofDefinition c.scaleName v suffix c.offset
  match ← ChannelDef.fieldDef? v with
  | some fd =>
      if fd.type.isSome then
        let band ← if c.band.isNull then bandPosition c.settings c.mark fd else pure c.band
        if banded fd band then ofBand c fd band else plain
      else plain
  | none => plain

/-- The center of what a channel shows. A definition of neither a field, nor a datum, nor a value
leaves it to the default. -/
def midPoint (c : Context) (v : Value) (default : Except Fault (Option ValueRef)) :
    Except Fault (Option ValueRef) := do
  if ChannelDef.isFieldDef v || ChannelDef.isDatumDef v then pure (some (← ofShown c v))
  else
    match v.member? "value" with
    | some value => pure (some (moved c.offset (ofChannelValue c.channel value)))
    | none =>
        match ← default with
        | some [] => pure (some [])
        | some ref => pure (some (moved c.offset ref))
        | none => pure none

end ChartLowering.ValueRef
