import ChartLowering.InvalidData.Policy
import ChartLowering.Unit.Model
import ChartLowering.ValueRef.Basic

/-!
# What is shown for invalid values

A channel whose policy lets invalid values through shows something else in their place.
-/

namespace ChartLowering

def FieldDef.isCounting (fd : FieldDef) : Bool :=
  match fd.aggregate with
  | some (.named op) => Aggregate.isCounting op
  | _ => false

namespace InvalidData

/-- The policy of a scale for one field, or for none. -/
def policy (settings : Settings) (mark : MarkDef) (channel : String) (scale : Option Scale)
    (fd : Option FieldDef) : Except Fault ScaleInvalidMode :=
  ScaleInvalidMode.ofChannel settings mark channel (Value.ofOption (scale.map Scale.type))
    (fd.any FieldDef.isCounting)

/-- What stands in for an invalid value: what the settings give for the channel, or else zero or
the least value of the domain. -/
def substitute (settings : Settings) (channel : String) (scaleName : Option String)
    (scale : Option Scale) : Except Fault (Option ValueRef) :=
  match (ScaleInvalidMode.shown? settings channel).bind (·.member? "value") with
  | some v =>
      match v.member? "signal" with
      | some signal => pure (some [("signal", signal)])
      | none => pure (some [("value", v)])
  | none => ValueRef.zeroOrEnd scaleName scale .least

/-- The reference for the invalid values of a field, if the channel shows any. -/
def override? (settings : Settings) (mark : MarkDef) (channel : String)
    (scaleName : Option String) (scale : Option Scale) (v : Value) :
    Except Fault (Option ValueRef) := do
  let fd ← ChannelDef.fieldDef? v
  let mode ← policy settings mark channel scale fd
  match fd with
  | some fd =>
      if mode = .show then
        let ref ← substitute settings channel scaleName scale
        let test := Expression.isNotFinite (← fd.datum)
        pure (some (Record.override [("test", .text test)] (ref.getD [])))
      else pure none
  | none => pure none

end InvalidData

/-- The reference for the invalid values of a channel, if it shows any. -/
def UnitModel.invalidOverride? (m : UnitModel) (channel : String) :
    Except Fault (Option ValueRef) :=
  InvalidData.override? m.settings m.mark channel (m.scaleName? channel) (m.scale? channel)
    (m.definition channel)

end ChartLowering
