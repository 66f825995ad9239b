import ChartLowering.Encode.Guide
import ChartLowering.InvalidData.Override
import ChartLowering.ValueRef.MidPoint

/-!
# Entries for channels other than positions
-/

namespace ChartLowering

/-- What a channel shows that no definition decides. -/
inductive Fallback where
  /-- A reference, or nothing. -/
  | ref (ref : Option ValueRef)
  /-- A literal, `null` for the property of the mark. -/
  | value (v : Value)

namespace UnitModel

def context (m : UnitModel) (channel : String) : ValueRef.Context :=
  { channel
    scale := m.scale? channel
    scaleName := m.scaleName? channel
    mark := m.mark
    settings := m.settings }

/-- The reference that a fallback stands for. Without a condition the renderer applies its own
settings, so they are left out; a condition needs them as the value that holds otherwise. -/
def fallbackRef (m : UnitModel) (channel : String) (drawn : Option String) :
    Fallback → Except Fault (Option ValueRef)
  | .ref ref => pure ref
  | .value v => do
      let leaveSettings := !ChannelDef.isConditional (m.definition channel)
      let v ← if v.isNull then m.mark.property m.settings channel drawn leaveSettings else pure v
      pure (v.given?.map ValueRef.ofValue)

/-- The entry for a channel that is not a position. -/
def nonPosition (m : UnitModel) (channel : String) (fallback : Fallback := .value .null)
    (drawn : Option String := none) : Report (Record Value) := do
  let default ← m.fallbackRef channel drawn fallback
  let invalid ← m.invalidOverride? channel
  Encode.wrapped (MarkDef.drawnName channel drawn) (m.definition channel)
    (fun v ↦ ValueRef.midPoint (m.context channel) v (pure default)) invalid

end UnitModel

end ChartLowering
