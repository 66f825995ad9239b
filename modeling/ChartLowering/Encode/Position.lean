import ChartLowering.Encode.NonPosition

/-!
# Entries for positions
-/

namespace ChartLowering

/-- Where a mark is placed on a channel that nothing defines. -/
inductive DefaultPosition where
  | zeroOrEnd (stop : DomainEnd)
  | middle
  | nowhere
  deriving DecidableEq, Repr

namespace UnitModel

/-- The edge of the group at which a channel without a scale begins or ends. -/
def groupEdge (channel : String) (stop : DomainEnd) : Option ValueRef :=
  let zero : ValueRef := [("value", .int 0)]
  let signal (text : String) : ValueRef := [("signal", .text text)]
  match channel, stop with
  | "radius", .least | "theta", .least | "x", .least | "y", .greatest => some zero
  | "radius", .greatest => some (signal "min(width,height)/2")
  | "theta", .greatest => some (signal "2*PI")
  | "x", .greatest => some (ValueRef.groupSize "width")
  | "y", .least => some (ValueRef.groupSize "height")
  | _, _ => none

def groupMiddle (channel : String) : Option ValueRef :=
  let half (side : String) : ValueRef :=
    [("signal", .text side), ("mult", .float (.ofDecimal false 5 (-1)))]
  match channel with
  | "x" => some (half "width")
  | "y" => some (half "height")
  | _ => none

/-- The position on a channel that nothing defines: the property of the mark, or else the default
one. -/
def defaultPosition (m : UnitModel) (channel : String) (position : DefaultPosition)
    (drawn : Option String := none) : Except Fault (Option ValueRef) := do
  match ← m.mark.property m.settings channel drawn with
  | .null =>
      match position with
      | .zeroOrEnd stop => do
          let ref ← ValueRef.zeroOrEnd (m.scaleName? channel) (m.scale? channel) stop
          pure (ref.or (groupEdge channel stop))
      | .middle => pure (groupMiddle channel)
      | .nowhere => pure none
  | v => pure (some (ValueRef.ofChannelValue channel v))

/-- The entry for a position. A reference for invalid values comes before it. -/
def pointPosition (m : UnitModel) (channel : String) (position : DefaultPosition)
    (drawn : Option String := none) : Except Fault (Record Value) := do
  let default := m.defaultPosition channel position drawn
  match ← ValueRef.midPoint (m.context channel) (m.definition channel) default with
  | none => pure []
  | some ref =>
      let invalid ← m.invalidOverride? channel
      let refs := match invalid with
        | some invalid => .list [.object invalid, .object ref]
        | none => .object ref
      pure [(MarkDef.drawnName channel drawn, refs)]

end UnitModel

end ChartLowering
