import ChartLowering.ChannelDef
import ChartLowering.Grammar.Channel
import ChartLowering.InvalidData.Policy
import ChartLowering.Value.Order

/-!
# Scales

The type of a scale, where its definition does not give one, follows from what the channel shows.
-/

namespace ChartLowering

inductive DomainZero where
  | definitely
  | maybe
  | definitelyNot
  deriving DecidableEq, Repr

def DomainZero.name : DomainZero → String
  | definitely => "definitely"
  | maybe => "maybe"
  | definitelyNot => "definitely-not"

/-- The scale of a channel. Its type can be any value that the definition gives. -/
structure Scale where
  name : String
  type : Value
  zero : Bool := false
  domain : Option (List Value) := none
  deriving DecidableEq

namespace Scale

/-- Do numbers reach from below zero to above it? One that compares with nothing hides the others
if it comes first. -/
def spansZero (numbers : List Value) : Bool :=
  (numbers.head?.bind (·.compareInt? 0)).isSome &&
    numbers.any (fun v ↦ (v.compareInt? 0).any Ordering.isLE) &&
    numbers.any (fun v ↦ (v.compareInt? 0).any Ordering.isGE)

/-- Is zero inside the domain, as far as the definition tells? -/
def domainZero (s : Scale) : Except Fault DomainZero := do
  if ← s.type.isAmong ScaleInvalidMode.continuousTypes then
    match s.domain with
    | some values =>
        if values.all Value.isNumber && !values.isEmpty then
          pure (if spansZero values then .definitely else .definitelyNot)
        else pure .maybe
    | none => pure (if s.zero then .definitely else .maybe)
  else pure .definitelyNot

/-- The marks that take up the width of a band. -/
def bandMarks : List String := ["bar", "rect", "image", "arc"]

/-- The channels whose scales start at zero if they can. -/
def zeroChannels : List String := ["x", "y", "size", "theta", "radius"]

def zeroTypes : List String := ["linear", "pow", "sqrt", "symlog"]

/-- The channels on which categories have places of their own. -/
def bandChannels : List String := ["x", "y", "xOffset", "yOffset"]

def categoryType (channel : String) (mark : Value) : Except Fault String := do
  if bandChannels.contains channel then
    pure (if ← mark.isAmong bandMarks then "band" else "point")
  else pure "ordinal"

def defaultType (channel : String) (fd : Option FieldDef) (datum mark : Value) :
    Except Fault String :=
  match fd with
  | none => pure (if datum.isNumber then "linear" else "ordinal")
  | some fd =>
      match fd.type with
      | some .nominal | some .ordinal => categoryType channel mark
      | some .temporal => pure "time"
      | some .quantitative =>
          pure (if fd.isBinned && !Channel.isXOrY channel then "bin-ordinal" else "linear")
      | none => throw (.spec (.typeMissing (.text channel)))

/-- Does the domain have to include zero, where the definition does not say so? -/
def startsAtZero (channel : String) (fd : Option FieldDef) (domain type : Value) :
    Except Fault Bool :=
  if fd.any (fun fd ↦ fd.type == some .quantitative && !fd.isBinned) && domain.isNull &&
      zeroChannels.contains channel then
    type.isAmong zeroTypes
  else pure false

/-- The definition to which the scale of a channel belongs: that of the channel, or else that of
its condition. -/
def scaledDef? (v : Value) : Option Value :=
  if ChannelDef.isFieldDef v || ChannelDef.isDatumDef v then some v
  else (v.member? "condition").filter ChannelDef.isFieldDef

/-- What a definition says of its scale. -/
def parametersOf (members : Record Value) : Except Fault (Record Value) :=
  let given := members.value "scale"
  if given.truthy then given.members "get" else pure []

/-- The type of a scale that is not given one. -/
def impliedType (channel : String) (mark : MarkDef) (fd : Option FieldDef) (datum : Value) :
    Except Fault Value := do
  pure (.text (← defaultType channel fd datum (← mark.require "type")))

def zeroOf (channel : String) (fd : Option FieldDef) (parameters : Record Value) (type : Value) :
    Except Fault Bool :=
  match parameters.value "zero" with
  | .null => startsAtZero channel fd (parameters.value "domain") type
  | zero => pure zero.truthy

/-- The scale that a definition asks for, which can be none. -/
def ofMembers (name channel : String) (mark : MarkDef) (members : Record Value) :
    Except Fault (Option Scale) :=
  if members.get? "scale" == some .null then pure none
  else do
    let fd ← ChannelDef.fieldDef? (.object members)
    let parameters ← parametersOf members
    let given := parameters.value "type"
    let type ← (if given.truthy then pure given
      else impliedType channel mark fd (members.value "datum") : Except Fault Value)
    let zero ← zeroOf channel fd parameters type
    let domain := match parameters.value "domain" with
      | .list values => some values
      | _ => none
    pure (some ⟨name, type, zero, domain⟩)

def ofDefinition? (name channel : String) (mark : MarkDef) (v : Value) :
    Except Fault (Option Scale) :=
  match scaledDef? v with
  | some (.object members) => ofMembers name channel mark members
  | _ => pure none

end Scale

end ChartLowering
