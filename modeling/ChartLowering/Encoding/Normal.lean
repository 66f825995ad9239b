import ChartLowering.ChannelDef
import ChartLowering.Defaults
import ChartLowering.Encoding.Shorthand
import ChartLowering.Grammar.Channel
import ChartLowering.Report

/-!
# Normal encodings

In a normal encoding shorthands are spelled out, every field definition has a type by its full
name, and requests for binning have parameters. Definitions of nothing are dropped.
-/

namespace ChartLowering

/-- Channel definitions by the name of their channel. -/
abbrev Encoding := Record Value

namespace Encoding

def asksBinning (bin : Value) : Bool := bin == .bool true || bin.isObject

/-- The type of a field definition that does not name one. -/
def defaultType (members : Record Value) (channel : String) : FieldType :=
  if (members.value "timeUnit").truthy then .temporal
  else if asksBinning (members.value "bin") then .quantitative
  else if (members.value "aggregate").isText then .quantitative
  else if ["latitude", "longitude", "latitude2", "longitude2"].contains channel then .quantitative
  else .nominal

/-- A bare request for binning with the number of bins that the channel takes. -/
def spelledBin (channel : String) (bin : Value) : Value :=
  if bin == .bool true then
    let count := if Channel.isNonPosition channel then Defaults.nonPositionMaxBins
      else Defaults.maxBins
    .object [("maxbins", .int count)]
  else bin

/-- The type of a field definition, named or not. -/
def typeOf (channel : String) (members : Record Value) : Except Fault FieldType :=
  match members.value "type" with
  | .null => pure (defaultType members channel)
  | given =>
      match FieldType.read given with
      | .error (.unknownType type) => throw (.spec (.channelType (.text channel) type))
      | type => type

/-- A field definition with its type and its bins spelled out. -/
def spellField (channel : String) (members : Record Value) : Except Fault (Record Value) := do
  let type ← typeOf channel members
  let typed := members.put "type" (.text type.name)
  match typed.get? "bin" with
  | some bin => pure (typed.put "bin" (spelledBin channel bin))
  | none => pure typed

/-- A condition, which has a type and bins only if it is a field definition. -/
def spellCondition (channel : String) (condition : Value) : Except Fault Value := do
  let members ← condition.asRecord
  if ChannelDef.isFieldDef condition then pure (.object (← spellField channel members))
  else pure (.object members)

def shorthandMembers (s : String) (parse : Shorthand.Reader := Shorthand.members) :
    Except Fault (Record Value) := do
  match ← parse s with
  | [] => throw (.spec (.shorthand (.text s)))
  | members => pure members

/-- The members of a definition in any of its forms. -/
def rawMembers (channel : String) (v : Value) (parse : Shorthand.Reader := Shorthand.members) :
    Except Fault (Record Value) :=
  match v with
  | .fieldDef members => pure (Value.storedAttributes members)
  | .text s => shorthandMembers s parse
  | .object members => pure members
  | v => throw (.spec (.channelDefinition (.text channel) v))

/-- The members of a definition, those of its shorthand below the others. -/
def spelledMembers (channel : String) (v : Value)
    (parse : Shorthand.Reader := Shorthand.members) : Except Fault (Record Value) := do
  let raw ← rawMembers channel v parse
  let members := raw.erase "shorthand"
  match raw.get? "shorthand" with
  | some (.text s) => pure ((← shorthandMembers s parse).override members)
  | _ => pure members

/-- A definition without a field, with the conditions in it spelled out. -/
def spellConditions (channel : String) (members : Record Value) : Except Fault (Record Value) := do
  match members.get? "condition" with
  | some (.list conditions) => do
      pure (members.put "condition" (.list (← conditions.mapM (spellCondition channel))))
  | some condition =>
      if ChannelDef.isFieldDef condition then do
        pure (members.put "condition" (← spellCondition channel condition))
      else pure members
  | none => pure members

/-- A definition in normal form, or nothing if it defines nothing. -/
def normalizeDef (channel : String) (v : Value) (parse : Shorthand.Reader := Shorthand.members) :
    Report (Option Value) := do
  let members ← spelledMembers channel v parse
  if ChannelDef.isFieldDef (.object members) then
    let spelled ← spellField channel members
    pure (some (.object spelled))
  else
    let spelled ← spellConditions channel members
    if spelled.has "value" || spelled.has "datum" || spelled.has "condition" then
      pure (some (.object spelled))
    else
      Report.warn .encoding (.emptyDefinition (.text channel))
      pure none

/-- The definitions of one channel in normal form. -/
def normalizeChannel (channel : String) (v : Value)
    (parse : Shorthand.Reader := Shorthand.members) : Report (Option Value) :=
  match v with
  | .null => pure none
  | .list items => do
      let kept := (← items.mapM fun v ↦ normalizeDef channel v parse).filterMap id
      pure (if kept.isEmpty then none else some (.list kept))
  | v => normalizeDef channel v parse

def normalizeMembers (members : Record Value) (parse : Shorthand.Reader := Shorthand.members) :
    Report Encoding :=
  match members with
  | [] => pure []
  | (channel, v) :: rest => do
      let kept ← normalizeChannel channel v parse
      let rest ← normalizeMembers rest parse
      pure (match kept with
        | some v => (channel, v) :: rest
        | none => rest)

/-- An encoding in normal form. One that is not given is empty. -/
def normalize (encoding : Value) (parse : Shorthand.Reader := Shorthand.members) :
    Report Encoding := do
  if encoding.truthy then
    let members ← encoding.members
    normalizeMembers members parse
  else pure []

end Encoding

end ChartLowering
