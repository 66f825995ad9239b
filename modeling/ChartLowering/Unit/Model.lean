import ChartLowering.Encoding.Normal
import ChartLowering.Unit.Scale

/-!
# Unit models

A unit is a single view: one mark, one encoding in normal form, and the scales of its channels.
-/

namespace ChartLowering

namespace Encoding

/-- Every definition with its channel, the items of lists one by one. -/
def definitions (encoding : Encoding) : List (String × Value) :=
  encoding.flatMap fun m ↦ m.2.itemsOrSelf.map fun v ↦ (m.1, v)

/-- Goes through the field definitions in the order of channels and items. A definition without a
field counts with that of its condition. -/
def foldFieldDefs {α : Type} (encoding : Encoding) (step : α → String → FieldDef → Report α)
    (start : α) : Report α :=
  encoding.definitions.foldlM
    (fun found m ↦ do
      match ← ChannelDef.anyFieldDef? m.2 with
      | some fd => step found m.1 fd
      | none => pure found)
    start

end Encoding

structure UnitModel where
  name : String
  settings : Settings
  mark : MarkDef
  encoding : Encoding
  scales : Record Scale
  deriving DecidableEq

namespace UnitModel

/-- The name of the scale of a channel, after that of the view if it has one. -/
def scaleName (view channel : String) : String :=
  if view = "" then channel else view ++ "_" ++ channel

/-- The scale of one definition of an encoding. A list has none. -/
def initScale? (view : String) (mark : MarkDef) (channel : String) (v : Value) :
    Except Fault (Option Scale) :=
  if Channel.isScaled channel && !v.isList then
    Scale.ofDefinition? (scaleName view channel) channel mark v
  else pure none

/-- The scales of an encoding, in the order of its channels. -/
def initScales (view : String) (mark : MarkDef) (encoding : Encoding) :
    Except Fault (Record Scale) := do
  let found ← encoding.mapM fun m ↦ do
    pure ((← initScale? view mark m.1 m.2).map fun scale ↦ (m.1, scale))
  pure (found.filterMap id)

def ofSpec (spec : Record Value) (settings : Settings := {}) (name : String := "")
    (parse : Shorthand.Reader := Shorthand.members) : Report UnitModel := do
  let mark := spec.value "mark"
  if mark.isNull then throw (.spec .markMissing)
  let mark := MarkDef.ofValue mark
  let encoding ← Encoding.normalize (spec.value "encoding") parse
  let scales ← initScales name mark encoding
  pure { name, settings, mark, encoding, scales }

def markType (m : UnitModel) : Except Fault Value := m.mark.require "type"

def scale? (m : UnitModel) (channel : String) : Option Scale := m.scales.get? channel

def scaleName? (m : UnitModel) (channel : String) : Option String :=
  (m.scale? channel).map Scale.name

/-- What the encoding maps a channel to, `null` if nothing. -/
def definition (m : UnitModel) (channel : String) : Value := m.encoding.value channel

def hasField (m : UnitModel) (channel : String) : Bool :=
  (m.definition channel).itemsOrSelf.any ChannelDef.isFieldDef

end UnitModel

end ChartLowering
