import ChartLowering.Grammar.Channel
import ChartLowering.Settings.Block

/-!
# Mark properties

A mark definition names a type and gives properties. What it does not give comes from the settings:
those of its type first, those of all marks last. A property can be drawn under another name, as
`color` is drawn as `fill` or `stroke`, and that name is looked for first.
-/

namespace ChartLowering

/-- The type of a mark and the properties that its definition gives. -/
abbrev MarkDef := Record Value

namespace MarkDef

/-- A definition by its members, or by its type alone. -/
def ofValue : Value → MarkDef
  | .object members => members
  | type => [("type", type)]

def isPath (mark : MarkDef) : Except Fault Bool := (mark.value "type").isAmong Mark.paths

def block (mark : MarkDef) (settings : Settings) : Except Fault (Record Value) := do
  match ← mark.require "type" with
  | .text type => pure (settings.block type)
  | _ => throw .wrongKind

/-- The name under which a property is drawn. -/
def drawnName (property : String) (drawn : Option String) : String :=
  match drawn with
  | none | some "" => property
  | some name => name

/-- What the settings say about a property, `null` if nothing. -/
def configured (mark : MarkDef) (settings : Settings) (property : String)
    (drawn : Option String := none) : Except Fault Value := do
  let block ← mark.block settings
  let ofType := (drawn.bind block.get?).or (block.get? property)
  let ofAll := (Settings.openBlock settings.mark.members).get? (drawnName property drawn)
  pure (Value.ofOption (ofType.or ofAll))

/-- What the definition gives for a property. -/
def given? (mark : MarkDef) (property : String) (drawn : Option String) : Option Value :=
  ((drawn.filter (· != "")).bind mark.get?).or (mark.get? property)

/-- A property from the definition or the settings. Settings can be left to the renderer, which
applies those of a property that is drawn under its own name by itself. -/
def property (mark : MarkDef) (settings : Settings) (name : String)
    (drawn : Option String := none) (leaveSettings : Bool := false) : Except Fault Value :=
  match mark.given? name drawn with
  | some v => pure v
  | none =>
      if leaveSettings && (drawn.isNone || drawn == some name) then pure .null
      else mark.configured settings name drawn

end MarkDef

end ChartLowering
