import ChartLowering.Defaults
import ChartLowering.Grammar.Extent
import ChartLowering.Grammar.InvalidMode
import ChartLowering.Value.Opened

/-!
# Settings

Defaults for marks, for the parts of composite marks and for scales. Members without a meaning of
their own are kept in every section.
-/

namespace ChartLowering

/-- A part of a composite mark is switched on or off, or on with a style. -/
inductive Toggle where
  | flag (on : Bool)
  | style (members : Record Value)
  deriving DecidableEq

/-- Whiskers by a multiple of the interquartile range, or by name. -/
inductive BoxplotExtent where
  | multiplier (k : Binary64)
  | tukey
  | minMax
  deriving DecidableEq

structure MarkSettings where
  color : Option String := some Defaults.boxColor
  invalid : Option MarkInvalidMode := some .breakPathsShowPathDomains
  extras : Record Value := []
  deriving DecidableEq

structure BoxplotSettings where
  extent : BoxplotExtent := .multiplier Defaults.tukeyMultiplier
  size : Option Binary64 := some (.ofDecimal false Defaults.boxplotSize 0)
  box : Option Toggle := some (.style [])
  median : Option Toggle := some (.style [("color", .text "white")])
  outliers : Option Toggle := some (.style [])
  rule : Option Toggle := some (.style [])
  ticks : Option Toggle := some (.style [])
  extras : Record Value := []
  deriving DecidableEq

structure ErrorbarSettings where
  extent : ErrorbarExtent := .stderr
  rule : Option Toggle := some (.flag true)
  ticks : Option Toggle := some (.flag false)
  extras : Record Value := []
  deriving DecidableEq

structure ScaleSettings where
  /-- What each channel shows for invalid values. -/
  invalid : Option (Record Value) := none
  extras : Record Value := []
  deriving DecidableEq

/-- The marks that have a block of settings of their own, with its default. -/
def markBlockDefaults : Record (Record Value) :=
  [("bar", []), ("tick", [("thickness", .int 1)]), ("rule", []), ("point", []), ("line", []),
   ("area", []), ("rect", []), ("text", [])]

structure Settings where
  mark : MarkSettings := {}
  boxplot : BoxplotSettings := {}
  errorbar : ErrorbarSettings := {}
  scale : ScaleSettings := {}
  countTitle : String := Defaults.countTitle
  markBlocks : Record (Record Value) := markBlockDefaults
  extras : Record Value := []
  deriving DecidableEq

def Toggle.toValue : Toggle → Value
  | flag on => .bool on
  | style members => .object members

def toggleValue (t : Option Toggle) : Value := Value.ofOption (t.map Toggle.toValue)

def BoxplotExtent.toValue : BoxplotExtent → Value
  | multiplier k => .float k
  | tukey => .text Whiskers.tukey.name
  | minMax => .text Whiskers.minMax.name

def MarkSettings.members (s : MarkSettings) : Record Value :=
  [("color", Value.ofOption (s.color.map .text)),
   ("invalid", Value.ofOption (s.invalid.map fun m ↦ .text m.name))] ++ s.extras

def BoxplotSettings.members (s : BoxplotSettings) : Record Value :=
  [("extent", s.extent.toValue), ("size", Value.ofOption (s.size.map .float)),
   ("box", toggleValue s.box), ("median", toggleValue s.median),
   ("outliers", toggleValue s.outliers), ("rule", toggleValue s.rule),
   ("ticks", toggleValue s.ticks)] ++ s.extras

def ErrorbarSettings.members (s : ErrorbarSettings) : Record Value :=
  [("extent", .text s.extent.name), ("rule", toggleValue s.rule),
   ("ticks", toggleValue s.ticks)] ++ s.extras

def ScaleSettings.members (s : ScaleSettings) : Record Value :=
  [("invalid", Value.ofOption (s.invalid.map .object))] ++ s.extras

namespace Settings

/-- All settings as members, in the form in which they are read. -/
def members (s : Settings) : Record Value :=
  Value.openedMembers .whole
    ([("mark", .object s.mark.members), ("boxplot", .object s.boxplot.members),
      ("errorbar", .object s.errorbar.members), ("scale", .object s.scale.members),
      ("countTitle", .text s.countTitle)] ++
      s.markBlocks.map (fun m ↦ (m.1, .object m.2)) ++ s.extras)

end Settings

end ChartLowering
