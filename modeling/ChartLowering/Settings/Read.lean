import ChartLowering.Number.Read
import ChartLowering.Settings.Basic

/-!
# Reading settings

Settings are read from an object. A section that is missing has its defaults, and so has a member
of a section.
-/

namespace ChartLowering

namespace Toggle

def ofWord? (s : String) : Option Bool :=
  let word := Text.lower s
  if ["1", "t", "y", "yes", "on", "true"].contains word then some true
  else if ["0", "f", "n", "no", "off", "false"].contains word then some false
  else none

def ofValue? : Value → Option Toggle
  | .bool on => some (flag on)
  | .object members => some (style members)
  | .int 0 => some (flag false)
  | .int 1 => some (flag true)
  | .float x =>
      match x.toInt? with
      | some 0 => some (flag false)
      | some 1 => some (flag true)
      | _ => none
  | .text s => (ofWord? s).map flag
  | _ => none

end Toggle

namespace Settings

/-- A number, true and false being one and zero. -/
def double? : Value → Option Binary64
  | .float x => some x
  | .int i => Binary64.ofInt? i
  | .bool b => Binary64.ofInt? (if b then 1 else 0)
  | _ => none

/-- A number, or the one that a text spells. An integer too large for a double is a fault. -/
def double : Value → Except Fault Binary64
  | .text s =>
      match Binary64.ofText? s with
      | some x => pure x
      | none => throw .badContent
  | v =>
      match double? v, v with
      | some x, _ => pure x
      | none, .int _ => throw .overflow
      | none, _ => throw .wrongKind

/-- The double that a text spells. Blanks around it do not count, and neither do single low lines
inside it if there are no blanks. -/
def spelledDouble? (s : String) : Option Binary64 :=
  let cs := s.toList
  (Binary64.ofChars? (Text.trimOf Text.isMargin cs)).or
    (if cs.head? = some '_' ∨ cs.getLast? = some '_' ∨ Text.occurs "__" s then none
     else Binary64.ofChars? (cs.filter (· != '_')))

/-- A number or a text that spells one. -/
def size? : Value → Option Binary64
  | .text s => spelledDouble? s
  | v => double? v

def extent? : Value → Option BoxplotExtent
  | .text "tukey" => some .tukey
  | .text "min-max" => some .minMax
  | .text _ => none
  | v => (double? v).map .multiplier

/-- A member that may be missing but not `null`. -/
def defaulted {α : Type} (read? : Value → Option α) (default : α) (members : Record Value)
    (key : String) : Except Fault α :=
  match members.get? key with
  | none => pure default
  | some v =>
      match read? v with
      | some a => pure a
      | none => throw .invalidForm

/-- A member that may be missing or `null`. -/
def nullable {α : Type} (read? : Value → Option α) (default : Option α) (members : Record Value)
    (key : String) : Except Fault (Option α) :=
  match members.get? key with
  | none => pure default
  | some v => v.optional read?

def readMark (members : Record Value) : Except Fault MarkSettings := do
  let default : MarkSettings := {}
  pure
    { color := ← nullable Value.text? default.color members "color"
      invalid := ← nullable (fun v ↦ v.text?.bind MarkInvalidMode.ofName?) default.invalid members
        "invalid"
      extras := members.without ["color", "invalid"] }

def readBoxplot (members : Record Value) : Except Fault BoxplotSettings := do
  let default : BoxplotSettings := {}
  pure
    { extent := ← defaulted extent? default.extent members "extent"
      size := ← nullable size? default.size members "size"
      box := ← nullable Toggle.ofValue? default.box members "box"
      median := ← nullable Toggle.ofValue? default.median members "median"
      outliers := ← nullable Toggle.ofValue? default.outliers members "outliers"
      rule := ← nullable Toggle.ofValue? default.rule members "rule"
      ticks := ← nullable Toggle.ofValue? default.ticks members "ticks"
      extras :=
        members.without ["extent", "size", "box", "median", "outliers", "rule", "ticks"] }

def readErrorbar (members : Record Value) : Except Fault ErrorbarSettings := do
  let default : ErrorbarSettings := {}
  pure
    { extent := ← defaulted (fun v ↦ v.text?.bind ErrorbarExtent.ofName?) default.extent members
        "extent"
      rule := ← nullable Toggle.ofValue? default.rule members "rule"
      ticks := ← nullable Toggle.ofValue? default.ticks members "ticks"
      extras := members.without ["extent", "rule", "ticks"] }

def readScale (members : Record Value) : Except Fault ScaleSettings := do
  pure
    { invalid := ← nullable Value.members? none members "invalid"
      extras := members.without ["invalid"] }

/-- The title of counts may also be called `count_title`, but only if there is no `countTitle`. -/
def countTitleKey (members : Record Value) : String :=
  if members.has "countTitle" then "countTitle" else "count_title"

def ofMembers (members : Record Value) : Except Fault Settings := do
  let section? := Value.members?
  let mark ← readMark (← defaulted section? [] members "mark")
  let boxplot ← readBoxplot (← defaulted section? [] members "boxplot")
  let errorbar ← readErrorbar (← defaulted section? [] members "errorbar")
  let scale ← readScale (← defaulted section? [] members "scale")
  let titleKey := countTitleKey members
  let countTitle ← defaulted Value.text? Defaults.countTitle members titleKey
  let markBlocks ← markBlockDefaults.mapM fun m ↦ do
    pure (m.1, ← defaulted Value.members? m.2 members m.1)
  pure
    { mark, boxplot, errorbar, scale, countTitle, markBlocks
      extras := members.without
        (["mark", "boxplot", "errorbar", "scale", titleKey] ++ markBlockDefaults.keys) }

def read (v : Value) : Except Fault Settings :=
  match v with
  | .object members => ofMembers members
  | _ => throw .invalidForm

end Settings

end ChartLowering
