import ChartLowering.Encoding.Normal
import ChartLowering.FieldDef.Title

/-!
# Lifted transforms

Aggregates, bins and time units of an encoding become transforms of their own. The definitions
that asked for them then read the columns that the transforms write.
-/

namespace ChartLowering

structure BinTransform where
  bin : Value
  field : Option String
  output : String
  deriving DecidableEq

structure TimeUnitTransform where
  unit : Operation
  field : Option String
  output : String
  deriving DecidableEq

/-- An aggregate. There may be no field at all, and one that is given may be `null`. -/
structure Measure where
  op : String
  field : Option Value
  output : String
  deriving DecidableEq

namespace Lifted

/-- The value of a field that may have no name. -/
def fieldValue (field : Option String) : Value := Value.ofOption (field.map .text)

end Lifted

def BinTransform.toValue (t : BinTransform) : Value :=
  .object [("bin", t.bin), ("field", Lifted.fieldValue t.field), ("as", .text t.output)]

def TimeUnitTransform.toValue (t : TimeUnitTransform) : Value :=
  .object
    [("timeUnit", t.unit.toValue), ("field", Lifted.fieldValue t.field), ("as", .text t.output)]

def Measure.toValue (m : Measure) : Value :=
  .object
    ([("op", .text m.op), ("as", .text m.output)] ++
      match m.field with
      | some field => [("field", field)]
      | none => [])

/-- What one definition contributes, and the definition that takes its place. -/
structure Lifted where
  bins : List BinTransform := []
  timeUnits : List TimeUnitTransform := []
  measures : List Measure := []
  groupby : List String := []
  /-- The definition of the channel that ends a range, if one is needed. -/
  secondary : Option Value := none
  definition : Value

/-- All that an encoding contributes. -/
structure Extraction where
  bins : List BinTransform
  timeUnits : List TimeUnitTransform
  measures : List Measure
  groupby : List String
  encoding : Encoding

namespace Lifted

/-- Does the definition say, by the title of a guide, how it is called? -/
def hasGuideTitle (members : Record Value) : Bool :=
  ["axis", "legend", "header"].any fun guide ↦
    match (members.value guide).member? "title" with
    | some title => !title.isNull
    | none => false

/-- The aggregate, if it is given by a name or parameters that are not empty. -/
def givenAggregate? (fd : FieldDef) : Option Operation :=
  fd.aggregate.filter fun a ↦ a.toValue.truthy

def needsRange (fd : FieldDef) (channel : String) : Bool :=
  fd.isBinned && Channel.isScaled channel &&
    (fd.type == some .ordinal || fd.type == some .nominal)

/-- The definition that reads a derived column, but for what depends on the kind of transform. -/
def readDerived (fd : FieldDef) (output countTitle : String) : Except Fault (Record Value) := do
  let stored := fd.stored
  let remaining := stored.without ["field", "aggregate", "bin", "timeUnit"]
  let title ← if hasGuideTitle stored then pure [] else do
    pure [("title", ← fd.titleOr (.text countTitle))]
  pure ((Record.override title remaining).put "field" (.text output))

def extremum (parameters : Record Value) : String :=
  if parameters.has "argmax" then "argmax" else "argmin"

/-- An argument that gives an extremum, as the name of a field. -/
def argument (v : Value) : Except Fault (Option String) :=
  match v with
  | .null => pure none
  | .text field => pure (some field)
  | _ => throw .invalidForm

def ofAggregate (fd : FieldDef) (output : String) (members : Record Value) :
    Operation → Except Fault Lifted
  | .named op =>
      let field := if fd.path = "" then none else some (fieldValue fd.field)
      pure { measures := [⟨op, field, output⟩], definition := .object members }
  | .with parameters => do
      let op := extremum parameters
      let field ← argument (← parameters.require op)
      let extreme : FieldDef :=
        { field, type := none, aggregate := some (.named op), bin := none, timeUnit := none
          title := .null, extras := [] }
      let column ← extreme.output
      let read := column ++ "." ++ (fieldValue fd.field).shown
      pure
        { measures := [⟨op, some (fieldValue field), column⟩]
          definition := .object (members.put "field" (.text read)) }

def ofBin (channel : String) (fd : FieldDef) (bin : Binning) (output : String)
    (members : Record Value) : Except Fault Lifted := do
  let ending ← fd.output "end"
  let range ← if needsRange fd channel then do pure [← fd.output "range"] else pure []
  let binned := members.put "bin" (.text "binned")
  let definition := if Channel.secondary.contains channel then binned
    else binned.put "type" (.text FieldType.quantitative.name)
  pure
    { bins := [⟨bin.toValue, fd.field, output⟩]
      groupby := [output, ending] ++ range
      secondary := if Channel.isXOrY channel then
          some (.object [("field", .text (output ++ "_end"))])
        else none
      definition := .object definition }

/-- A guide that formats times, unless it says otherwise itself. -/
def timeGuide (guide : Value) : Except Fault Value := do
  let own ← if guide.truthy then guide.spread else pure []
  pure (.object (Record.override [("formatType", .text "time")] own))

/-- Labels of a time unit on a field that is not temporal are formatted as times. -/
def formatted (channel : String) (members : Record Value) : Except Fault (Record Value) := do
  if channel == "text" || channel == "tooltip" then
    pure (members.put "formatType" (.text "time"))
  else if Channel.isNonPosition channel then
    pure (members.put "legend" (← timeGuide (members.value "legend")))
  else if Channel.isXOrY channel then
    pure (members.put "axis" (← timeGuide (members.value "axis")))
  else pure members

def ofTimeUnit (channel : String) (fd : FieldDef) (unit : Operation) (output : String)
    (members : Record Value) : Except Fault Lifted := do
  let members ← if fd.type = some .temporal then pure members else formatted channel members
  pure
    { timeUnits := [⟨unit, fd.field, output⟩]
      groupby := [output]
      definition := .object members }

/-- What a field definition contributes. An aggregate comes before a bin, a bin before a time
unit. A field that is read as it is groups the rows. -/
def ofFieldDef (countTitle channel : String) (v : Value) (fd : FieldDef) : Except Fault Lifted := do
  let derive (build : String → Record Value → Except Fault Lifted) : Except Fault Lifted := do
    let output ← fd.output
    build output (← readDerived fd output countTitle)
  match givenAggregate? fd, fd.bin.filter Binning.asks, fd.givenTimeUnit? with
  | some aggregate, _, _ => derive fun output members ↦ ofAggregate fd output members aggregate
  | none, some bin, _ => derive (ofBin channel fd bin)
  | none, none, some unit => derive (ofTimeUnit channel fd unit)
  | none, none, none =>
      pure { groupby := if fd.path = "" then [] else [fd.path], definition := v }

/-- What a definition contributes, nothing if it is not one of a field. -/
def ofDef (countTitle channel : String) (v : Value) : Except Fault Lifted := do
  match ← ChannelDef.fieldDef? v with
  | some fd => ofFieldDef countTitle channel v fd
  | none => pure { definition := v }

end Lifted

namespace Extraction

def empty : Extraction := ⟨[], [], [], [], []⟩

/-- Adds the names that are not there yet. -/
def addColumns (columns added : List String) : List String :=
  added.foldl (fun columns c ↦ if columns.contains c then columns else columns ++ [c]) columns

/-- Adds what a definition on a channel contributes, but not yet the definition itself. -/
def add (e : Extraction) (channel : String) (l : Lifted) : Extraction :=
  { bins := e.bins ++ l.bins
    timeUnits := e.timeUnits ++ l.timeUnits
    measures := e.measures ++ l.measures
    groupby := addColumns e.groupby l.groupby
    encoding := match l.secondary with
      | some v => e.encoding.put (channel ++ "2") v
      | none => e.encoding }

/-- Adds the definitions of one channel, one or a list of them. -/
def addChannel (countTitle : String) (e : Extraction) (channel : String) (v : Value) :
    Except Fault Extraction := do
  match v with
  | .list items => do
      let lifted ← items.mapM (Lifted.ofDef countTitle channel)
      let e := lifted.foldl (fun e l ↦ e.add channel l) e
      pure { e with encoding := e.encoding.put channel (.list (lifted.map Lifted.definition)) }
  | v => do
      let l ← Lifted.ofDef countTitle channel v
      let e := e.add channel l
      pure { e with encoding := e.encoding.put channel l.definition }

/-- The transforms of an encoding, with the encoding that reads what they write. -/
def ofEncoding (encoding : Encoding) (countTitle : String) : Except Fault Extraction :=
  let title := if countTitle = "" then Defaults.countTitle else countTitle
  encoding.foldlM (fun e m ↦ e.addChannel title m.1 m.2) empty

end Extraction

end ChartLowering
