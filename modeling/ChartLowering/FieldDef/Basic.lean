import ChartLowering.Grammar.FieldType
import ChartLowering.Json.Canonical
import ChartLowering.Value.Key

/-!
# Field definitions

A field definition binds one data field to a channel. It is read from an object of a specification,
and whatever members it has besides its own are kept as they are.
-/

namespace ChartLowering

/-- An operation given by name or by parameters. -/
inductive Operation where
  | named (name : String)
  | with (parameters : Record Value)
  deriving DecidableEq

namespace Operation

def toValue : Operation → Value
  | named name => .text name
  | .with parameters => .object parameters

def ofValue? : Value → Option Operation
  | .text name => some (named name)
  | .object parameters => some (.with parameters)
  | _ => none

end Operation

/-- How a field is binned: not at all or by default parameters, by parameters of its own, or by a
name, which says that the data is binned already. -/
inductive Binning where
  | flag (on : Bool)
  | with (parameters : Record Value)
  | named (name : String)
  deriving DecidableEq

namespace Binning

def toValue : Binning → Value
  | flag on => .bool on
  | .with parameters => .object parameters
  | named name => .text name

def ofValue? : Value → Option Binning
  | .bool on => some (flag on)
  | .object parameters => some (.with parameters)
  | .text name => some (named name)
  | .int 0 => some (flag false)
  | .int 1 => some (flag true)
  | .float x =>
      match x.toInt? with
      | some 0 => some (flag false)
      | some 1 => some (flag true)
      | _ => none
  | _ => none

def asks : Binning → Bool
  | flag on => on
  | .with _ => true
  | named _ => false

end Binning

structure FieldDef where
  field : Option String
  type : Option FieldType
  aggregate : Option Operation
  bin : Option Binning
  timeUnit : Option Operation
  title : Value
  extras : Record Value
  deriving DecidableEq

namespace FieldDef

def readType (v : Value) : Except Fault (Option FieldType) :=
  match v with
  | .null => pure none
  | v =>
      match FieldType.read v with
      | .ok type => pure (some type)
      | .error (.unknownType _) => throw .invalidForm
      | .error fault => throw fault

/-- The time unit may also be called `time_unit`, but only if there is no `timeUnit`. -/
def timeUnitKey (members : Record Value) : String :=
  if members.has "timeUnit" then "timeUnit" else "time_unit"

/-- A field definition from the members of an object. A type of the wrong kind is found first. -/
def ofMembers (members : Record Value) : Except Fault FieldDef := do
  let key := timeUnitKey members
  let type ← readType (members.value "type")
  let field ← Value.optional Value.text? (members.value "field")
  let aggregate ← Value.optional Operation.ofValue? (members.value "aggregate")
  let bin ← Value.optional Binning.ofValue? (members.value "bin")
  let timeUnit ← Value.optional Operation.ofValue? (members.value key)
  pure
    { field, type, aggregate, bin, timeUnit
      title := members.value "title"
      extras := members.without (key :: Value.attributeKeys) }

/-- The members of a field definition, those that are not set as `null`. -/
def members (fd : FieldDef) : Record Value :=
  [("field", Value.ofOption (fd.field.map .text)),
   ("type", Value.ofOption (fd.type.map fun t ↦ .text t.name)),
   ("aggregate", Value.ofOption (fd.aggregate.map Operation.toValue)),
   ("bin", Value.ofOption (fd.bin.map Binning.toValue)),
   ("timeUnit", Value.ofOption (fd.timeUnit.map Operation.toValue)),
   ("title", fd.title)] ++ fd.extras

/-- A field definition as a value that has been checked already. -/
def toValue (fd : FieldDef) : Value := .fieldDef fd.members

/-- A field definition from an object or a checked one. -/
def read (v : Value) : Except Fault FieldDef :=
  match v with
  | .object members => ofMembers members
  | .fieldDef members => ofMembers members
  | _ => throw .invalidForm

/-- The object that a field definition is written as, without the members that are not set. -/
def stored (fd : FieldDef) : Record Value := Value.storedAttributes fd.members

/-- The name of a field, empty if there is none. -/
def path (fd : FieldDef) : String := fd.field.getD ""

def isCount (fd : FieldDef) : Bool := fd.aggregate == some (.named "count")

def isBinned (fd : FieldDef) : Bool := fd.bin.any Binning.asks

/-- The time unit, if it is given by a name or parameters that are not empty. -/
def givenTimeUnit? (fd : FieldDef) : Option Operation :=
  fd.timeUnit.filter fun u ↦ u.toValue.truthy

end FieldDef

end ChartLowering
