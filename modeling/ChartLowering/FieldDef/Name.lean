import ChartLowering.Defaults
import ChartLowering.Expression
import ChartLowering.FieldDef.Basic
import ChartLowering.Text.Word

/-!
# Derived columns

A field that is aggregated, binned or cut to a time unit is read from a column of its own, whose
name says how it was derived. The same name is written in three forms: as the name that a transform
gives to its output, as a reference to it, and as an expression that reads it.
-/

namespace ChartLowering

def Binning.name : Binning → String
  | .with parameters =>
      "bin" ++ String.join (parameters.map fun (key, v) ↦
        Text.wordsOnly ("_" ++ key ++ "_" ++ v.shown))
  | _ => "bin"

/-- The name of a time unit. Parameters may name one by any value. -/
def Operation.unitName : Operation → Value
  | named name => .text name
  | .with parameters =>
      let unit := parameters.value "unit"
      if (parameters.value "utc").truthy && unit.truthy then .text ("utc" ++ unit.shown) else unit

namespace FieldDef

/-- What is done to the field before it is read, as part of a name. Nothing, or a value that is not
given, adds nothing to the name. -/
def functionName (fd : FieldDef) : Value :=
  match fd.bin, fd.aggregate with
  | some bin, aggregate =>
      if bin.asks then .text bin.name
      else
        match aggregate with
        | some (.named op) => .text op
        | _ => Value.ofOption (fd.givenTimeUnit?.map Operation.unitName)
  | none, some (.named op) => .text op
  | none, _ => Value.ofOption (fd.givenTimeUnit?.map Operation.unitName)

def derived (function : Value) (field : String) : String :=
  if !function.truthy then field
  else if field = "" then function.shown
  else function.shown ++ "_" ++ field

/-- The path of the column that a field is read from. A suffix picks one of the columns of a bin. -/
def column (fd : FieldDef) (suffix : Option String) : String :=
  if fd.isCount then Defaults.countField
  else
    let name := derived fd.functionName fd.path
    match suffix with
    | some s => if fd.isBinned && s != "" then name ++ "_" ++ s else name
    | none => name

/-- The path of the column of the field itself. -/
def rawColumn (fd : FieldDef) : String :=
  if fd.isCount then Defaults.countField else fd.path

def reference (fd : FieldDef) (suffix : Option String := none) : Except Fault String :=
  FieldPath.reference (fd.column suffix)

/-- The derived column as the name of an output. -/
def output (fd : FieldDef) (suffix : Option String := none) : Except Fault String :=
  FieldPath.flatten (fd.column suffix)

def datum (fd : FieldDef) (suffix : Option String := none) : Except Fault String :=
  Expression.field (fd.column suffix) "datum"

/-- The members that a definition of text does not take. -/
def nonTextKeys : List String :=
  ["aggregate", "bin", "timeUnit", "condition", "axis", "legend", "header", "scale", "sort"]

/-- A definition that reads the derived column as it is. -/
def asText (fd : FieldDef) : Except Fault (Record Value) := do
  pure ((fd.stored.without nonTextKeys).put "field" (.text (← fd.reference)))

end FieldDef

end ChartLowering
