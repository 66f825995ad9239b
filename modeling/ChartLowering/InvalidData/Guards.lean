import ChartLowering.InvalidData.Override
import ChartLowering.Json.Canonical

/-!
# Guards against invalid rows

Fields that a scale cannot show invalid values of are guarded: rows in which one of them is
invalid are filtered out before they reach scales or marks.
-/

namespace ChartLowering

/-- Guarded fields by name, in the order in which they were found. A field can have no name. -/
abbrev Guards := List (Option String × FieldDef)

namespace Guards

/-- Guards a field. One that is guarded already keeps its place. -/
def put : Guards → Option String → FieldDef → Guards
  | [], field, fd => [(field, fd)]
  | (f, g) :: rest, field, fd =>
      if f == field then (f, fd) :: rest else (f, g) :: put rest field fd

/-- Guards the field of a definition if its scale needs it. -/
def visit (m : UnitModel) (guards : Guards) (channel : String) (fd : FieldDef) : Report Guards := do
  match if Channel.isScaled channel then m.scale? channel else none with
  | none => pure guards
  | some scale =>
      let mode ← InvalidData.policy m.settings m.mark channel (some scale) (some fd)
      if mode.passes then pure guards
      else if fd.type.isSome then pure (guards.put fd.field fd)
      else
        let reason := Reason.typeMissingInFilter (.text channel) (Lifted.fieldValue fd.field)
        Report.tell .error .invalidFilter reason
        throw (.invariant reason)

/-- The guards that a unit needs, given the data that its marks and scales are drawn from. -/
def ofModel (m : UnitModel) (sources : DataSources) : Report Guards :=
  if sources.includesAll then pure []
  else m.encoding.foldFieldDefs (visit m) []

/-- The test that a row has to pass for one field. -/
def test (fd : FieldDef) : Report String := do
  let ref ← fd.datum
  match fd.type with
  | some .temporal => pure ("(isDate(" ++ ref ++ ") || (" ++ Expression.isFinite ref ++ "))")
  | some .quantitative => pure (Expression.isFinite ref)
  | type =>
      let mention := (type.map FieldType.mention).getD "None"
      let reason := Reason.discreteFilter (Lifted.fieldValue fd.field) mention
      Report.tell .error .invalidFilter reason
      throw (.invariant reason)

def tests (guards : Guards) : Report (List String) := guards.mapM fun g ↦ test g.2

/-- The filter that the guards amount to, if there are any. -/
def filter? (guards : Guards) : Report (Option Value) := do
  match ← guards.tests with
  | [] => pure none
  | tests =>
      let expr := " && ".intercalate tests
      pure (some (.object [("type", .text "filter"), ("expr", .text expr)]))

def fields (guards : Guards) : List (Option String) := guards.map Prod.fst

/-- The guards as an object. A field without a name goes by one all the same. -/
def members (guards : Guards) : Record Value :=
  Record.override [] (guards.map fun g ↦ (g.1.getD "None", g.2.toValue))

/-- A text that guards of the same fields by the same definitions share. -/
def digest (guards : Guards) : Except Fault String := do
  pure ("FilterInvalid " ++ (← Json.digest (.object guards.members)))

end Guards

end ChartLowering
