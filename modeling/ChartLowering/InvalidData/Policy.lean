import ChartLowering.Mark.Property

/-!
# Which invalid data is kept

The policy of a mark is resolved for each of its scales: rows with invalid values reach a scale,
are filtered out before, or cannot occur.
-/

namespace ChartLowering

namespace MarkInvalidMode

/-- The policy of a mark for what it draws. The domains of paths are shown by paths alone, and
other marks filter instead. -/
def resolve (mode : MarkInvalidMode) (isPath : Bool) : ScaleInvalidMode :=
  match mode with
  | filter => .filter
  | breakPathsFilterDomains => .breakPathsFilterDomains
  | breakPathsShowDomains => .breakPathsShowDomains
  | breakPathsShowPathDomains => if isPath then .breakPathsShowDomains else .filter
  | .show => .show

/-- A policy by name. None at all shows everything. -/
def read (mode : Value) : Except Fault MarkInvalidMode :=
  match mode with
  | .null => pure .show
  | .text name =>
      match ofName? name with
      | some mode => pure mode
      | none => throw .badContent
  | _ => throw .badContent

end MarkInvalidMode

namespace ScaleInvalidMode

/-- Does the policy let invalid values reach the scale? -/
def passes : ScaleInvalidMode → Bool
  | .show | alwaysValid => true
  | _ => false

/-- The types of scale whose domain is an interval. -/
def continuousTypes : List String := ScaleType.continuous ++ ScaleType.discretizing

/-- Can a scale of this type meet invalid values? No type stands for no scale. -/
def concerns (scaleType : Value) (counting : Bool) : Except Fault Bool := do
  if scaleType.truthy then pure ((← scaleType.isAmong continuousTypes) && !counting)
  else pure false

/-- What a channel shows for invalid values, by the settings. -/
def shown? (settings : Settings) (channel : String) : Option Value :=
  (settings.scale.invalid.getD []).get? channel

/-- The policy of one scale. A channel for which the settings say what to show for invalid values
shows them. -/
def ofChannel (settings : Settings) (mark : MarkDef) (channel : String) (scaleType : Value)
    (counting : Bool) : Except Fault ScaleInvalidMode := do
  if ← concerns scaleType counting then
    let given ← mark.property settings "invalid"
    let isPath ← mark.isPath
    let mode := (← MarkInvalidMode.read given).resolve isPath
    match (shown? settings channel).bind Value.given? with
    | some _ => pure .show
    | none => pure mode
  else pure alwaysValid

end ScaleInvalidMode

/-- Whether the data that the marks, and that the domains of the scales, are drawn from keeps rows
with invalid values. -/
structure DataSources where
  marks : InvalidRows
  scales : InvalidRows
  deriving DecidableEq, Repr

namespace DataSources

def includesAll (s : DataSources) : Bool := s.marks == .include && s.scales == .include

/-- The rows that the marks keep when paths break at invalid values. -/
def broken (isPath : Bool) : InvalidRows := if isPath then .include else .exclude

def ofMode (mode : ScaleInvalidMode) (isPath : Bool) : DataSources :=
  match mode with
  | .filter => ⟨.exclude, .exclude⟩
  | .breakPathsShowDomains => ⟨broken isPath, .include⟩
  | .breakPathsFilterDomains => ⟨broken isPath, .exclude⟩
  | .show | .alwaysValid => ⟨.include, .include⟩

end DataSources

end ChartLowering
