/-!
# Policies for invalid data

What to do with rows in which a field has no valid value.
-/

namespace ChartLowering

/-- The policy of a mark, as an author writes it. -/
inductive MarkInvalidMode where
  | filter
  | breakPathsFilterDomains
  | breakPathsShowDomains
  | breakPathsShowPathDomains
  | show
  deriving DecidableEq, Repr

namespace MarkInvalidMode

def all : List MarkInvalidMode :=
  [filter, breakPathsFilterDomains, breakPathsShowDomains, breakPathsShowPathDomains, .show]

def name : MarkInvalidMode → String
  | filter => "filter"
  | breakPathsFilterDomains => "break-paths-filter-domains"
  | breakPathsShowDomains => "break-paths-show-domains"
  | breakPathsShowPathDomains => "break-paths-show-path-domains"
  | .show => "show"

def ofName? (s : String) : Option MarkInvalidMode := all.find? fun m ↦ m.name == s

@[simp] theorem ofName?_name (m : MarkInvalidMode) : ofName? m.name = some m := by
  cases m <;> decide +kernel

end MarkInvalidMode

inductive ScaleInvalidMode where
  | show
  | alwaysValid
  | filter
  | breakPathsFilterDomains
  | breakPathsShowDomains
  deriving DecidableEq, Repr

namespace ScaleInvalidMode

def all : List ScaleInvalidMode :=
  [.show, alwaysValid, filter, breakPathsFilterDomains, breakPathsShowDomains]

def name : ScaleInvalidMode → String
  | .show => "show"
  | alwaysValid => "always-valid"
  | filter => "filter"
  | breakPathsFilterDomains => "break-paths-filter-domains"
  | breakPathsShowDomains => "break-paths-show-domains"

end ScaleInvalidMode

/-- Whether rows with invalid values are kept. -/
inductive InvalidRows where
  | include
  | exclude
  deriving DecidableEq, Repr

namespace InvalidRows

def all : List InvalidRows := [.include, exclude]

def name : InvalidRows → String
  | .include => "include-invalid-values"
  | exclude => "exclude-invalid-values"

end InvalidRows

end ChartLowering
