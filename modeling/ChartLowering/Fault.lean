import ChartLowering.Value.Shown

/-!
# What can go wrong

Reasons for which a specification is refused or part of it is dropped, with their wording, and the
ways in which a computation fails.
-/

namespace ChartLowering

/-- Something worth telling the author of a specification. What a reason is about can be a value of
any shape, since it comes from the specification. -/
inductive Reason where
  | selection (mark : Value)
  | selectionCondition (channel : Value)
  | customAggregate (aggregate mark : Value)
  | emptyDefinition (channel : Value)
  | typeMissingInFilter (channel field : Value)
  | neitherFieldNorDatum (definition : Value)
  | discreteFilter (field : Value) (type : String)
  | extent (mark extent : Value)
  | noContinuousAxis (mark : Value)
  | bothAxesAggregated (mark : Value)
  | preaggregated (channel : Value)
  | centerExtent (center extent mark : Value)
  | openBracketMissing (path : Value)
  | closingBracketMissing (path : Value)
  | closingQuoteMissing (path : Value)
  | timeUnitPredicate
  | fieldPredicate (predicate : Value)
  | predicate (predicate : Value)
  | shorthand (text : Value)
  | channelType (channel : Value) (type : Value)
  | channelDefinition (channel definition : Value)
  | typeMissing (channel : Value)
  | markMissing
  | childTwice
  | removeRoot
  | insertAboveRoot
  | swapWithoutGrandparent
  | cannotClone (kind : String)
  deriving DecidableEq

/-- What is said of a type that is no field type. -/
def unknownTypeText (given : Value) : String :=
  "type must be one of ['nominal', 'ordinal', 'quantitative', 'temporal'] (got " ++
    given.quoted ++ ")"

namespace Reason

def text : Reason → String
  | selection mark => "Selection not supported for " ++ mark.shown ++ " yet."
  | selectionCondition channel =>
      "Parameter condition on channel " ++ channel.quoted ++
        " dropped: selections are not supported."
  | customAggregate aggregate mark =>
      "Continuous axis should not have customized aggregation function " ++ aggregate.shown ++
        "; " ++ mark.shown ++ " already aggregates the axis."
  | emptyDefinition channel =>
      "Dropping " ++ channel.quoted ++ " from the encoding because it has no field."
  | typeMissingInFilter channel field =>
      "Field def for channel " ++ channel.quoted ++ " (field " ++ field.quoted ++
        ") reached the invalid-value filter without a type."
  | neitherFieldNorDatum definition =>
      "Cannot build a field or datum reference from " ++ definition.quoted ++ "."
  | discreteFilter field type =>
      "Field " ++ field.quoted ++ " of type " ++ type ++ " cannot be filtered for invalid values."
  | extent mark given => "Unsupported " ++ mark.shown ++ " extent " ++ given.quoted ++ "."
  | noContinuousAxis mark => "Need a valid continuous axis for " ++ mark.shown ++ "s."
  | bothAxesAggregated mark => "Both x and y cannot have aggregate " ++ mark.quoted ++ "."
  | preaggregated channel =>
      "Pre-aggregated errorbar input via " ++ channel.quoted ++ " is not supported."
  | centerExtent center given mark =>
      center.shown ++ " is not usually used with " ++ given.shown ++ " for " ++ mark.shown ++ "."
  | openBracketMissing path => "Access path missing open bracket: " ++ path.shown
  | closingBracketMissing path => "Access path missing closing bracket: " ++ path.shown
  | closingQuoteMissing path => "Access path missing closing quote: " ++ path.shown
  | timeUnitPredicate => "time-unit field predicates are not supported"
  | fieldPredicate given => "Unrecognized field predicate: " ++ given.quoted
  | predicate given => "Unrecognized predicate: " ++ given.quoted
  | shorthand given => "Cannot parse encoding shorthand " ++ given.quoted
  | channelType channel type =>
      "Invalid type for channel " ++ channel.quoted ++ ": " ++ unknownTypeText type
  | channelDefinition channel definition =>
      "Invalid definition for channel " ++ channel.quoted ++ ": " ++ definition.quoted
  | typeMissing channel => "Field def on channel " ++ channel.quoted ++ " has no type"
  | markMissing => "Unit spec requires a mark"
  | childTwice => "Attempt to add the same child twice."
  | removeRoot => "Cannot remove a node without a parent."
  | insertAboveRoot => "Cannot insert above a root node."
  | swapWithoutGrandparent => "Cannot swap a node without a grandparent."
  | cannotClone kind => "Cannot clone " ++ kind

end Reason

inductive Fault where
  /-- The specification cannot be lowered. -/
  | spec (reason : Reason)
  /-- Something that earlier steps should have ruled out. -/
  | invariant (reason : Reason)
  /-- An operation that this kind of thing does not have. -/
  | unsupported (reason : Reason)
  /-- A member or an entry that is not there. -/
  | missing (key : String)
  /-- A type that is no field type. -/
  | unknownType (given : Value)
  /-- A value of the right kind with the wrong content. -/
  | badContent
  /-- A value of a kind on which an operation makes no sense. -/
  | wrongKind
  /-- Something other than an object, asked for a member. -/
  | notRecord
  /-- A setting outside its allowed values. -/
  | invalidSetting
  /-- A definition or a configuration that does not fit its form. -/
  | invalidForm
  /-- A check that did not hold. -/
  | assertion
  /-- An integer too large for a double. -/
  | overflow
  /-- A folder where a file was to be read. -/
  | folder
  deriving DecidableEq

/-- The wording of a fault, where it has one. -/
def Fault.text? : Fault → Option String
  | .spec reason | .invariant reason | .unsupported reason => some reason.text
  | .missing key => some key
  | .unknownType given => some (unknownTypeText given)
  | _ => none

end ChartLowering
