import ChartLowering.Value.Access

/-!
# Shorthands

A field definition in one text: a field, the function over it, and the type after a colon, as in
`mean(price):Q`.
-/

namespace ChartLowering.Shorthand

/-- What gives the members of the definition that a text stands for. -/
abbrev Reader := String → Except Fault (Record Value)

inductive Source where
  | count
  | aggregate (op path : List Char)
  | timeUnit (unit path : List Char)
  | field (path : List Char)
  deriving DecidableEq

def aggregates : List String :=
  ["argmax", "argmin", "average", "count", "distinct", "max", "mean", "median", "min", "missing",
   "product", "q1", "q3", "ci0", "ci1", "stderr", "stdev", "stdevp", "sum", "valid", "values",
   "variance", "variancep", "exponential", "exponentialb"]

/-- The time units that may also be in universal time. -/
def localTimeUnits : List String :=
  ["year", "quarter", "month", "week", "day", "dayofyear", "date", "hours", "minutes", "seconds",
   "milliseconds", "yearquarter", "yearquartermonth", "yearmonth", "yearmonthdate",
   "yearmonthdatehours", "yearmonthdatehoursminutes", "yearmonthdatehoursminutesseconds",
   "yearweek", "yearweekday", "yearweekdayhours", "yearweekdayhoursminutes",
   "yearweekdayhoursminutesseconds", "yeardayofyear", "quartermonth", "monthdate",
   "monthdatehours", "monthdatehoursminutes", "monthdatehoursminutesseconds", "weekday",
   "weekdayhours", "weekdayhoursminutes", "weekdayhoursminutesseconds", "dayhours",
   "dayhoursminutes", "dayhoursminutesseconds", "hoursminutes", "hoursminutesseconds",
   "minutesseconds", "secondsmilliseconds"]

def timeUnits : List String :=
  "weeksdayhours" :: localTimeUnits ++ localTimeUnits.map fun u ↦ "utc" ++ u

/-- The types that may follow the last colon, by name or code. -/
def typeName? : List Char → Option String
  | ['O'] => some "ordinal"
  | ['N'] => some "nominal"
  | ['Q'] => some "quantitative"
  | ['T'] => some "temporal"
  | ['G'] => some "geojson"
  | cs =>
      let name := String.ofList cs
      if ["ordinal", "nominal", "quantitative", "temporal", "geojson"].contains name then some name
      else none

/-- The parts before and after the last occurrence of a character. -/
def splitLast (separator : Char) : List Char → Option (List Char × List Char)
  | [] => none
  | c :: cs =>
      match splitLast separator cs with
      | some (before, after) => some (c :: before, after)
      | none => if c = separator then some ([], cs) else none

/-- A text without the type at its end, and the type. -/
def splitType (cs : List Char) : List Char × Option String :=
  match splitLast ':' cs with
  | some (before, after) =>
      match typeName? after with
      | some type => (before, some type)
      | none => (cs, none)
  | none => (cs, none)

/-- A name and what stands in brackets after it, up to the very end. -/
def splitCall (cs : List Char) : Option (String × List Char) :=
  match cs.dropWhile (· != '(') with
  | _ :: inner =>
      if inner.getLast? = some ')' then
        some (String.ofList (cs.takeWhile (· != '(')), inner.dropLast)
      else none
  | [] => none

def Source.read (cs : List Char) : Source :=
  match splitCall cs with
  | some (name, inner) =>
      if name = "count" ∧ inner = [] then count
      else if aggregates.contains name then aggregate name.toList inner
      else if timeUnits.contains name then timeUnit name.toList inner
      else field cs
  | none => field cs

/-- A colon in a field has to be escaped. Only the last one is looked at, and what stands before
the first character is the last one. -/
def colonEscaped (field : List Char) : Bool :=
  match splitLast ':' field with
  | none => true
  | some (before, _) => (before.getLast?.or field.getLast?) == some '\\'

def textMember (key : String) (cs : List Char) : String × Value := (key, .text (String.ofList cs))

def Source.members : Source → Record Value
  | count => [("aggregate", .text "count")]
  | aggregate op path => [textMember "aggregate" op, textMember "field" path]
  | timeUnit unit path => [textMember "timeUnit" unit, textMember "field" path]
  | field path => [textMember "field" path]

/-- The type of a source that does not name one. -/
def Source.impliedType : Source → Option String
  | count => some "quantitative"
  | timeUnit _ _ => some "temporal"
  | _ => none

def Source.path : Source → List Char
  | count => []
  | aggregate _ path | timeUnit _ path | field path => path

/-- The members of the definition that a shorthand stands for, with no field if it is empty. -/
def members (s : String) : Except Fault (Record Value) :=
  let cs := s.toList
  if cs = [] then pure []
  else
    let (body, type) := splitType cs
    let source := Source.read body
    if colonEscaped source.path then
      match type.or source.impliedType with
      | some name => pure (source.members ++ [("type", .text name)])
      | none => pure source.members
    else throw .badContent

end ChartLowering.Shorthand
