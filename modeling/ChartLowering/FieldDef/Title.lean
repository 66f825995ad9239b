import ChartLowering.FieldDef.Name
import ChartLowering.Text.Basic
import ChartLowering.Text.Upper

/-!
# Titles

What a field is called unless its definition says so itself. The title of a time unit, which is a
text of parts in a row such as `yearmonth`, lists these parts.
-/

namespace ChartLowering

namespace TimeUnit

/-- The parts, from the longest to the shortest. Titles list them in this order. -/
def allParts : List String :=
  ["year", "quarter", "month", "week", "day", "dayofyear", "date", "hours", "minutes", "seconds",
   "milliseconds"]

/-- Does a time unit have a part? Only the first place where the part is found counts, and there
it must not stand inside a longer part: `seconds` in `milliseconds`, `day` and `year` in
`dayofyear`. -/
def contains (unit part : String) : Bool :=
  let cs := unit.toList
  match Text.indexOf? part.toList cs with
  | none => false
  | some index =>
      let before := if index = 0 then none else cs[index - 1]?
      let inside := (part == "seconds" && before == some 'i') ||
        (part == "day" && cs[index + 3]? == some 'o') || (part == "year" && before == some 'f')
      !inside

/-- A time unit without the mark of universal time. -/
def withoutUtc (unit : String) : String :=
  if unit.toList.take 3 = ['u', 't', 'c'] then String.ofList (unit.toList.drop 3) else unit

def parts (unit : String) : List String := allParts.filter (contains (withoutUtc unit))

end TimeUnit

namespace FieldDef

/-- The parts of a time unit that a value names. -/
def unitParts (unit : Value) : Except Fault (List String) :=
  match unit with
  | .text name => pure (if name = "" then [] else TimeUnit.parts name)
  | unit => if unit.truthy then throw (unit.unable "startswith") else pure []

def aggregateTitle (fd : FieldDef) : String :=
  match fd.aggregate with
  | some (.named op) => Text.capitalize op ++ " of " ++ fd.path
  | _ => fd.path

/-- The title of a definition that has none. A count is called by the title of counts, which can be
any value. -/
def defaultTitle (fd : FieldDef) (countTitle : Value) : Except Fault Value := do
  if fd.isCount then pure countTitle
  else if fd.isBinned then pure (.text (fd.path ++ " (binned)"))
  else
    match fd.givenTimeUnit? with
    | none => pure (.text fd.aggregateTitle)
    | some unit =>
        match ← unitParts unit.unitName with
        | [] => pure (.text fd.aggregateTitle)
        | parts => pure (.text (fd.path ++ " (" ++ "-".intercalate parts ++ ")"))

/-- The title of a definition, or the default one. -/
def titleOr (fd : FieldDef) (countTitle : Value) : Except Fault Value :=
  match fd.title with
  | .null => fd.defaultTitle countTitle
  | title => pure title

end FieldDef

end ChartLowering
