import ChartLowering.Number.Layout
import ChartLowering.Text.Escaped
import ChartLowering.Value.Basic

/-!
# Values in messages

How a value looks in a message or inside a derived name: a text of its own is shown bare, one
inside another value between quotes.
-/

namespace ChartLowering.Value

/-- A member of a checked field definition between its brackets. -/
def attributeText (key shown : String) (v : Value) : String :=
  match key, v with
  | "type", .text name => "type=<FieldType." ++ name.toUpper ++ ": " ++ shown ++ ">"
  | "timeUnit", _ => "time_unit=" ++ shown
  | _, _ => key ++ "=" ++ shown

mutual

/-- A value inside another one. -/
def quoted : Value → String
  | .null => "None"
  | .bool true => "True"
  | .bool false => "False"
  | .int i => toString i
  | .float x => x.text
  | .text s => Text.quoted s
  | .list items => "[" ++ ", ".intercalate (quotedItems items) ++ "]"
  | .set [] => "frozenset()"
  | .set (item :: items) =>
      "frozenset(\x7b" ++ ", ".intercalate (quoted item :: quotedItems items) ++ "\x7d)"
  | .object members => "\x7b" ++ ", ".intercalate (quotedMembers members) ++ "\x7d"
  | .fieldDef members => "FieldDef(" ++ ", ".intercalate (attributeTexts members) ++ ")"
termination_by structural v => v

def quotedItems : List Value → List String
  | [] => []
  | v :: rest => quoted v :: quotedItems rest
termination_by structural items => items

def quotedMembers : List (String × Value) → List String
  | [] => []
  | (key, v) :: rest => (Text.quoted key ++ ": " ++ quoted v) :: quotedMembers rest
termination_by structural members => members

def attributeTexts : List (String × Value) → List String
  | [] => []
  | (key, v) :: rest => attributeText key (quoted v) v :: attributeTexts rest
termination_by structural members => members

end

/-- A value on its own. -/
def shown : Value → String
  | .text s => s
  | .fieldDef members => " ".intercalate (attributeTexts members)
  | v => quoted v

end ChartLowering.Value
