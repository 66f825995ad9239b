import ChartLowering.Number.Layout
import ChartLowering.Text.Escaped
import ChartLowering.Value.Basic

/-!
# Writing JSON

A writer with a choice of separators. Sets are written as arrays and checked field definitions as
objects, though no caller asks for either: see `Value.isPlain`.
-/

namespace ChartLowering

namespace Json

/-- What stands between two items, and between a name and its value. -/
structure Style where
  comma : String
  colon : String

def compact : Style := ⟨",", ":"⟩

def spaced : Style := ⟨", ", ": "⟩

/-- A double as a JSON number, or as a name where there is no such number. -/
def floatText : Binary64 → String
  | .nan => "NaN"
  | .infinite negative => Binary64.signText negative ++ "Infinity"
  | x => x.text

mutual

def write (style : Style) : Value → String
  | .null => "null"
  | .bool true => "true"
  | .bool false => "false"
  | .int i => toString i
  | .float x => floatText x
  | .text s => Text.stringLiteral s
  | .list items => "[" ++ style.comma.intercalate (writeItems style items) ++ "]"
  | .set items => "[" ++ style.comma.intercalate (writeItems style items) ++ "]"
  | .object members => "\x7b" ++ style.comma.intercalate (writeMembers style members) ++ "\x7d"
  | .fieldDef members => "\x7b" ++ style.comma.intercalate (writeMembers style members) ++ "\x7d"
termination_by structural v => v

def writeItems (style : Style) : List Value → List String
  | [] => []
  | v :: rest => write style v :: writeItems style rest
termination_by structural items => items

def writeMembers (style : Style) : List (String × Value) → List String
  | [] => []
  | (key, v) :: rest =>
      (Text.stringLiteral key ++ style.colon ++ write style v) :: writeMembers style rest
termination_by structural members => members

end

end Json

namespace Value

mutual

/-- Is this a value that JSON has a form for, with neither a set nor a checked field definition
anywhere in it? -/
def isPlain : Value → Bool
  | .list items => itemsPlain items
  | .object members => membersPlain members
  | .set _ => false
  | .fieldDef _ => false
  | _ => true
termination_by structural v => v

def itemsPlain : List Value → Bool
  | [] => true
  | v :: rest => isPlain v && itemsPlain rest
termination_by structural items => items

def membersPlain : List (String × Value) → Bool
  | [] => true
  | (_, v) :: rest => isPlain v && membersPlain rest
termination_by structural members => members

end

end Value

end ChartLowering
