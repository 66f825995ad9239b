import ChartLowering.Fault

/-!
# Field paths

A field is named by a path: names with dots between them, or keys in brackets, bare or quoted. A
backslash takes the next character as it is.
-/

namespace ChartLowering.FieldPath

/-- Where the reader of a path stands. A quote only opens where nothing of the path, or of the key,
has been set aside yet; `fresh` says so. -/
inductive Place where
  | name (fresh : Bool)
  | key (fresh : Bool)
  | quoted (quote : Char) (bracketed : Bool)
  | afterQuote
  deriving DecidableEq, Repr

inductive Defect where
  | openBracket
  | closingBracket
  | closingQuote
  deriving DecidableEq, Repr

def Defect.reason (path : String) : Defect → Reason
  | openBracket => .openBracketMissing (.text path)
  | closingBracket => .closingBracketMissing (.text path)
  | closingQuote => .closingQuoteMissing (.text path)

namespace Place

def stale : Place → Place
  | name _ => name false
  | key _ => key false
  | place => place

/-- May a quote open here? -/
def opens : Place → Bool
  | name fresh | key fresh => fresh
  | _ => false

/-- Is this a place between an opening bracket and its closing one? -/
def bracketed : Place → Bool
  | name _ => false
  | _ => true

end Place

/-- One more character of the segment being read. -/
def grow (pending : Option (List Char)) (c : Char) : Option (List Char) :=
  some (pending.getD [] ++ [c])

/-- A segment, if one has been begun, before the others. -/
def emit (pending : Option (List Char)) :
    Except Defect (List (List Char)) → Except Defect (List (List Char))
  | .ok segments => .ok (pending.toList ++ segments)
  | .error defect => .error defect

/-- The segments of a path from a place on, given the segment that has been begun. -/
def scan : Place → Option (List Char) → List Char → Except Defect (List (List Char))
  | .name _, pending, [] => .ok pending.toList
  | .quoted _ false, _, [] => .error .closingQuote
  | _, _, [] => .error .closingBracket
  | place, pending, ['\\'] => scan place.stale (some (pending.getD [])) []
  | place, pending, '\\' :: c :: cs => scan place.stale (grow pending c) cs
  | .quoted quote bracketed, pending, c :: cs =>
      if c = quote then emit (some (pending.getD [])) (scan .afterQuote none cs)
      else scan (.quoted quote bracketed) (grow pending c) cs
  | place, pending, c :: cs =>
      if place.opens ∧ (c = '"' ∨ c = '\'') then scan (.quoted c place.bracketed) none cs
      else if c = '.' ∧ ¬place.bracketed then emit pending (scan (.name false) none cs)
      else if c = '[' then emit pending (scan (.key true) none cs)
      else if c = ']' then
        if place.bracketed then emit pending (scan (.name false) none cs)
        else .error .openBracket
      else scan place (grow pending c) cs
termination_by structural _ _ cs => cs

def segments? (path : String) : Except Defect (List String) :=
  match scan (.name true) none path.toList with
  | .ok segments => .ok (segments.map String.ofList)
  | .error defect => .error defect

def segments (path : String) : Except Fault (List String) :=
  match segments? path with
  | .ok segments => pure segments
  | .error defect => throw (.spec (defect.reason path))

/-- A path as the name of a column: its segments with dots between them. -/
def flatten (path : String) : Except Fault String := do
  pure (".".intercalate (← segments path))

def escapeDots (segment : String) : String :=
  String.ofList (segment.toList.flatMap fun c ↦ if c = '.' then ['\\', '.'] else [c])

/-- A path as a reference to a column, whose dots are all escaped. -/
def reference (path : String) : Except Fault String := do
  pure ("\\.".intercalate ((← segments path).map escapeDots))

end ChartLowering.FieldPath
