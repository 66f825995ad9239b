import ChartLowering.Value.Access

/-!
# Opened values

Settings hold values of any kind, checked field definitions among them. Where settings are taken
apart, these are opened: objects take their place, at every depth.
-/

namespace ChartLowering

/-- How checked field definitions are opened. -/
structure Opening where
  /-- Do members go by the names that an author writes? -/
  asWritten : Bool
  /-- Are members left out that are `null`? -/
  givenOnly : Bool

namespace Opening

/-- The opening from which settings can be read again. -/
def whole : Opening := ⟨true, false⟩

/-- The opening for looking up single members. -/
def plain : Opening := ⟨false, false⟩

/-- The opening for looking up members that are given. -/
def given : Opening := ⟨false, true⟩

/-- What the members of a checked field definition become, given what becomes of their values. -/
def object (o : Opening) (members : Record Value) : Value :=
  let kept := if o.givenOnly then members.filter fun m ↦ !m.2.isNull else members
  .object (Record.override [] (if o.asWritten then kept else Value.attributes kept))

end Opening

namespace Value

mutual

/-- A value with the checked field definitions in it opened. -/
def opened (o : Opening) : Value → Value
  | .list items => .list (openedItems o items)
  | .object members => .object (openedMembers o members)
  | .fieldDef members => o.object (openedMembers o members)
  | v => v
termination_by structural v => v

def openedItems (o : Opening) : List Value → List Value
  | [] => []
  | v :: rest => opened o v :: openedItems o rest
termination_by structural items => items

def openedMembers (o : Opening) : List (String × Value) → List (String × Value)
  | [] => []
  | (key, v) :: rest => (key, opened o v) :: openedMembers o rest
termination_by structural members => members

end

theorem get?_openedMembers (o : Opening) (members : Record Value) (key : String) :
    Record.get? (openedMembers o members) key = (members.get? key).map (opened o) := by
  induction members with
  | nil => rfl
  | cons m rest ih =>
      obtain ⟨k, v⟩ := m
      rw [openedMembers, Record.get?_cons, Record.get?_cons, ih]
      split <;> rfl

end Value

end ChartLowering
