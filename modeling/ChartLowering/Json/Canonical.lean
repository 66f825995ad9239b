import ChartLowering.Digest.Sha256
import ChartLowering.Json.Write
import ChartLowering.Value.Order

/-!
# Canonical JSON

One text for all values that differ only in the order of members: members are sorted by name at
every depth and nothing stands between the tokens. Digests are taken over this text.
-/

namespace ChartLowering

namespace Value

mutual

/-- A value as it is stored: sets as lists, doubles beyond the finite ones as `null`, and checked
field definitions as objects without the members that are `null`. -/
def stored : Value → Value
  | .float x => if x.isFinite then .float x else .null
  | .list items => .list (storedItems items)
  | .set items => .list (storedItems items)
  | .object members => .object (storedMembers members)
  | .fieldDef members => .object (storedAttributes members)
  | v => v
termination_by structural v => v

def storedItems : List Value → List Value
  | [] => []
  | v :: rest => stored v :: storedItems rest
termination_by structural items => items

def storedMembers : List (String × Value) → List (String × Value)
  | [] => []
  | (key, v) :: rest => (key, stored v) :: storedMembers rest
termination_by structural members => members

def storedAttributes : List (String × Value) → List (String × Value)
  | [] => []
  | (key, v) :: rest =>
      if v.isNull then storedAttributes rest else (key, stored v) :: storedAttributes rest
termination_by structural members => members

end

mutual

/-- A value with plain values in place of the sets and checked field definitions in it. -/
def plain : Value → Except Fault Value
  | .list items => .list <$> plainItems items
  | .set items => do pure (.list (← sortAscending (← plainItems items)))
  | .object members => .object <$> plainMembers members
  | .fieldDef members => pure (stored (.fieldDef members))
  | v => pure v
termination_by structural v => v

def plainItems : List Value → Except Fault (List Value)
  | [] => pure []
  | v :: rest => do
      let v ← plain v
      let rest ← plainItems rest
      pure (v :: rest)
termination_by structural items => items

def plainMembers : List (String × Value) → Except Fault (List (String × Value))
  | [] => pure []
  | (key, v) :: rest => do
      let v ← plain v
      let rest ← plainMembers rest
      pure ((key, v) :: rest)
termination_by structural members => members

end

def byName (members : Record Value) : Record Value :=
  members.mergeSort fun a b ↦ decide (a.1 ≤ b.1)

mutual

/-- A value with the members of every object in the order of their names. -/
def sorted : Value → Value
  | .list items => .list (sortedItems items)
  | .set items => .set (sortedItems items)
  | .object members => .object (byName (sortedMembers members))
  | .fieldDef members => .fieldDef (byName (sortedMembers members))
  | v => v
termination_by structural v => v

def sortedItems : List Value → List Value
  | [] => []
  | v :: rest => sorted v :: sortedItems rest
termination_by structural items => items

def sortedMembers : List (String × Value) → List (String × Value)
  | [] => []
  | (key, v) :: rest => (key, sorted v) :: sortedMembers rest
termination_by structural members => members

end

end Value

namespace Json

def canonical (v : Value) : Except Fault String := do
  pure (write compact (← v.plain).sorted)

def digest (v : Value) : Except Fault String := do
  pure (Sha256.hexDigest (← canonical v))

/-- Keeps the first of all items with one digest, given the digests seen so far. -/
def uniqueFrom (seen : List String) : List Value → Except Fault (List Value)
  | [] => pure []
  | v :: rest => do
      let d ← digest v
      if seen.contains d then uniqueFrom seen rest
      else
        let rest ← uniqueFrom (d :: seen) rest
        pure (v :: rest)

/-- The items without those that repeat an earlier one up to the order of members. -/
def unique (items : List Value) : Except Fault (List Value) := uniqueFrom [] items

end Json

end ChartLowering
