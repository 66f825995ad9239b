import ChartLowering.Json.Write
import ChartLowering.Value.Access
import ChartLowering.Value.Order

/-!
# Values as keys

An object can also be spelled out as pairs, and a set as its elements. Values that are equal as
numbers count as one key then, and the one that was there first is kept.
-/

namespace ChartLowering.Value

def isSameKey (a b : Value) : Bool :=
  match a.scalar?, b.scalar? with
  | some x, some y => x.compare? y == some .eq
  | _, _ => a == b

/-- The name of the member that a key stands for. -/
def keyName? : Value → Option String
  | .text s => some s
  | .null => some "null"
  | v => if v.scalar?.isSome then some (Json.write Json.compact v) else none

/-- Puts a value under a key. A key that is there already keeps its spelling and its place. -/
def putKey (key v : Value) : List (Value × Value) → List (Value × Value)
  | [] => [(key, v)]
  | (k, w) :: rest => if isSameKey k key then (k, v) :: rest else (k, w) :: putKey key v rest

/-- The pair that a value of two elements stands for, the first of them being a key. -/
def asPair (v : Value) : Except Fault (Value × Value) := do
  match ← v.elements with
  | [key, value] => if key.keyName?.isSome then pure (key, value) else throw .wrongKind
  | _ => throw .badContent

def ofPairs (pairs : List (Value × Value)) : Record Value :=
  let distinct := pairs.foldl (fun found p ↦ putKey p.1 p.2 found) []
  Record.override [] (distinct.filterMap fun p ↦ p.1.keyName?.map fun name ↦ (name, p.2))

/-- A value as a record: its own members, or those that its elements spell out as pairs. A checked
field definition cannot be asked for its keys if it has a member of that name. -/
def asRecord : Value → Except Fault (Record Value)
  | .object members => pure members
  | .fieldDef members =>
      if Record.has members "keys" then throw .wrongKind
      else pure (Record.override [] (attributes members))
  | v => do
      let pairs ← (← v.elements).mapM asPair
      pure (ofPairs pairs)

/-- Adds an element to a list, before those that are greater. -/
def insertElement (v : Value) : List Value → List Value
  | [] => [v]
  | w :: rest => if v.compare? w = some .lt then v :: w :: rest else w :: insertElement v rest

/-- The integer that a value is equal to, if it is one. -/
def wholeNumber? (v : Value) : Option Int :=
  match v.scalar? with
  | some (.int i) => some i
  | some (.float x) => x.toInt?
  | none => none

/-- The room that a set makes for so many elements. It is never filled for more than three fifths
and grows fourfold. -/
def room (count : Nat) : Nat :=
  if count < 5 then 8 else if count < 19 then 32 else if count < 77 then 128 else 512

/-- The place of an integer in some room: its remainder, which for minus one is that of minus
two. -/
def placeIn (room : Nat) (i : Int) : Int :=
  let reduced := i.tmod 2305843009213693951
  (if reduced = -1 then -2 else reduced).emod room

/-- Distinct elements in the order in which a set holds them: integers by their places, others as
far as they can be compared. -/
def arranged (items : List Value) : List Value :=
  match items.mapM wholeNumber? with
  | some numbers =>
      let placed := (numbers.map (placeIn (room items.length))).zip items
      (placed.mergeSort fun p q ↦ p.1 ≤ q.1).map Prod.snd
  | none => items.foldl (fun found v ↦ insertElement v found) []

def setOf (items : List Value) : Except Fault Value :=
  if items.all isKey then
    let distinct := items.foldl
      (fun found v ↦ if found.any (isSameKey · v) then found else found ++ [v]) []
    pure (.set (arranged distinct))
  else throw .wrongKind

end ChartLowering.Value
