import ChartLowering.Fault
import ChartLowering.Text.Basic

/-!
# Reaching into values

A specification can hold a value of any kind anywhere, so each way of reaching into one says how
it fails on a value of the wrong kind.
-/

namespace ChartLowering

def Record.require (r : Record Value) (key : String) : Except Fault Value :=
  match r.get? key with
  | some v => pure v
  | none => throw (.missing key)

namespace Value

/-- The member of an object, which has to be there. -/
def require (v : Value) (key : String) : Except Fault Value :=
  match v with
  | .object members => Record.require members key
  | _ => throw .wrongKind

/-- The fault of asking a value for something that it cannot do. A checked field definition that
has a member of that name answers with the member, which can do nothing either. -/
def unable (v : Value) (action : String) : Fault :=
  match v with
  | .fieldDef members => if Record.has members action then .wrongKind else .notRecord
  | _ => .notRecord

/-- The members of an object, which is asked for all of them or for single ones. -/
def members (v : Value) (action : String := "items") : Except Fault (Record Value) :=
  match v with
  | .object members => pure members
  | _ => throw (v.unable action)

/-- Is a text a member's name, an item, or a part of another text? -/
def mentions (v : Value) (key : String) : Except Fault Bool :=
  match v with
  | .object members => pure (Record.has members key)
  | .text s => pure (Text.occurs key s)
  | .list items | .set items => pure (items.contains (.text key))
  | .fieldDef _ => pure false
  | _ => throw .wrongKind

/-- The members that every checked field definition has. -/
def attributeKeys : List String := ["field", "type", "aggregate", "bin", "timeUnit", "title"]

/-- A name for a member as it is known to a checked field definition itself. -/
def attributeName (key : String) : String := if key = "timeUnit" then "time_unit" else key

/-- The members of a checked field definition under the names that it knows them by. -/
def attributes (members : Record Value) : Record Value :=
  members.map fun m ↦ (attributeName m.1, m.2)

/-- What a value consists of: items, characters, the names of members, or the members of a checked
field definition, each with its name. -/
def elements : Value → Except Fault (List Value)
  | .list items | .set items => pure items
  | .text s => pure (s.toList.map fun c ↦ .text (String.singleton c))
  | .object members => pure (members.map fun m ↦ .text m.1)
  | .fieldDef members => pure ((attributes members).map fun m ↦ .list [.text m.1, m.2])
  | _ => throw .wrongKind

/-- A value in one of the forms that `read?` takes, or `null`. -/
def optional {α : Type} (read? : Value → Option α) (v : Value) : Except Fault (Option α) :=
  match v with
  | .null => pure none
  | v =>
      match read? v with
      | some a => pure (some a)
      | none => throw .invalidForm

/-- The members of an object that other members are laid over. -/
def spread (v : Value) : Except Fault (Record Value) :=
  match v with
  | .object members => pure members
  | _ => throw .wrongKind

mutual

/-- Can a value be looked up? A list or an object cannot, and neither can a checked field definition
one of whose own members cannot. -/
def isKey : Value → Bool
  | .list _ | .object _ => false
  | .fieldDef members => areKeys members
  | _ => true
termination_by structural v => v

def areKeys : List (String × Value) → Bool
  | [] => true
  | (key, v) :: rest => (!attributeKeys.contains key || isKey v) && areKeys rest
termination_by structural members => members

end

def isAmong (v : Value) (names : List String) : Except Fault Bool :=
  if v.isKey then pure ((v.text?.map names.contains).getD false) else throw .wrongKind

/-- The items of a list, or the value itself. -/
def itemsOrSelf : Value → List Value
  | .list items => items
  | v => [v]

end Value

end ChartLowering
