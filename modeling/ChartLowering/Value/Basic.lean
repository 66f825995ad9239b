import ChartLowering.Number.Binary64
import ChartLowering.Value.Record

/-!
# Chart specification values

The values a chart specification is written in, and the sets and checked field definitions that
arise while it is lowered. Integers and doubles are told apart, and so is the order of members.
-/

namespace ChartLowering

/-- A specification value. A checked field definition is held by its members, all of its own ones
first, with `null` for those that are not set. -/
inductive Value where
  | null
  | bool (b : Bool)
  | int (i : Int)
  | float (x : Binary64)
  | text (s : String)
  | list (items : List Value)
  | set (items : List Value)
  | object (members : List (String × Value))
  | fieldDef (members : List (String × Value))
  deriving Inhabited

namespace Value

mutual

/-- Are two values alike to the last detail, the order of members included? -/
def same : Value → Value → Bool
  | .null, .null => true
  | .bool a, .bool b => a == b
  | .int a, .int b => a == b
  | .float a, .float b => a == b
  | .text a, .text b => a == b
  | .list a, .list b => sameItems a b
  | .set a, .set b => sameItems a b
  | .object a, .object b => sameMembers a b
  | .fieldDef a, .fieldDef b => sameMembers a b
  | _, _ => false

def sameItems : List Value → List Value → Bool
  | [], [] => true
  | a :: as, b :: bs => same a b && sameItems as bs
  | _, _ => false

def sameMembers : List (String × Value) → List (String × Value) → Bool
  | [], [] => true
  | (k, a) :: as, (l, b) :: bs => k == l && same a b && sameMembers as bs
  | _, _ => false

end

mutual

theorem eq_of_same : ∀ {a b : Value}, same a b = true → a = b
  | .null, .null, _ => rfl
  | .bool _, .bool _, h => by simpa [same] using h
  | .int _, .int _, h => by simpa [same] using h
  | .float _, .float _, h => by simpa [same] using h
  | .text _, .text _, h => by simpa [same] using h
  | .list _, .list _, h => congrArg _ (eq_of_sameItems (by simpa [same] using h))
  | .set _, .set _, h => congrArg _ (eq_of_sameItems (by simpa [same] using h))
  | .object _, .object _, h => congrArg _ (eq_of_sameMembers (by simpa [same] using h))
  | .fieldDef _, .fieldDef _, h => congrArg _ (eq_of_sameMembers (by simpa [same] using h))

theorem eq_of_sameItems : ∀ {a b : List Value}, sameItems a b = true → a = b
  | [], [], _ => rfl
  | a :: as, b :: bs, h => by
      simp only [sameItems, Bool.and_eq_true] at h
      rw [eq_of_same h.1, eq_of_sameItems h.2]

theorem eq_of_sameMembers :
    ∀ {a b : List (String × Value)}, sameMembers a b = true → a = b
  | [], [], _ => rfl
  | (k, a) :: as, (l, b) :: bs, h => by
      simp only [sameMembers, Bool.and_eq_true, beq_iff_eq] at h
      rw [h.1.1, eq_of_same h.1.2, eq_of_sameMembers h.2]

end

mutual

theorem same_self : ∀ a : Value, same a a = true
  | .null => rfl
  | .bool _ => by simp [same]
  | .int _ => by simp [same]
  | .float _ => by simp [same]
  | .text _ => by simp [same]
  | .list a => by simpa [same] using sameItems_self a
  | .set a => by simpa [same] using sameItems_self a
  | .object a => by simpa [same] using sameMembers_self a
  | .fieldDef a => by simpa [same] using sameMembers_self a

theorem sameItems_self : ∀ a : List Value, sameItems a a = true
  | [] => rfl
  | a :: as => by simp [sameItems, same_self a, sameItems_self as]

theorem sameMembers_self : ∀ a : List (String × Value), sameMembers a a = true
  | [] => rfl
  | (k, a) :: as => by simp [sameMembers, same_self a, sameMembers_self as]

end

theorem same_iff {a b : Value} : same a b = true ↔ a = b :=
  ⟨eq_of_same, fun h ↦ h ▸ same_self a⟩

instance : DecidableEq Value := fun _ _ ↦ decidable_of_iff _ same_iff

/-- What counts as given: neither nothing, nor false, nor zero, nor empty. -/
def truthy : Value → Bool
  | .null => false
  | .bool b => b
  | .int i => i != 0
  | .float x => !x.isZero
  | .text s => s != ""
  | .list items => !items.isEmpty
  | .set items => !items.isEmpty
  | .object members => !members.isEmpty
  | .fieldDef _ => true

def isNull : Value → Bool
  | .null => true
  | _ => false

def isObject : Value → Bool
  | .object _ => true
  | _ => false

def isText : Value → Bool
  | .text _ => true
  | _ => false

def isList : Value → Bool
  | .list _ => true
  | _ => false

def members? : Value → Option (Record Value)
  | .object members => some members
  | _ => none

def text? : Value → Option String
  | .text s => some s
  | _ => none

/-- A member of an object. Anything else has none. -/
def member? (v : Value) (key : String) : Option Value := v.members?.bind (·.get? key)

/-- Is this an object with a member of that name? -/
def hasMember (v : Value) (key : String) : Bool :=
  match v with
  | .object members => Record.has members key
  | _ => false

/-- The value of an optional member, `null` if it is missing. -/
def ofOption : Option Value → Value
  | some v => v
  | none => .null

def given? : Value → Option Value
  | .null => none
  | v => some v

end Value

/-- The value of a member, `null` where there is none. -/
def Record.value (r : Record Value) (key : String) : Value := Value.ofOption (r.get? key)

end ChartLowering
