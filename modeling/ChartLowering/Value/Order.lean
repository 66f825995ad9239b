import ChartLowering.Fault

/-!
# Numbers and the order of values

Numbers, texts and lists are ordered, each kind by itself. Truth values count as the numbers zero
and one wherever a number is compared.
-/

namespace ChartLowering.Value

def isNumber : Value → Bool
  | .bool _ | .int _ | .float _ => true
  | _ => false

/-- How a number compares with an integer. Not a number at all compares with nothing. -/
def compareInt? (v : Value) (i : Int) : Option Ordering :=
  match v with
  | .bool b => some (compare (if b then 1 else 0) i)
  | .int j => some (compare j i)
  | .float x => x.compareInt? i
  | _ => none

def oneMinus : Value → Value
  | .bool b => .int (if b then 0 else 1)
  | .int i => .int (1 - i)
  | .float x => .float x.oneMinus
  | v => v

/-- A number, true and false being one and zero. -/
inductive Scalar where
  | int (i : Int)
  | float (x : Binary64)

def scalar? : Value → Option Scalar
  | .bool b => some (.int (if b then 1 else 0))
  | .int i => some (.int i)
  | .float x => some (.float x)
  | _ => none

/-- How two numbers compare. Not a number at all compares with nothing. -/
def Scalar.compare? : Scalar → Scalar → Option Ordering
  | .int i, .int j => some (Ord.compare i j)
  | .float x, .float y => x.compare? y
  | .float x, .int j => x.compareInt? j
  | .int i, .float y => (y.compareInt? i).map Ordering.swap

/-- The order of two numbers. One that is not a number counts as equal to all. -/
def Scalar.compare (x y : Scalar) : Ordering := (x.compare? y).getD .eq

mutual

/-- The order of two numbers, two texts or two lists. Other values have none. -/
def compare? : Value → Value → Option Ordering
  | .text s, .text t => some (Ord.compare s t)
  | .list as, .list bs => compareItems? as bs
  | a, b =>
      match a.scalar?, b.scalar? with
      | some x, some y => some (x.compare y)
      | _, _ => none

def compareItems? : List Value → List Value → Option Ordering
  | [], [] => some .eq
  | [], _ :: _ => some .lt
  | _ :: _, [] => some .gt
  | a :: as, b :: bs =>
      match compare? a b with
      | some .eq => compareItems? as bs
      | found => found

end

def insertAscending (v : Value) : List Value → Except Fault (List Value)
  | [] => pure [v]
  | w :: rest =>
      match v.compare? w with
      | some .gt => (w :: ·) <$> insertAscending v rest
      | some _ => pure (v :: w :: rest)
      | none => throw .wrongKind

def sortAscending : List Value → Except Fault (List Value)
  | [] => pure []
  | v :: rest => do insertAscending v (← sortAscending rest)

/-- The values in ascending order, `null` first. Two values without an order stay as they are. -/
def ascending (items : List Value) : List Value :=
  items.mergeSort fun a b ↦
    a.isNull || (!b.isNull && match a.compare? b with | some .gt => false | _ => true)

end ChartLowering.Value
