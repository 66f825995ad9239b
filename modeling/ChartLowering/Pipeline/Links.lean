import ChartLowering.Fault

/-!
# Links between nodes

The nodes of a pipeline hang under each other: each has at most one parent and a row of children.
Both directions are kept, and every operation says in which order it changes them, since one that
fails leaves what it has done so far.
-/

namespace ChartLowering.Pipeline

abbrev NodeId := Nat

structure Links where
  parent : NodeId → Option NodeId
  children : NodeId → List NodeId

namespace Links

/-- Nodes that all stand alone. -/
def none : Links := ⟨fun _ ↦ .none, fun _ ↦ []⟩

def withParent (l : Links) (node : NodeId) (parent : Option NodeId) : Links :=
  { l with parent := fun n ↦ if n = node then parent else l.parent n }

def withChildren (l : Links) (node : NodeId) (children : List NodeId) : Links :=
  { l with children := fun n ↦ if n = node then children else l.children n }

@[simp] theorem withParent_parent_self (l : Links) (node : NodeId) (parent : Option NodeId) :
    (l.withParent node parent).parent node = parent := if_pos rfl

theorem withParent_parent_of_ne (l : Links) {node other : NodeId} (parent : Option NodeId)
    (h : other ≠ node) : (l.withParent node parent).parent other = l.parent other := if_neg h

@[simp] theorem withParent_children (l : Links) (node : NodeId) (parent : Option NodeId) :
    (l.withParent node parent).children = l.children := rfl

@[simp] theorem withChildren_parent (l : Links) (node : NodeId) (children : List NodeId) :
    (l.withChildren node children).parent = l.parent := rfl

@[simp] theorem withChildren_children_self (l : Links) (node : NodeId) (children : List NodeId) :
    (l.withChildren node children).children node = children := if_pos rfl

theorem withChildren_children_of_ne (l : Links) {node other : NodeId} (children : List NodeId)
    (h : other ≠ node) : (l.withChildren node children).children other = l.children other :=
  if_neg h

end Links

/-- A change of links, which keeps what was done before it failed. -/
abbrev Rewiring (α : Type) := ExceptT Fault (StateM Links) α

/-- Puts an item at a place, counted from the end if it is negative. Places beyond an end mean that
end. -/
def insertAt (items : List NodeId) (place : Int) (item : NodeId) : List NodeId :=
  let place := (if place < 0 then place + items.length else place).toNat
  items.take place ++ item :: items.drop place

@[simp] theorem mem_insertAt {items : List NodeId} {place : Int} {item other : NodeId} :
    other ∈ insertAt items place item ↔ other = item ∨ other ∈ items := by
  have split (n : Nat) : other ∈ items ↔ other ∈ items.take n ∨ other ∈ items.drop n := by
    rw [← List.mem_append, List.take_append_drop]
  rw [insertAt, split]
  simp only [List.mem_append, List.mem_cons]
  exact or_left_comm

/-- Adds a child, at the end if no place is given. Its own parent stays as it is. -/
def addChild (node child : NodeId) (place : Option Int := none) : Rewiring Unit := do
  let children := (← get).children node
  if child ∈ children then throw (.invariant .childTwice)
  else
    let place := place.getD children.length
    modify (·.withChildren node (insertAt children place child))

/-- Takes a child away and gives the place at which it stood. Its own parent stays as it is. -/
def removeChild (node child : NodeId) : Rewiring Nat := do
  let children := (← get).children node
  if child ∈ children then
    modify (·.withChildren node (children.erase child))
    pure (children.idxOf child)
  else throw .badContent

/-- Hangs a node under another one, or under none. A parent that it had before keeps it. -/
def setParent (node : NodeId) (parent : Option NodeId) : Rewiring Unit := do
  modify (·.withParent node parent)
  match parent with
  | some parent => addChild parent node
  | none => pure ()

/-- Hangs children under a new parent one by one, from a place on or at the end. -/
def adopt (parent : NodeId) : List NodeId → Option Nat → Rewiring Unit
  | [], _ => pure ()
  | child :: rest, place => do
      modify (·.withParent child (some parent))
      addChild parent child (place.map Int.ofNat)
      adopt parent rest (place.map (· + 1))

/-- Takes a node out. Its children take its place under its parent. -/
def remove (node : NodeId) : Rewiring Unit := do
  match (← get).parent node with
  | none => throw (.invariant .removeRoot)
  | some parent => do
      let place ← removeChild parent node
      adopt parent ((← get).children node) (some place)
      modify (·.withChildren node [])
      modify (·.withParent node none)

/-- Puts a node between another one and its parent. -/
def insertAbove (node other : NodeId) : Rewiring Unit := do
  match (← get).parent other with
  | none => throw (.invariant .insertAboveRoot)
  | some parent => do
      let place ← removeChild parent other
      modify (·.withParent node (some parent))
      addChild parent node (some place)
      modify (·.withParent other none)
      setParent other (some node)

/-- Moves a node above its parent, to which it leaves its children. -/
def swapWithParent (node : NodeId) : Rewiring Unit := do
  let links ← get
  match links.parent node with
  | none => throw (.invariant .swapWithoutGrandparent)
  | some parent =>
      match links.parent parent with
      | none => throw (.invariant .swapWithoutGrandparent)
      | some grandparent => do
          adopt parent (links.children node) none
          modify (·.withChildren node [])
          discard (removeChild parent node)
          let place ← removeChild grandparent parent
          modify (·.withParent node (some grandparent))
          addChild grandparent node (some place)
          modify (·.withParent parent (some node))
          addChild node parent

end ChartLowering.Pipeline
