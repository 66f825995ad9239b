import ChartLowering.InvalidData.Guards
import ChartLowering.Pipeline.Links

/-!
# Nodes of a pipeline

A pipeline turns the data of a view into what its marks read. A node is a step of it, with a text
that steps of the same meaning share and the transform that it amounts to.
-/

namespace ChartLowering.Pipeline

/-- The outputs that are numbered together: those of a series shared by name, or the copies of one
node. -/
inductive Series where
  | shared (name : String)
  | copies (node : NodeId)
  deriving DecidableEq

inductive NodeKind where
  /-- A step that does nothing to the data. -/
  | plain
  /-- Data that marks read by name, with its number in a series. -/
  | output (source : String) (series : Series) (number : Nat)
  /-- A filter of rows with invalid values. -/
  | filter (guards : Guards)
  deriving DecidableEq

structure Node where
  kind : NodeKind
  label : Option String := none
  deriving DecidableEq

namespace Node

def kindName (n : Node) : String :=
  match n.kind with
  | .plain => "PlainNode"
  | .output .. => "OutputNode"
  | .filter _ => "FilterInvalidNode"

/-- A node as it is mentioned, by its kind and its label. -/
def text (n : Node) : String :=
  match n.label with
  | none | some "" => "<" ++ n.kindName ++ ">"
  | some label => "<" ++ n.kindName ++ " " ++ (Value.text label).quoted ++ ">"

/-- A text that nodes of the same meaning share, and no two outputs of a series. -/
def hash (n : Node) : Except Fault String :=
  match n.kind with
  | .plain => pure ("Node " ++ n.label.getD "None")
  | .output _ _ number => pure ("Output " ++ toString number)
  | .filter guards => guards.digest

def reads (n : Node) : List (Option String) :=
  match n.kind with
  | .filter guards => guards.fields
  | _ => []

/-- The transform that a node amounts to, if it does anything. -/
def transform? (n : Node) : Report (Option Value) :=
  match n.kind with
  | .filter guards => guards.filter?
  | _ => pure none

def source? (n : Node) : Option String :=
  match n.kind with
  | .output source _ _ => some source
  | _ => none

end Node

end Pipeline

/-- The nodes of a pipeline in the order in which they were made, and how they hang together. -/
structure Pipeline where
  nodes : List Pipeline.Node
  links : Pipeline.Links

namespace Pipeline

def empty : Pipeline := ⟨[], .none⟩

/-- A step on a pipeline, which keeps what was done before it failed. -/
abbrev Edit (α : Type) := ExceptT Fault (StateM Pipeline) α

/-- A change of links alone. -/
def rewire {α : Type} (change : Rewiring α) : Edit α := do
  let p ← get
  let (outcome, links) := (change.run.run p.links : Except Fault α × Links)
  set { p with links }
  liftExcept outcome
where
  liftExcept {α : Type} : Except Fault α → Edit α
    | .ok a => pure a
    | .error fault => throw fault

def seriesLength (p : Pipeline) (series : Series) : Nat :=
  p.nodes.countP fun n ↦
    match n.kind with
    | .output _ s _ => s == series
    | _ => false

/-- Adds a node under a parent, or under none. -/
def add (node : Node) (parent : Option NodeId) : Edit NodeId := do
  let id := (← get).nodes.length
  modify fun p ↦ { p with nodes := p.nodes ++ [node] }
  rewire (setParent id parent)
  pure id

/-- Adds an output with the next number of a series, or of one of its own. -/
def addOutput (source : String) (label : Option String) (series : Option String)
    (parent : Option NodeId) : Edit NodeId := do
  let p ← get
  let series := match series with
    | some name => Series.shared name
    | none => Series.copies p.nodes.length
  add ⟨.output source series (p.seriesLength series + 1), label⟩ parent

def node (id : NodeId) : Edit Node := do
  match (← get).nodes[id]? with
  | some n => pure n
  | none => throw .badContent

/-- Adds a copy of a node that stands alone. A plain node has no copies. -/
def clone (id : NodeId) : Edit NodeId := do
  let source ← node id
  match source.kind with
  | .plain => throw (.unsupported (.cannotClone source.kindName))
  | .output name series _ => do
      let number := (← get).seriesLength series + 1
      add ⟨.output name series number, source.label⟩ none
  | .filter guards => add ⟨.filter guards, none⟩ none

def dropGuard (id : NodeId) (field : Option String) : Edit Unit := do
  match (← node id).kind with
  | .filter guards =>
      if guards.fields.contains field then
        let kept : Node := ⟨.filter (guards.filter fun g ↦ g.1 != field), none⟩
        modify fun p ↦ { p with nodes := p.nodes.set id kept }
      else throw (.missing (field.getD "None"))
  | _ => throw .notRecord

end Pipeline

end ChartLowering
