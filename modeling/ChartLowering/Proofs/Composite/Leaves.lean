import ChartLowering.Composite.Part
import ChartLowering.Proofs.Value.Record

/-!
# Leaves of an expansion

A leaf is a layer of one plain mark, with all steps that its rows go through from the top of the
expansion down to it.
-/

namespace ChartLowering

structure Leaf where
  steps : List Transform
  layer : UnitLayer
  deriving DecidableEq

/-- A leaf in a group with transforms of its own. -/
def Leaf.under (transforms : List Transform) (leaf : Leaf) : Leaf :=
  { leaf with steps := transforms ++ leaf.steps }

/-- Layers as leaves that all come after the same steps. -/
def leavesAfter (steps : List Transform) (layers : List UnitLayer) : List Leaf :=
  layers.map fun layer ↦ ⟨steps ++ layer.transforms, layer⟩

theorem leavesAfter_append (steps : List Transform) (layers more : List UnitLayer) :
    leavesAfter steps (layers ++ more) = leavesAfter steps layers ++ leavesAfter steps more :=
  List.map_append

theorem map_under_leavesAfter (outer steps : List Transform) (layers : List UnitLayer) :
    (leavesAfter steps layers).map (Leaf.under outer) = leavesAfter (outer ++ steps) layers := by
  simp [leavesAfter, Leaf.under]

namespace Layer

mutual

def leaves : Layer → List Leaf
  | unit layer => leavesAfter [] [layer]
  | group transforms layers => (leavesOf layers).map (Leaf.under transforms)
termination_by structural layer => layer

def leavesOf : List Layer → List Leaf
  | [] => []
  | layer :: rest => leaves layer ++ leavesOf rest
termination_by structural layers => layers

end

theorem leavesOf_append (layers more : List Layer) :
    leavesOf (layers ++ more) = leavesOf layers ++ leavesOf more := by
  induction layers with
  | nil => rfl
  | cons layer rest ih => rw [List.cons_append, leavesOf, leavesOf, ih, List.append_assoc]

theorem leavesOf_map_unit (layers : List UnitLayer) :
    leavesOf (layers.map unit) = leavesAfter [] layers := by
  induction layers with
  | nil => rfl
  | cons layer rest ih =>
      rw [List.map_cons, leavesOf, leaves, ih]
      rfl

end Layer

def Drawing.leaves : Drawing → List Leaf
  | .layers parts => Layer.leavesOf parts
  | .single layer => leavesAfter [] [layer]
  | .nothing => []

namespace Expansion

theorem kept_put (spec : Record Value) (v : Value) {key : String}
    (h : key ∈ ["mark", "encoding", "params", "projection"]) :
    kept (spec.put key v) = kept spec :=
  Record.without_put h

/-- The steps that the author has written. -/
def authored (e : Expansion) : List Transform := (written e.outer).toOption.getD []

/-- The steps of the whole: those that the expansion sets, or else the author's. -/
def steps (e : Expansion) : List Transform := e.transforms.getD e.authored

def leaves (e : Expansion) : List Leaf := e.drawing.leaves.map (Leaf.under e.steps)

end Expansion

namespace Part

variable {mark : MarkDef} {settings : Record Value} {part : String} {base layer : UnitLayer}

theorem layers_of_drawn (hon : isDrawn mark settings part = true) : layers mark settings part base =
    [{ base with mark := styled mark settings part base.mark }] := by
  rw [layers, hon]
  rfl

theorem mem_layers_iff : layer ∈ layers mark settings part base ↔
    isDrawn mark settings part = true ∧
      layer = { base with mark := styled mark settings part base.mark } := by
  rw [layers]
  split
  · rename_i h
    simp [h]
  · rename_i h
    simp [h]

end Part

end ChartLowering
