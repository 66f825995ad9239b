import ChartLowering.FieldPath
import ChartLowering.Proofs.Composite.Leaves
import ChartLowering.Proofs.Encoding.Lifting
import Mathlib.Data.Set.Insert

/-!
# Columns

Every step changes which columns rows have. A layer is in scope if its encoding reads no others than
those that the steps before it leave. What the author's own steps do is left open.
-/

namespace ChartLowering

/-- The columns that aggregates give. -/
def Measure.columns (measures : List Measure) : Set String :=
  {name | ∃ m ∈ measures, m.Provides name}

/-- The columns that rows are grouped by. No others are left when groups become rows. -/
def keptBy (groupby : List String) (columns : Set String) : Set String :=
  {name | name ∈ columns ∧ ∃ path ∈ groupby, FieldPath.flatten path = .ok name}

/-- The columns that a bin writes: its start, its end and its label. -/
def BinTransform.columns (t : BinTransform) : Set String :=
  {t.output, t.output ++ "_end", t.output ++ "_range"}

/-- The columns of rows after a step. -/
def Transform.columns (author : Value → Set String → Set String) (columns : Set String) :
    Transform → Set String
  | given v => author v columns
  | bin t => columns ∪ t.columns
  | timeUnit t => columns ∪ {t.output}
  | aggregate measures groupby => keptBy groupby columns ∪ Measure.columns measures
  | joinAggregate measures _ => columns ∪ Measure.columns measures
  | calculate _ output => columns ∪ {output}
  | filter _ => columns

/-- The columns of rows after all of some steps. -/
def columnsAfter (author : Value → Set String → Set String) (steps : List Transform)
    (columns : Set String) : Set String :=
  steps.foldl (Transform.columns author) columns

/-- Does a path lead to one of these columns? -/
def Resolves (columns : Set String) (path : String) : Prop :=
  ∃ name ∈ columns, FieldPath.flatten path = .ok name

namespace ChannelDef

def conditions : Value → List Value
  | .object members | .fieldDef members => (Record.value members "condition").itemsOrSelf
  | _ => []

/-- The fields that a definition names, itself or in its conditions. -/
def reads (v : Value) : List String :=
  (fieldName? v).toList ++ (conditions v).filterMap fieldName?

end ChannelDef

/-- The fields that an encoding names on any of its channels. -/
def Encoding.reads (encoding : Encoding) : List String :=
  encoding.definitions.flatMap fun d ↦ ChannelDef.reads d.2

/-- Does an encoding read only these columns? -/
def Encoding.Readable (columns : Set String) (encoding : Encoding) : Prop :=
  ∀ path ∈ encoding.reads, Resolves columns path

/-- Does a leaf read only columns that its rows have? -/
def Leaf.InScope (author : Value → Set String → Set String) (columns : Set String)
    (leaf : Leaf) : Prop :=
  Encoding.Readable (columnsAfter author leaf.steps columns) leaf.layer.encoding

def Expansion.InScope (author : Value → Set String → Set String) (columns : Set String)
    (e : Expansion) : Prop :=
  ∀ leaf ∈ e.leaves, leaf.InScope author columns

variable {author : Value → Set String → Set String} {columns more : Set String}

theorem columnsAfter_append (steps next : List Transform) :
    columnsAfter author (steps ++ next) columns =
      columnsAfter author next (columnsAfter author steps columns) :=
  List.foldl_append

theorem inScope_leavesAfter_iff {steps : List Transform} {layers : List UnitLayer}
    (hsteps : columnsAfter author steps columns = more)
    (hlayers : ∀ layer ∈ layers, columnsAfter author layer.transforms more = more) :
    (∀ leaf ∈ leavesAfter steps layers, leaf.InScope author columns) ↔
      ∀ layer ∈ layers, layer.encoding.Readable more := by
  rw [leavesAfter, List.forall_mem_map]
  refine forall₂_congr fun layer hlayer ↦ ?_
  rw [Leaf.InScope, columnsAfter_append, hsteps, hlayers layer hlayer]

theorem Resolves.mono {path : String} (h : columns ⊆ more) (hpath : Resolves columns path) :
    Resolves more path := by
  obtain ⟨name, hname, hflatten⟩ := hpath
  exact ⟨name, h hname, hflatten⟩

theorem resolves_keptBy {groupby : List String} {path : String} (hpath : path ∈ groupby)
    (h : Resolves columns path) : Resolves (keptBy groupby columns) path := by
  obtain ⟨name, hname, hflatten⟩ := h
  exact ⟨name, ⟨hname, path, hpath, hflatten⟩, hflatten⟩

theorem Measure.columns_append (measures others : List Measure) :
    Measure.columns (measures ++ others) = Measure.columns measures ∪ Measure.columns others := by
  ext name
  simp [Measure.columns, or_and_right, exists_or]

namespace Extraction

/-- The columns that bins and time units write. -/
def derived (e : Extraction) : Set String :=
  {name | (∃ b ∈ e.bins, name ∈ b.columns) ∨ ∃ t ∈ e.timeUnits, name = t.output}

theorem columnsAfter_prepared (e : Extraction) :
    columnsAfter author e.prepared columns = columns ∪ e.derived := by
  have hbins : ∀ (bins : List BinTransform) (columns : Set String),
      columnsAfter author (bins.map .bin) columns =
        columns ∪ {name | ∃ b ∈ bins, name ∈ b.columns} := by
    intro bins
    induction bins with
    | nil => simp [columnsAfter]
    | cons b rest ih =>
        intro columns
        refine (ih (columns ∪ b.columns)).trans ?_
        ext name
        simp [or_assoc]
  have hunits : ∀ (units : List TimeUnitTransform) (columns : Set String),
      columnsAfter author (units.map .timeUnit) columns =
        columns ∪ {name | ∃ t ∈ units, name = t.output} := by
    intro units
    induction units with
    | nil => simp [columnsAfter]
    | cons t rest ih =>
        intro columns
        refine (ih (columns ∪ {t.output})).trans ?_
        ext name
        simp only [Set.mem_union, Set.mem_singleton_iff, Set.mem_ofPred_eq, List.mem_cons,
          exists_eq_or_imp, or_assoc]
  rw [prepared, columnsAfter_append, hbins, hunits, Set.union_assoc]
  rfl

end Extraction

end ChartLowering
