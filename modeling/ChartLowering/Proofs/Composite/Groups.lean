import ChartLowering.Composite.Registry
import ChartLowering.Proofs.Boxplot.Scope
import ChartLowering.Proofs.Boxplot.Toggles
import ChartLowering.Proofs.Errorbar.Columns

/-!
# The groups of a composite mark

The statistics of a composite mark are spread over layers that are nested in several ways. Wherever
they stand, they are computed over the same groups, and only after the author's own steps and those
that were lifted from the encoding.
-/

namespace ChartLowering

namespace Transform

/-- How a step groups rows, if it does: what it makes of each group, and by which columns. -/
def grouping? : Transform → Option (String × List String)
  | aggregate _ groupby => some ("aggregate", groupby)
  | joinAggregate _ groupby => some ("joinaggregate", groupby)
  | given _ | bin _ | timeUnit _ | calculate _ _ | filter _ => none

/-- Is this a step of the statistics, over no other groups than these? -/
def ComputesOver (groupby : List String) : Transform → Prop
  | aggregate _ columns | joinAggregate _ columns => columns = groupby
  | calculate _ _ | filter _ => True
  | given _ | bin _ | timeUnit _ => False

/-- Is this a step of the statistics that takes every row by itself? -/
def IsRowwise : Transform → Prop
  | calculate _ _ | filter _ => True
  | given _ | bin _ | timeUnit _ | aggregate _ _ | joinAggregate _ _ => False

theorem IsRowwise.computesOver {t : Transform} (h : t.IsRowwise) (groupby : List String) :
    t.ComputesOver groupby := by
  cases t with
  | calculate | filter => trivial
  | given | bin | timeUnit | aggregate | joinAggregate => exact h.elim

theorem IsRowwise.grouping?_eq {t : Transform} (h : t.IsRowwise) : t.grouping? = none := by
  cases t with
  | calculate | filter => rfl
  | given | bin | timeUnit | aggregate | joinAggregate => exact h.elim

end Transform

/-- The groupings of steps, in their order. -/
def groupings (steps : List Transform) : List (String × List String) :=
  steps.filterMap Transform.grouping?

section Groupings

variable {steps more : List Transform} {layers : List UnitLayer}

theorem groupings_append : groupings (steps ++ more) = groupings steps ++ groupings more :=
  List.filterMap_append

theorem groupings_of_rowwise (h : ∀ t ∈ steps, t.IsRowwise) : groupings steps = [] :=
  List.filterMap_eq_nil_iff.2 fun t ht ↦ (h t ht).grouping?_eq

theorem groupings_flatMap_transforms
    (h : ∀ layer ∈ layers, ∀ t ∈ layer.transforms, t.IsRowwise) :
    groupings (layers.flatMap UnitLayer.transforms) = [] := by
  apply groupings_of_rowwise
  intro t ht
  obtain ⟨layer, hlayer, ht⟩ := List.mem_flatMap.1 ht
  exact h layer hlayer t ht

theorem groupings_prepared (e : Extraction) : groupings e.prepared = [] := by
  refine List.filterMap_eq_nil_iff.2 fun t ht ↦ ?_
  obtain ht | ht := List.mem_append.1 ht
  · obtain ⟨b, -, rfl⟩ := List.mem_map.1 ht
    rfl
  · obtain ⟨u, -, rfl⟩ := List.mem_map.1 ht
    rfl

theorem Expansion.exists_given_of_mem_written {spec : Record Value} {written : List Transform}
    {t : Transform} (hwritten : Expansion.written spec = .ok written) (h : t ∈ written) :
    ∃ v, t = .given v := by
  rw [Expansion.written] at hwritten
  split at hwritten
  · obtain ⟨items, -, hwritten⟩ := bind_eq_ok_iff.1 hwritten
    obtain rfl := Except.ok.inj hwritten
    obtain ⟨v, -, rfl⟩ := List.mem_map.1 h
    exact ⟨v, rfl⟩
  · obtain rfl := Except.ok.inj hwritten
    cases h

theorem groupings_written {spec : Record Value} {written : List Transform}
    (hwritten : Expansion.written spec = .ok written) : groupings written = [] := by
  refine List.filterMap_eq_nil_iff.2 fun t ht ↦ ?_
  obtain ⟨v, rfl⟩ := Expansion.exists_given_of_mem_written hwritten ht
  rfl

end Groupings

namespace Layer

mutual

/-- The steps of a layer and of all layers in it. -/
def allSteps : Layer → List Transform
  | unit layer => layer.transforms
  | group transforms layers => transforms ++ allStepsOf layers
termination_by structural layer => layer

def allStepsOf : List Layer → List Transform
  | [] => []
  | layer :: rest => allSteps layer ++ allStepsOf rest
termination_by structural layers => layers

end

theorem allStepsOf_append (layers more : List Layer) :
    allStepsOf (layers ++ more) = allStepsOf layers ++ allStepsOf more := by
  induction layers with
  | nil => rfl
  | cons layer rest ih =>
      rw [List.cons_append, allStepsOf, allStepsOf, ih, List.append_assoc]

theorem allStepsOf_map_unit (layers : List UnitLayer) :
    allStepsOf (layers.map unit) = layers.flatMap UnitLayer.transforms := by
  induction layers with
  | nil => rfl
  | cons layer rest ih =>
      rw [List.map_cons, allStepsOf, allSteps, ih]
      rfl

end Layer

def Drawing.allSteps : Drawing → List Transform
  | .layers parts => Layer.allStepsOf parts
  | .single layer => layer.transforms
  | .nothing => []

/-- All steps that an expansion sets, for the whole or anywhere in its layers. -/
def Expansion.allSteps (e : Expansion) : List Transform :=
  e.transforms.getD [] ++ e.drawing.allSteps

/-- Are the columns of bins and time units among those that group the rows? -/
structure Lifted.Grouped (l : Lifted) : Prop where
  bins : ∀ t ∈ l.bins, t.output ∈ l.groupby
  timeUnits : ∀ t ∈ l.timeUnits, t.output ∈ l.groupby

theorem Lifted.grouped_of_ofDef {countTitle channel : String} {v : Value} {l : Lifted}
    (h : ofDef countTitle channel v = .ok l) : l.Grouped := by
  cases arises_of_ofDef h with
  | other | plain => exact ⟨List.forall_mem_nil _, List.forall_mem_nil _⟩
  | aggregate _ _ _ hmembers h =>
      obtain ⟨m, shown, name, rfl, -, -⟩ :=
        exists_of_ofAggregate (value_field_of_readDerived hmembers) h
      exact ⟨List.forall_mem_nil _, List.forall_mem_nil _⟩
  | bin _ _ _ _ _ h =>
      obtain ⟨ending, range, -, rfl⟩ := exists_of_ofBin h
      refine ⟨fun t ht ↦ ?_, List.forall_mem_nil _⟩
      obtain rfl := List.mem_singleton.1 ht
      exact List.mem_cons_self
  | timeUnit _ _ _ _ _ _ h =>
      obtain ⟨shown, -, rfl⟩ := exists_of_ofTimeUnit h
      refine ⟨List.forall_mem_nil _, fun t ht ↦ ?_⟩
      obtain rfl := List.mem_singleton.1 ht
      exact List.mem_cons_self

namespace Extraction

/-- Are the columns of bins and time units among those that group the rows? -/
structure Grouped (e : Extraction) : Prop where
  bins : ∀ t ∈ e.bins, t.output ∈ e.groupby
  timeUnits : ∀ t ∈ e.timeUnits, t.output ∈ e.groupby

variable {e e' : Extraction} {channel countTitle : String} {l : Lifted} {v : Value}

theorem Grouped.add (he : e.Grouped) (hl : l.Grouped) : (e.add channel l).Grouped := by
  constructor
  · intro t ht
    rw [Extraction.add, mem_addColumns_iff]
    exact (List.mem_append.1 ht).imp (he.bins t) (hl.bins t)
  · intro t ht
    rw [Extraction.add, mem_addColumns_iff]
    exact (List.mem_append.1 ht).imp (he.timeUnits t) (hl.timeUnits t)

theorem Grouped.foldl_add {lifted : List Lifted} (he : e.Grouped) (hl : ∀ l ∈ lifted, l.Grouped) :
    (lifted.foldl (fun e l ↦ e.add channel l) e).Grouped := by
  induction lifted generalizing e with
  | nil => exact he
  | cons l rest ih =>
      obtain ⟨hl, hrest⟩ := List.forall_mem_cons.1 hl
      exact ih (he.add hl) hrest

theorem grouped_addChannel (he : e.Grouped) (h : e.addChannel countTitle channel v = .ok e') :
    e'.Grouped := by
  rw [addChannel.eq_def] at h
  cases v with
  | list items =>
      obtain ⟨lifted, hlifted, h⟩ := bind_eq_ok_iff.1 h
      obtain rfl := Except.ok.inj h
      have hall : ∀ l ∈ lifted, l.Grouped := by
        intro l hl
        obtain ⟨v, -, hv⟩ := (mem_of_mapM_eq_ok hlifted).1 hl
        exact Lifted.grouped_of_ofDef hv
      have hsum : (lifted.foldl (fun e l ↦ e.add channel l) e).Grouped := he.foldl_add hall
      exact ⟨hsum.bins, hsum.timeUnits⟩
  | null | bool | int | float | text | set | object | fieldDef =>
      obtain ⟨l, hl, h⟩ := bind_eq_ok_iff.1 h
      obtain rfl := Except.ok.inj h
      have hsum : (e.add channel l).Grouped := he.add (Lifted.grouped_of_ofDef hl)
      exact ⟨hsum.bins, hsum.timeUnits⟩

/-- Rows that are binned or cut to time units are grouped by what comes of it. -/
theorem grouped_of_ofEncoding {encoding : Encoding} (h : ofEncoding encoding countTitle = .ok e) :
    e.Grouped :=
  induction_ofEncoding ⟨List.forall_mem_nil _, List.forall_mem_nil _⟩
    (fun _ _ _ _ _ _ he ↦ grouped_addChannel he) h

end Extraction

/-- Statistics over these groups, which some step of them forms. -/
structure StatisticsOver (groupby : List String) (steps : List Transform) : Prop where
  computes : ∀ t ∈ steps, t.ComputesOver groupby
  grouped : ∃ key, (key, groupby) ∈ groupings steps

/-- Do the rows of all leaves go through the author's steps first, then through those that were
lifted, and then through statistics over the groups of the latter? Rows are grouped nowhere else
than where the keys of steps say. -/
structure Expansion.ComputesOver (e : Expansion) (authored : List Transform)
    (lifted : Extraction) (keys : List String) : Prop where
  chains : ∀ leaf ∈ e.leaves, ∃ statistics,
    leaf.steps =
        authored ++ lifted.bins.map .bin ++ lifted.timeUnits.map .timeUnit ++ statistics ∧
      StatisticsOver lifted.groupby statistics
  groups : groupings e.allSteps = keys.map fun key ↦ (key, lifted.groupby)

/-- The keys of the steps that group the rows of a composite mark. Rows that are left out have to
know the statistics of their group before there is one row for it. -/
def groupingKeys (leavesOut : Bool) : List String :=
  if leavesOut then ["joinaggregate", "aggregate", "aggregate"] else ["aggregate"]

section Steps

variable {lifted : Extraction} {authored steps statistics more : List Transform}
  {layers : List UnitLayer} {leaf : Leaf} {groupby : List String}

theorem StatisticsOver.append (h : StatisticsOver groupby steps)
    (hmore : ∀ t ∈ more, t.ComputesOver groupby) : StatisticsOver groupby (steps ++ more) := by
  obtain ⟨key, hkey⟩ := h.grouped
  refine ⟨List.forall_mem_append.2 ⟨h.computes, hmore⟩, key, ?_⟩
  rw [groupings_append]
  exact List.mem_append_left _ hkey

theorem statisticsOver_aggregate (measures : List Measure)
    (hmore : ∀ t ∈ more, t.IsRowwise) :
    StatisticsOver groupby (.aggregate measures groupby :: more) :=
  ⟨List.forall_mem_cons.2 ⟨rfl, fun t ht ↦ (hmore t ht).computesOver groupby⟩,
    "aggregate", List.mem_cons_self⟩

theorem groupings_aggregate (measures : List Measure) (hmore : ∀ t ∈ more, t.IsRowwise) :
    groupings (lifted.prepared ++ .aggregate measures groupby :: more) =
      [("aggregate", groupby)] := by
  rw [groupings_append, groupings_prepared]
  exact congrArg (List.cons _) (groupings_of_rowwise hmore)

theorem exists_statistics_of_mem_leavesAfter (hsteps : steps = lifted.prepared ++ statistics)
    (hstatistics : StatisticsOver lifted.groupby statistics)
    (hlayers : ∀ layer ∈ layers, ∀ t ∈ layer.transforms, t.IsRowwise)
    (h : leaf ∈ leavesAfter (authored ++ steps) layers) :
    ∃ statistics, leaf.steps =
        authored ++ lifted.bins.map .bin ++ lifted.timeUnits.map .timeUnit ++ statistics ∧
      StatisticsOver lifted.groupby statistics := by
  obtain ⟨layer, hlayer, rfl⟩ := List.mem_map.1 h
  refine ⟨statistics ++ layer.transforms, ?_,
    hstatistics.append fun t ht ↦ (hlayers layer hlayer t ht).computesOver _⟩
  rw [hsteps, Extraction.prepared]
  simp only [List.append_assoc]

end Steps

section Parts

variable {mark : MarkDef} {settings : Record Value} {part : String}

/-- Is this a layer of a part, in the style that it has there? -/
def UnitLayer.IsPart (mark : MarkDef) (settings : Record Value) (part : String)
    (layer : UnitLayer) : Prop :=
  ∃ base, layer.mark = Part.styled mark settings part base

theorem Part.exists_isPart_of_drawn (hdrawn : isDrawn mark settings part = true)
    (base : UnitLayer) : ∃ layer ∈ layers mark settings part base,
      layer.IsPart mark settings part := by
  rw [layers_of_drawn hdrawn]
  exact ⟨_, List.mem_singleton_self _, base.mark, rfl⟩

theorem Part.Context.exists_isPart_of_drawn {c : Context}
    (hdrawn : isDrawn c.mark c.settings part = true) (base : MarkDef) (start : String)
    (stop : Option String) (extra : Encoding) :
    ∃ layer ∈ c.make part base start stop extra, layer.IsPart c.mark c.settings part :=
  Part.exists_isPart_of_drawn hdrawn _

end Parts

namespace Boxplot

variable {outer : Record Value} {look : Look} {e : Expansion}

namespace Plan

variable {p : Plan}

theorem rowwise_bounds (hp : p.Made) : ∀ t ∈ p.bounds, t.IsRowwise := by
  have hbounds := hp.bounds
  split at hbounds
  · obtain ⟨lower, -, hbounds⟩ := bind_eq_ok_iff.1 hbounds
    obtain ⟨upper, -, hbounds⟩ := bind_eq_ok_iff.1 hbounds
    obtain ⟨range, -, hbounds⟩ := bind_eq_ok_iff.1 hbounds
    obtain ⟨k, -, hbounds⟩ := bind_eq_ok_iff.1 hbounds
    obtain ⟨greatest, -, hbounds⟩ := bind_eq_ok_iff.1 hbounds
    obtain ⟨least, -, hbounds⟩ := bind_eq_ok_iff.1 hbounds
    rw [← Except.ok.inj hbounds]
    simp [Transform.IsRowwise]
  · rw [← Except.ok.inj hbounds]
    simp

theorem exists_statistics_eq (hp : p.Made) :
    ∃ steps, p.statistics = p.lifted.prepared ++ steps ∧ StatisticsOver p.lifted.groupby steps :=
  ⟨_, rfl, statisticsOver_aggregate _ (rowwise_bounds hp)⟩

theorem groupings_statistics (hp : p.Made) :
    groupings p.statistics = [("aggregate", p.lifted.groupby)] :=
  groupings_aggregate _ (rowwise_bounds hp)

theorem exists_quartilesOnRows_eq :
    ∃ steps, p.quartilesOnRows = p.lifted.prepared ++ steps ∧
      StatisticsOver p.lifted.groupby steps :=
  ⟨_, rfl, List.forall_mem_singleton.2 rfl, "joinaggregate", List.mem_cons_self⟩

theorem groupings_quartilesOnRows :
    groupings p.quartilesOnRows = [("joinaggregate", p.lifted.groupby)] := by
  rw [quartilesOnRows, groupings_append, groupings_prepared]
  rfl

theorem computesOver_whiskerSteps (limits : Limits) :
    ∀ t ∈ p.whiskerSteps limits, t.ComputesOver p.lifted.groupby := by
  simp [whiskerSteps, Transform.ComputesOver]

theorem groupings_whiskerSteps (limits : Limits) :
    groupings (p.whiskerSteps limits) = [("aggregate", p.lifted.groupby)] := rfl

end Plan

theorem Look.exists_whiskerSteps_eq (hp : look.plan.Made) :
    ∃ steps, look.whiskerSteps = look.plan.lifted.prepared ++ steps ∧
      StatisticsOver look.plan.lifted.groupby steps := by
  rw [Look.whiskerSteps]
  split
  · obtain ⟨steps, hsteps, hstatistics⟩ := look.plan.exists_quartilesOnRows_eq
    refine ⟨steps ++ (look.plan.limits.toOption.map look.plan.whiskerSteps).getD [], ?_,
      hstatistics.append ?_⟩
    · rw [hsteps, List.append_assoc]
    · cases look.plan.limits with
      | error fault => exact List.forall_mem_nil _
      | ok limits => exact look.plan.computesOver_whiskerSteps limits
  · exact look.plan.exists_statistics_eq hp

theorem rowwise_of_mem_points : ∀ layer ∈ look.points, ∀ t ∈ layer.transforms, t.IsRowwise := by
  intro layer hlayer
  obtain ⟨-, test, position, htransforms, -⟩ := Look.exists_of_mem_points hlayer
  rw [htransforms]
  exact List.forall_mem_singleton.2 trivial

theorem rowwise_of_mem_whiskers :
    ∀ layer ∈ look.whiskers, ∀ t ∈ layer.transforms, t.IsRowwise := by
  intro layer hlayer
  rw [(Look.exists_of_mem_whiskers hlayer).1]
  exact List.forall_mem_nil _

theorem rowwise_of_mem_body :
    ∀ layer ∈ look.box ++ look.median, ∀ t ∈ layer.transforms, t.IsRowwise := by
  intro layer hlayer
  rw [(Look.exists_of_mem_body hlayer).1]
  exact List.forall_mem_nil _

theorem allSteps_rowLayer {limits : Plan.Limits} {rows : Layer} {outliers : List UnitLayer}
    (houtliers : look.outliers limits = .ok outliers) (h : rowLayer look limits = .ok rows) :
    rows.allSteps = look.plan.quartilesOnRows ++ (outliers.flatMap UnitLayer.transforms ++
      (look.plan.whiskerSteps limits ++ look.whiskers.flatMap UnitLayer.transforms)) := by
  rw [rowLayer, houtliers] at h
  cases outliers with
  | nil =>
      obtain rfl := Except.ok.inj h
      rw [Layer.allSteps, Layer.allStepsOf_map_unit, List.append_assoc]
      rfl
  | cons first rest =>
      obtain rfl := Except.ok.inj h
      rw [Layer.allSteps, Layer.allStepsOf_append, Layer.allStepsOf_map_unit, Layer.allStepsOf,
        Layer.allSteps, Layer.allStepsOf_map_unit, Layer.allStepsOf, List.append_nil]

/-- The steps of a boxplot besides those that prepare its data for all marks: with outliers, they
are spread over the groups of its layers. -/
theorem allSteps_of_draw (h : draw outer look = .ok e) :
    (look.plan.whiskers = .tukey ∧ ∃ limits, look.plan.limits = .ok limits ∧
      e.allSteps = look.plan.quartilesOnRows ++ (look.points.flatMap UnitLayer.transforms ++
        look.plan.whiskerSteps limits) ++ look.plan.statistics) ∨
    (look.plan.whiskers ≠ .tukey ∧ ∃ written, Expansion.written outer = .ok written ∧
      e.allSteps = written ++ look.plan.statistics) := by
  have hwhiskers : look.whiskers.flatMap UnitLayer.transforms = [] :=
    List.flatMap_eq_nil_iff.2 fun _ hlayer ↦ (Look.exists_of_mem_whiskers hlayer).1
  have hbody : (look.box ++ look.median).flatMap UnitLayer.transforms = [] :=
    List.flatMap_eq_nil_iff.2 fun _ hlayer ↦ (Look.exists_of_mem_body hlayer).1
  rw [draw] at h
  dsimp only at h
  generalize look.box ++ look.median = body at h hbody
  split at h
  · rename_i htukey
    obtain ⟨limits, hlimits, h⟩ := bind_eq_ok_iff.1 h
    obtain ⟨layer, hlayer, h⟩ := bind_eq_ok_iff.1 h
    obtain rfl := Except.ok.inj h
    obtain ⟨outliers, houtliers, -⟩ := bind_eq_ok_iff.1 hlayer
    refine .inl ⟨htukey, limits, hlimits, ?_⟩
    show [] ++ (layer.allSteps ++ (_ ++ Layer.allStepsOf (body.map Layer.unit) ++ [])) = _
    rw [allSteps_rowLayer houtliers hlayer, Layer.allStepsOf_map_unit, hbody, hwhiskers,
      Look.points_of_outliers htukey hlimits houtliers]
    simp only [List.append_nil, List.nil_append, List.append_assoc]
  · rename_i htukey
    obtain ⟨written, hwritten, h⟩ := bind_eq_ok_iff.1 h
    obtain rfl := Except.ok.inj h
    refine .inr ⟨htukey, written, hwritten, ?_⟩
    show written ++ look.plan.statistics ++ Layer.allStepsOf (_ ++ _) = _
    rw [Layer.allStepsOf_append, Layer.allStepsOf_map_unit, Layer.allStepsOf_map_unit, hwhiskers,
      hbody, List.append_nil, List.append_nil]

/-- Every part that is drawn has a layer. Outliers need whiskers that leave rows out. -/
theorem exists_leaf_of_drawn (h : draw outer look = .ok e) {part : String} (hpart : part ∈ parts)
    (hdrawn : Part.isDrawn look.mark look.partSettings part = true)
    (hrows : part = "outliers" → look.plan.whiskers = .tukey) :
    ∃ leaf ∈ e.leaves, leaf.layer.IsPart look.mark look.partSettings part := by
  suffices hlayer : ∃ layer ∈ look.points ++ (look.whiskers ++ (look.box ++ look.median)),
      layer.IsPart look.mark look.partSettings part by
    obtain ⟨layer, hlayer, hstyle⟩ := hlayer
    rw [← layers_of_draw h] at hlayer
    obtain ⟨leaf, hleaf, rfl⟩ := List.mem_map.1 hlayer
    exact ⟨leaf, hleaf, hstyle⟩
  have hmade {encoding : Encoding} (base : MarkDef) (start : String) (stop : Option String)
      (extra : Encoding) : ∃ layer ∈ (look.context encoding).make part base start stop extra,
        layer.IsPart look.mark look.partSettings part :=
    Part.Context.exists_isPart_of_drawn hdrawn base start stop extra
  simp only [parts, List.mem_cons, List.not_mem_nil, or_false] at hpart
  rw [Look.whiskers]
  rcases hpart with rfl | rfl | rfl | rfl | rfl
  · obtain ⟨layer, hlayer, hstyle⟩ := hmade _ _ _ _
    exact ⟨layer, List.mem_append_right _ <| List.mem_append_right _ <|
      List.mem_append_left _ hlayer, hstyle⟩
  · obtain ⟨layer, hlayer, hstyle⟩ := hmade _ _ _ _
    exact ⟨layer, List.mem_append_right _ <| List.mem_append_right _ <|
      List.mem_append_right _ hlayer, hstyle⟩
  · obtain ⟨limits, -, houtliers⟩ := exists_limits_of_draw h (hrows rfl)
    obtain ⟨base, -, hpoints⟩ := Look.exists_of_outliers houtliers
    obtain ⟨layer, hlayer, hstyle⟩ := Part.exists_isPart_of_drawn hdrawn base
    exact ⟨layer, List.mem_append_left _ (hpoints ▸ hlayer), hstyle⟩
  · obtain ⟨layer, hlayer, hstyle⟩ := hmade _ _ _ _
    exact ⟨layer, List.mem_append_right _ <| List.mem_append_left _ <| List.mem_append_left _ <|
      List.mem_append_left _ <| List.mem_append_left _ hlayer, hstyle⟩
  · obtain ⟨layer, hlayer, hstyle⟩ := hmade _ _ _ _
    exact ⟨layer, List.mem_append_right _ <| List.mem_append_left _ <|
      List.mem_append_right _ hlayer, hstyle⟩

variable (hplan : look.plan.Made) (h : draw outer look = .ok e)

include hplan h

theorem exists_statistics_of_mem_leaves {leaf : Leaf} (hleaf : leaf ∈ e.leaves) :
    ∃ statistics,
      leaf.steps = e.authored ++ look.plan.lifted.bins.map .bin ++
        look.plan.lifted.timeUnits.map .timeUnit ++ statistics ∧
      StatisticsOver look.plan.lifted.groupby statistics := by
  rw [leaves_of_draw h, List.mem_append, List.mem_append] at hleaf
  obtain (hleaf | hleaf) | hleaf := hleaf
  · obtain ⟨rows, hrows, hstatistics⟩ := look.plan.exists_quartilesOnRows_eq
    exact exists_statistics_of_mem_leavesAfter hrows hstatistics rowwise_of_mem_points hleaf
  · obtain ⟨whiskers, hwhiskers, hstatistics⟩ := look.exists_whiskerSteps_eq hplan
    exact exists_statistics_of_mem_leavesAfter hwhiskers hstatistics rowwise_of_mem_whiskers hleaf
  · obtain ⟨summary, hsummary, hstatistics⟩ := look.plan.exists_statistics_eq hplan
    exact exists_statistics_of_mem_leavesAfter hsummary hstatistics rowwise_of_mem_body hleaf

theorem groupings_allSteps : groupings e.allSteps =
    (groupingKeys (look.plan.whiskers = .tukey)).map fun key ↦
      (key, look.plan.lifted.groupby) := by
  obtain ⟨htukey, limits, -, hall⟩ | ⟨htukey, written, hwritten, hall⟩ := allSteps_of_draw h
  · rw [hall, groupings_append, groupings_append, groupings_append,
      look.plan.groupings_quartilesOnRows, groupings_flatMap_transforms rowwise_of_mem_points,
      look.plan.groupings_whiskerSteps, look.plan.groupings_statistics hplan, decide_eq_true htukey]
    rfl
  · rw [hall, groupings_append, groupings_written hwritten, look.plan.groupings_statistics hplan,
      decide_eq_false htukey]
    rfl

/-- Whatever its whiskers and however its layers are nested, a boxplot computes everything over the
groups of one extraction. -/
theorem computesOver_of_draw :
    e.ComputesOver e.authored look.plan.lifted (groupingKeys (look.plan.whiskers = .tukey)) :=
  ⟨fun _ hleaf ↦ exists_statistics_of_mem_leaves hplan h hleaf, groupings_allSteps hplan h⟩

end Boxplot

namespace Errorbar

variable {outer : Record Value} {look : Look} {e : Expansion} {encoding : Encoding}
  {countTitle : String} {s : Statistics}

theorem rowwise_of_mem_layers :
    ∀ layer ∈ layers look.context look.orient look.tooltip, ∀ t ∈ layer.transforms,
      t.IsRowwise := by
  intro layer hlayer
  have htransforms : layer.transforms = [] := by
    rw [layers] at hlayer
    simp only [List.mem_append] at hlayer
    obtain (hlayer | hlayer) | hlayer := hlayer
    all_goals exact (Part.Context.mem_make hlayer).1
  rw [htransforms]
  exact List.forall_mem_nil _

theorem allSteps_drawing (layers : List UnitLayer) :
    (drawing layers).allSteps = layers.flatMap UnitLayer.transforms := by
  rcases layers with _ | ⟨layer, _ | ⟨next, rest⟩⟩
  · rfl
  · exact (List.append_nil _).symm
  · exact Layer.allStepsOf_map_unit (layer :: next :: rest)

/-- Every part that is drawn has a layer. -/
theorem exists_leaf_of_drawn (h : draw outer look = .ok e) {part : String} (hpart : part ∈ parts)
    (hdrawn : Part.isDrawn look.context.mark look.context.settings part = true) :
    ∃ leaf ∈ e.leaves, leaf.layer.IsPart look.context.mark look.context.settings part := by
  suffices hlayer : ∃ layer ∈ layers look.context look.orient look.tooltip,
      layer.IsPart look.context.mark look.context.settings part by
    obtain ⟨layer, hlayer, hstyle⟩ := hlayer
    rw [(leaves_of_draw h).2]
    exact ⟨_, List.mem_map_of_mem hlayer, hstyle⟩
  simp only [parts, List.mem_cons, List.not_mem_nil, or_false] at hpart
  rw [layers]
  rcases hpart with rfl | rfl
  · obtain ⟨layer, hlayer, hstyle⟩ := Part.Context.exists_isPart_of_drawn hdrawn _ _ _ _
    exact ⟨layer, List.mem_append_left _ (List.mem_append_left _ hlayer), hstyle⟩
  · obtain ⟨layer, hlayer, hstyle⟩ := Part.Context.exists_isPart_of_drawn hdrawn _ _ _ _
    exact ⟨layer, List.mem_append_right _ hlayer, hstyle⟩

/-- An error bar computes everything over the groups of one extraction. -/
theorem exists_computesOver_of_draw (hlook : look.Computed encoding countTitle s)
    (h : draw outer look = .ok e) : ∃ lifted,
      Extraction.ofEncoding (encoding.erase look.context.axis.channel) countTitle = .ok lifted ∧
        e.ComputesOver e.authored lifted (groupingKeys false) := by
  obtain ⟨lifted, hlifted, -, hsteps⟩ := hlook.others
  obtain ⟨center, extent, hstatistics⟩ := hlook.statistics
  have hrowwise : ∀ t ∈ s.steps, t.IsRowwise := by
    intro t ht
    obtain ⟨expr, output, -, rfl, -⟩ := (for_of_statistics hstatistics).calculated t ht
    trivial
  refine ⟨lifted, hlifted, fun leaf hleaf ↦ ?_, ?_⟩
  · rw [(leaves_of_draw h).2] at hleaf
    exact exists_statistics_of_mem_leavesAfter hsteps (statisticsOver_aggregate _ hrowwise)
      rowwise_of_mem_layers hleaf
  · obtain ⟨written, hwritten, h⟩ := bind_eq_ok_iff.1 h
    obtain rfl := Except.ok.inj h
    show groupings (written ++ look.steps ++ (drawing _).allSteps) = _
    rw [allSteps_drawing, groupings_append, groupings_append, groupings_written hwritten, hsteps,
      groupings_aggregate _ hrowwise, groupings_flatMap_transforms rowwise_of_mem_layers]
    rfl

end Errorbar

theorem Expansion.written_kept (spec : Record Value) : written (kept spec) = written spec := by
  rw [written, written, Record.value, kept, Record.get?_without_of_notMem (by decide), Record.value]

namespace Composite

def name : Composite → String
  | boxplot _ => Boxplot.markName
  | errorbar => Errorbar.markName

/-- The encoding that transforms are lifted from, given all of it but the axis. Tooltips that need
the single rows of a boxplot have no part in it. -/
def liftedFrom : Composite → Encoding → Encoding
  | boxplot _, encoding => (Tooltip.split encoding).encoding
  | errorbar, encoding => encoding

/-- What is lifted from the encoding of a specification. -/
def lifted (c : Composite) (spec : Record Value) (settings : Settings)
    (parse : Shorthand.Reader := Shorthand.members) : Report Extraction := do
  let encoding ← Encoding.normalize (spec.value "encoding") parse
  let spec := spec.put "encoding" (.object encoding)
  let orient ← ContinuousAxis.orientation spec c.name
  let axis ← ContinuousAxis.ofSpec spec orient c.name
  Extraction.ofEncoding (c.liftedFrom (encoding.erase axis.channel)) settings.countTitle

variable {c : Composite} {spec : Record Value} {settings : Settings} {parse : Shorthand.Reader}
  {e : Expansion}

theorem outcome_lifted {encoding : Encoding} {orient : Orientation} {axis : ContinuousAxis}
    {l : Extraction}
    (hencoding : (Encoding.normalize (spec.value "encoding") parse).outcome = .ok encoding)
    (horient : (liftM (ContinuousAxis.orientation (spec.put "encoding" (.object encoding)) c.name) :
      Report Orientation).outcome = .ok orient)
    (haxis : (ContinuousAxis.ofSpec (spec.put "encoding" (.object encoding)) orient
      c.name).outcome = .ok axis)
    (hlifted : Extraction.ofEncoding (c.liftedFrom (encoding.erase axis.channel))
      settings.countTitle = .ok l) : (c.lifted spec settings parse).outcome = .ok l := by
  rw [lifted]
  refine Report.outcome_bind_eq_ok_iff.2 ⟨encoding, hencoding, ?_⟩
  refine Report.outcome_bind_eq_ok_iff.2 ⟨orient, horient, ?_⟩
  exact Report.outcome_bind_eq_ok_iff.2 ⟨axis, haxis, hlifted⟩

/-- Are rows left out of the statistics, to be drawn by themselves? -/
def leavesOut : Composite → MarkDef → Settings → Bool
  | boxplot whiskers, mark, settings =>
      (Boxplot.whiskersFor whiskers (Boxplot.extentOf mark settings)).toOption = some .tukey
  | errorbar, _, _ => false

/-- Is a part drawn? There are outliers only where rows are left out. -/
def Draws (c : Composite) (mark : MarkDef) (settings : Settings) (part : String) : Prop :=
  Part.isDrawn mark (c.members settings) part = true ∧
    (part = "outliers" → c.leavesOut mark settings = true)

instance (c : Composite) (mark : MarkDef) (settings : Settings) (part : String) :
    Decidable (c.Draws mark settings part) :=
  inferInstanceAs (Decidable (_ ∧ (_ → _)))

theorem leavesOut_of_whiskersFor {whiskers : Option Whiskers} {mark : MarkDef} {w : Whiskers}
    (h : Boxplot.whiskersFor whiskers (Boxplot.extentOf mark settings) = .ok w) :
    (boxplot whiskers).leavesOut mark settings = decide (w = .tukey) := by
  rw [leavesOut, h]
  exact decide_eq_decide.2 Option.some_inj

/-- All statistics of a composite mark are computed over the same groups. Its rows go through the
author's own steps, then all bins that were lifted from the encoding, then all time units, and
only then through steps of the mark. Bins and time units are among the columns that group them, and
no part that is to be drawn is missing. -/
theorem computesOver_of_expand (h : (c.expand spec settings parse).outcome = .ok e) :
    ∃ m lifted, spec.require "mark" = .ok m ∧
      (c.lifted spec settings parse).outcome = .ok lifted ∧ lifted.Grouped ∧
      e.ComputesOver ((Expansion.written spec).toOption.getD []) lifted
        (groupingKeys (c.leavesOut (.ofValue m) settings)) ∧
      ∀ part ∈ c.parts, c.Draws (.ofValue m) settings part →
        ∃ leaf ∈ e.leaves, leaf.layer.IsPart (.ofValue m) (c.members settings) part := by
  cases c with
  | boxplot whiskers =>
      obtain ⟨encoding, m, look, hencoding, hmark, hat, hdraw⟩ :=
        Boxplot.exists_lookAt_of_expand h
      obtain ⟨w, k, -, -, hplan, -⟩ := Boxplot.exists_plan_of_lookAt hat
      obtain ⟨hlmark, hlsettings⟩ := Boxplot.mark_and_settings_of_lookAt hat
      rw [Boxplot.Plan.ofSpec_eq] at hplan
      obtain ⟨orient, horient, hplan⟩ := Report.outcome_bind_eq_ok_iff.1 hplan
      obtain ⟨axis, haxis, hplan⟩ := Report.outcome_bind_eq_ok_iff.1 hplan
      obtain ⟨-, -, hlifted⟩ := Boxplot.Plan.given_of_along hplan
      have hleavesOut := leavesOut_of_whiskersFor (Boxplot.given_of_lookAt hat).1
      have hdrawn := Boxplot.computesOver_of_draw (Boxplot.made_of_lookAt hat).plan hdraw
      rw [Expansion.authored, Boxplot.Look.outer_of_draw hdraw, Expansion.written_kept,
        ← hleavesOut] at hdrawn
      refine ⟨m, _, hmark, outcome_lifted hencoding horient haxis hlifted,
        Extraction.grouped_of_ofEncoding hlifted, hdrawn, ?_⟩
      rintro part hpart ⟨hon, hrows⟩
      have hsettings : look.partSettings = (boxplot whiskers).members settings := by
        rw [Boxplot.Look.partSettings, hlsettings]
        rfl
      rw [← hlmark, ← hsettings] at hon ⊢
      exact Boxplot.exists_leaf_of_drawn hdraw hpart hon fun houtliers ↦
        of_decide_eq_true (hleavesOut.symm.trans (hrows houtliers))
  | errorbar =>
      rw [expand, Errorbar.expand_eq] at h
      obtain ⟨look, hlook, hdraw⟩ := Stages.exists_look_of_expand h
      obtain ⟨encoding, m, hencoding, -, hmark, hat⟩ := Stages.exists_encoding_of_lookOf hlook
      obtain ⟨horient, haxis, ⟨s, hcomputed⟩, hlmark, hlsettings⟩ := Errorbar.made_of_lookAt hat
      obtain ⟨l, hlifted, hdrawn⟩ := Errorbar.exists_computesOver_of_draw hcomputed hdraw
      rw [Expansion.authored, (Errorbar.leaves_of_draw hdraw).1, Expansion.written_kept] at hdrawn
      refine ⟨m, l, hmark,
        outcome_lifted hencoding ((Report.outcome_lift _).trans horient) haxis hlifted,
        Extraction.grouped_of_ofEncoding hlifted, hdrawn, ?_⟩
      rintro part hpart ⟨hon, -⟩
      have hsettings : look.context.settings = errorbar.members settings := hlsettings
      rw [← hlmark, ← hsettings] at hon ⊢
      exact Errorbar.exists_leaf_of_drawn hdraw hpart hon

def ticked : Value := .object [("type", .text "boxplot"), ("ticks", .bool true)]

/-- A boxplot with all its parts for each month and each bin of a field. -/
def monthlyBins : Record Value :=
  [("transform", .list [.object [("filter", .text "datum.v > 0")]]), ("mark", ticked),
   ("encoding", .object
      [("x", .object [("field", .text "a"), ("bin", .object [])]), ("y", .text "v:Q"),
       ("color", .object [("field", .text "t"), ("timeUnit", .text "month")]),
       ("tooltip", .text "count()")])]

theorem computesOver_of_expand_monthlyBins : ∃ e lifted,
    ((boxplot none).expand monthlyBins {}).outcome = .ok e ∧
    e.ComputesOver [.given (.object [("filter", .text "datum.v > 0")])] lifted
      ["joinaggregate", "aggregate", "aggregate"] ∧
    lifted.groupby = ["bin_a", "bin_a_end", "month_t"] ∧
    groupings e.allSteps =
      [("joinaggregate", ["bin_a", "bin_a_end", "month_t"]),
       ("aggregate", ["bin_a", "bin_a_end", "month_t"]),
       ("aggregate", ["bin_a", "bin_a_end", "month_t"])] ∧
    ∀ part ∈ ["box", "median", "outliers", "rule", "ticks"], ∃ leaf ∈ e.leaves,
      leaf.layer.IsPart (.ofValue ticked) ((boxplot none).members {}) part := by
  have hrun : (do
      let _ ← ((boxplot none).expand monthlyBins {}).outcome
      pure ()) = (.ok () : Except Fault Unit) := by decide +kernel
  obtain ⟨e, he, -⟩ := bind_eq_ok_iff.1 hrun
  obtain ⟨m, lifted, hmark, hlifted, -, hcomputes, hparts⟩ := computesOver_of_expand he
  obtain rfl : ticked = m := Except.ok.inj hmark
  have hgroups : (do
      let l ← ((boxplot none).lifted monthlyBins {}).outcome
      pure l.groupby) =
      (.ok ["bin_a", "bin_a_end", "month_t"] : Except Fault (List String)) := by decide +kernel
  rw [hlifted] at hgroups
  have hgroups := Except.ok.inj hgroups
  have hdrawn : ∀ part ∈ ["box", "median", "outliers", "rule", "ticks"],
      (boxplot none).Draws (.ofValue ticked) {} part := by decide +kernel
  refine ⟨e, lifted, he, hcomputes, hgroups, ?_, fun part hpart ↦
    hparts part hpart (hdrawn part hpart)⟩
  rw [hcomputes.groups, hgroups]
  rfl

end Composite

end ChartLowering
