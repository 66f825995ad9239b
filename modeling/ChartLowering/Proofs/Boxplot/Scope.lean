import ChartLowering.Proofs.Boxplot.Drawing
import ChartLowering.Proofs.Composite.Reads

/-!
# The scope of a boxplot

Outliers are drawn from single rows, whiskers and boxes from one row for each group. Each of these
kinds of rows has columns of its own, and a boxplot is in scope if its parts read no others.
-/

namespace ChartLowering

theorem Measure.provides_iff {m : Measure} (hmin : m.op ≠ "argmin") (hmax : m.op ≠ "argmax")
    {name : String} : m.Provides name ↔ name = m.output := by
  simp [Provides, hmin, hmax]

namespace Boxplot

namespace Plan

/-- The columns of some statistics of the field. -/
def columnsOf (p : Plan) (statistics : List String) : Set String :=
  {name | ∃ statistic ∈ statistics, name = statistic ++ p.column}

/-- The statistics that whiskers are drawn from. -/
def limitNames : List String := ["lower_whisker_", "upper_whisker_", "lower_box_", "upper_box_"]

/-- The statistics that are computed in one row for each group. -/
def summaryNames (whiskers : Whiskers) : List String :=
  ["lower_box_", "upper_box_", "mid_box_", leastName whiskers, greatestName whiskers]

/-- The columns of single rows that know the quartiles of their group. -/
def rowColumns (p : Plan) (columns : Set String) : Set String :=
  columns ∪ p.lifted.derived ∪ p.columnsOf ["lower_box_", "upper_box_"]

/-- The columns of groups whose rows lie within the limits. -/
def limitColumns (p : Plan) (columns : Set String) : Set String :=
  keptBy p.lifted.groupby (p.rowColumns columns) ∪ Measure.columns p.lifted.measures ∪
    p.columnsOf limitNames

/-- The columns of groups that have all statistics. -/
def summaryColumns (p : Plan) (columns : Set String) : Set String :=
  keptBy p.lifted.groupby (columns ∪ p.lifted.derived) ∪ Measure.columns p.lifted.measures ∪
    p.columnsOf (summaryNames p.whiskers) ∪
    (if p.whiskers = .boundedIqr then p.columnsOf ["iqr_", "upper_whisker_", "lower_whisker_"]
    else ∅)

variable {p : Plan} {author : Value → Set String → Set String} {columns : Set String}

theorem columns_quartiles :
    Measure.columns (quartiles p.axis.field p.column) =
      p.columnsOf ["lower_box_", "upper_box_"] := by
  ext name
  simp [Measure.columns, columnsOf, quartiles, Measure.provides_iff]

theorem columnsAfter_quartilesOnRows :
    columnsAfter author p.quartilesOnRows columns = p.rowColumns columns := by
  rw [quartilesOnRows, columnsAfter_append, Extraction.columnsAfter_prepared, rowColumns,
    ← columns_quartiles]
  rfl

theorem columns_whiskerMeasures : Measure.columns p.whiskerMeasures = p.columnsOf limitNames := by
  ext name
  simp [Measure.columns, columnsOf, limitNames, whiskerMeasures, Measure.provides_iff]

theorem columnsAfter_whiskerSteps (limits : Limits) :
    columnsAfter author (p.whiskerSteps limits) (p.rowColumns columns) =
      p.limitColumns columns := by
  show keptBy _ _ ∪ Measure.columns _ = _
  rw [Measure.columns_append, columns_whiskerMeasures, limitColumns, Set.union_assoc,
    Set.union_comm (Measure.columns _)]
  rfl

theorem columns_measures :
    Measure.columns (measures p.whiskers p.axis.field p.column) =
      p.columnsOf (summaryNames p.whiskers) := by
  rw [measures, Measure.columns_append, columns_quartiles]
  ext name
  simp [Measure.columns, columnsOf, summaryNames, Measure.provides_iff, or_assoc]

theorem columnsAfter_bounds (hp : p.Made) :
    columnsAfter author p.bounds columns = columns ∪
      (if p.whiskers = .boundedIqr then p.columnsOf ["iqr_", "upper_whisker_", "lower_whisker_"]
      else ∅) := by
  have hbounds := hp.bounds
  split at hbounds
  · rename_i hbounded
    obtain ⟨lower, -, hbounds⟩ := bind_eq_ok_iff.1 hbounds
    obtain ⟨upper, -, hbounds⟩ := bind_eq_ok_iff.1 hbounds
    obtain ⟨range, -, hbounds⟩ := bind_eq_ok_iff.1 hbounds
    obtain ⟨k, -, hbounds⟩ := bind_eq_ok_iff.1 hbounds
    obtain ⟨greatest, -, hbounds⟩ := bind_eq_ok_iff.1 hbounds
    obtain ⟨least, -, hbounds⟩ := bind_eq_ok_iff.1 hbounds
    rw [if_pos hbounded, ← Except.ok.inj hbounds]
    ext name
    simp only [columnsAfter, List.foldl_cons, List.foldl_nil, Transform.columns, columnsOf,
      Set.mem_union, Set.mem_singleton_iff, Set.mem_ofPred_eq, List.mem_cons, List.not_mem_nil,
      exists_eq_or_imp, exists_eq_left, or_false, or_assoc]
  · rename_i hbounded
    rw [if_neg hbounded, ← Except.ok.inj hbounds, Set.union_empty]
    rfl

theorem columnsAfter_statistics (hp : p.Made) :
    columnsAfter author p.statistics columns = p.summaryColumns columns := by
  rw [statistics, columnsAfter_append, Extraction.columnsAfter_prepared]
  show columnsAfter author p.bounds (keptBy _ _ ∪ Measure.columns _) = _
  rw [columnsAfter_bounds hp, Measure.columns_append, columns_measures, ← Set.union_assoc]
  rfl

end Plan

namespace Look

variable {l : Look} {layer : UnitLayer}

/-- The columns of the rows that whiskers are drawn from. -/
def whiskerColumns (l : Look) (columns : Set String) : Set String :=
  if l.plan.whiskers = .tukey then l.plan.limitColumns columns else l.plan.summaryColumns columns

/-- Does every part read only columns of the rows that it is drawn from? -/
structure Readable (l : Look) (columns : Set String) : Prop where
  points : ∀ layer ∈ l.points, layer.encoding.Readable (l.plan.rowColumns columns)
  whiskers : ∀ layer ∈ l.whiskers, layer.encoding.Readable (l.whiskerColumns columns)
  body : ∀ layer ∈ l.box ++ l.median, layer.encoding.Readable (l.plan.summaryColumns columns)

/-- The members that points take over from the rest of the encoding. -/
def keptMembers (l : Look) : Encoding :=
  (plainEncoding l.plan).erase "tooltip" ++
    optionalMember "color" (l.plan.lifted.encoding.value "color")

/-- The encoding of the points: the values themselves, and all that they take over. -/
def pointEncoding (l : Look) (position : Record Value) : Encoding :=
  Record.override [(l.plan.axis.channel, .object position)]
    (l.keptMembers ++ optionalMember "tooltip" l.plan.tooltip)

theorem exists_of_mem_points (h : layer ∈ l.points) :
    l.plan.whiskers = .tukey ∧ ∃ test position, layer.transforms = [.filter test] ∧
      valuePosition l.plan.axis.definition = .ok position ∧
      layer.encoding = l.pointEncoding position := by
  obtain ⟨htukey, limits, outliers, -, houtliers, h⟩ := exists_outliers_of_mem_points h
  obtain ⟨position, hposition, houtliers⟩ := bind_eq_ok_iff.1 houtliers
  obtain rfl := Except.ok.inj houtliers
  obtain ⟨-, rfl⟩ := Part.mem_layers_iff.1 h
  exact ⟨htukey, limits.outside, position, rfl, hposition, rfl⟩

theorem exists_of_mem_whiskers (h : layer ∈ l.whiskers) :
    layer.transforms = [] ∧ ∃ start stop,
      (∀ statistic ∈ start :: stop.toList, statistic ++ "_" ∈ Plan.limitNames) ∧
      layer.encoding =
        (l.context (plainEncoding l.plan)).encodingOf start stop l.whiskerTooltip := by
  rw [whiskers] at h
  simp only [List.mem_append] at h
  obtain ((h | h) | h) | h := h
  all_goals
    obtain ⟨htransforms, hencoding⟩ := Part.Context.mem_make h
    refine ⟨htransforms, _, _, ?_, hencoding⟩
    simp [Plan.limitNames]

theorem exists_of_mem_body (h : layer ∈ l.box ++ l.median) :
    layer.transforms = [] ∧ ∃ encoding start stop,
      (encoding = l.plan.lifted.encoding ∨ encoding = l.medianEncoding) ∧
      (∀ statistic ∈ start :: stop.toList, statistic ++ "_" ∈ Plan.summaryNames l.plan.whiskers) ∧
      layer.encoding = (l.context encoding).encodingOf start stop l.summary := by
  obtain h | h := List.mem_append.1 h
  · obtain ⟨htransforms, hencoding⟩ := Part.Context.mem_make h
    exact ⟨htransforms, _, _, _, .inl rfl, by simp [Plan.summaryNames], hencoding⟩
  · obtain ⟨htransforms, hencoding⟩ := Part.Context.mem_make h
    exact ⟨htransforms, _, _, _, .inr rfl, by simp [Plan.summaryNames], hencoding⟩

end Look

variable {author : Value → Set String → Set String} {columns : Set String}

theorem columnsAfter_whiskerSteps {look : Look} (hlook : look.Made)
    (hlimits : look.plan.whiskers = .tukey →
      ∃ limits, look.plan.limits = .ok limits ∧ look.outliers limits = .ok look.points) :
    columnsAfter author look.whiskerSteps columns = look.whiskerColumns columns := by
  rw [Look.whiskerSteps, Look.whiskerColumns]
  split
  · rename_i htukey
    obtain ⟨limits, hlimits, -⟩ := hlimits htukey
    rw [hlimits, columnsAfter_append, Plan.columnsAfter_quartilesOnRows]
    exact Plan.columnsAfter_whiskerSteps limits
  · exact Plan.columnsAfter_statistics hlook.plan

/-- A boxplot is in scope exactly if every part reads only columns of its own kind of rows. -/
theorem inScope_iff_readable {outer : Record Value} {look : Look} {e : Expansion}
    (hlook : look.Made) (h : draw outer look = .ok e) :
    e.InScope author columns ↔ look.Readable (columnsAfter author e.authored columns) := by
  set base := columnsAfter author e.authored columns with hbase
  have hpoints : (∀ leaf ∈ leavesAfter (e.authored ++ look.plan.quartilesOnRows) look.points,
      leaf.InScope author columns) ↔
        ∀ layer ∈ look.points, layer.encoding.Readable (look.plan.rowColumns base) := by
    refine inScope_leavesAfter_iff ?_ fun layer hlayer ↦ ?_
    · rw [columnsAfter_append, Plan.columnsAfter_quartilesOnRows]
    · obtain ⟨-, test, position, htransforms, -⟩ := Look.exists_of_mem_points hlayer
      rw [htransforms]
      rfl
  have hwhiskers : (∀ leaf ∈ leavesAfter (e.authored ++ look.whiskerSteps) look.whiskers,
      leaf.InScope author columns) ↔
        ∀ layer ∈ look.whiskers, layer.encoding.Readable (look.whiskerColumns base) := by
    refine inScope_leavesAfter_iff ?_ fun layer hlayer ↦ ?_
    · rw [columnsAfter_append, columnsAfter_whiskerSteps hlook (exists_limits_of_draw h)]
    · rw [(Look.exists_of_mem_whiskers hlayer).1]
      rfl
  have hbody : (∀ leaf ∈ leavesAfter (e.authored ++ look.plan.statistics)
      (look.box ++ look.median), leaf.InScope author columns) ↔
        ∀ layer ∈ look.box ++ look.median,
          layer.encoding.Readable (look.plan.summaryColumns base) := by
    refine inScope_leavesAfter_iff ?_ fun layer hlayer ↦ ?_
    · rw [columnsAfter_append, Plan.columnsAfter_statistics hlook.plan]
    · rw [(Look.exists_of_mem_body hlayer).1]
      rfl
  rw [Expansion.InScope, leaves_of_draw h, List.forall_mem_append, List.forall_mem_append,
    hpoints, hwhiskers, hbody]
  exact ⟨fun ⟨⟨hp, hw⟩, hb⟩ ↦ ⟨hp, hw, hb⟩, fun ⟨hp, hw, hb⟩ ↦ ⟨⟨hp, hw⟩, hb⟩⟩

end Boxplot

end ChartLowering
