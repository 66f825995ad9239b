import ChartLowering.Proofs.Boxplot.Scope

/-!
# Boxplots whose names line up

The parts of a boxplot and the steps before them meet by name alone. If their names line up, all
that can be missing is what an outlier reads of its group: its aggregates.
-/

namespace ChartLowering.Boxplot

namespace Plan

/-- The names of all statistics. -/
def statisticNames : List String :=
  ["lower_box_", "upper_box_", "mid_box_", "lower_whisker_", "upper_whisker_", "min_", "max_"]

/-- Do the names of a plan line up? Rows have the columns `columns` to begin with. -/
structure Orderly (p : Plan) (columns : Set String) : Prop where
  field : Resolves columns p.axis.field.shown
  /-- The name of a statistic of a path is that of the column. -/
  statistics : ∀ statistic ∈ statisticNames,
    FieldPath.flatten (statistic ++ p.axis.field.shown) = .ok (statistic ++ p.column)
  groups : ∀ path ∈ p.lifted.groupby, Resolves (columns ∪ p.lifted.derived) path
  ends : ∀ b ∈ p.lifted.bins, b.output ++ "_end" ∈ p.lifted.groupby
  aggregates : ∀ path ∈ p.lifted.encoding.reads, ∀ m ∈ p.lifted.measures, m.Provides path →
    Resolves (Measure.columns p.lifted.measures) path
  named : "" ∉ p.lifted.encoding.reads
  /-- Conditions read what rows are grouped by. -/
  conditions : ∀ d ∈ p.lifted.encoding.definitions, ∀ condition ∈ ChannelDef.conditions d.2,
    ∀ path, ChannelDef.fieldName? condition = some path → path ∈ p.lifted.groupby
  /-- No member of the color is named twice. -/
  color : ∀ members, p.lifted.encoding.value "color" = .object members →
    (Record.keys members).Nodup
  /-- Tooltips that list fields refer to columns that the encoding reads. -/
  references : ∀ fds, ChannelDef.fieldDefs p.lifted.encoding = .ok fds → ∀ fd ∈ fds,
    ∀ path, fd.reference = .ok path →
      ∃ read ∈ p.lifted.encoding.reads, FieldPath.flatten path = FieldPath.flatten read
  tooltip : ∀ v ∈ p.tooltip.itemsOrSelf, ∀ path ∈ ChannelDef.reads v,
    Resolves (columns ∪ p.lifted.derived) path

/-- Do single rows have what the points read of their groups? -/
def RowsSuffice (p : Plan) (columns : Set String) : Prop :=
  ∀ m ∈ p.lifted.encoding, m.1 ∉ ["size", "tooltip"] → ∀ v ∈ m.2.itemsOrSelf,
    ∀ path ∈ ChannelDef.reads v, (∃ measure ∈ p.lifted.measures, measure.Provides path) →
      Resolves (p.rowColumns columns) path

variable {p : Plan} {columns : Set String} {path : String}

theorem serves_of_mem_reads (hp : p.Made) (ho : p.Orderly columns)
    (h : path ∈ p.lifted.encoding.reads) : p.lifted.Serves path := by
  obtain ⟨encoding, countTitle, hlifted⟩ := hp.lifted
  obtain ⟨d, hd, hpath⟩ := List.mem_flatMap.1 h
  obtain hpath | hpath := List.mem_append.1 hpath
  · refine Extraction.served_of_ofEncoding hlifted d hd path (Option.mem_toList.1 hpath) ?_
    rintro rfl
    exact ho.named h
  · obtain ⟨condition, hcondition, hname⟩ := List.mem_filterMap.1 hpath
    exact .inl (ho.conditions d hd condition hcondition path hname)

theorem resolves_or_provided (hp : p.Made) (ho : p.Orderly columns)
    (h : path ∈ p.lifted.encoding.reads) :
    Resolves (columns ∪ p.lifted.derived) path ∨
      ∃ measure ∈ p.lifted.measures, measure.Provides path := by
  obtain hgroup | hmeasure | ⟨b, hb, rfl⟩ := serves_of_mem_reads hp ho h
  · exact .inl (ho.groups path hgroup)
  · exact .inr hmeasure
  · exact .inl (ho.groups _ (ho.ends b hb))

theorem resolves_groups (hp : p.Made) (ho : p.Orderly columns)
    (h : path ∈ p.lifted.encoding.reads) {rows : Set String}
    (hrows : columns ∪ p.lifted.derived ⊆ rows) :
    Resolves (keptBy p.lifted.groupby rows ∪ Measure.columns p.lifted.measures) path := by
  have hkept : ∀ path ∈ p.lifted.groupby, Resolves
      (keptBy p.lifted.groupby rows ∪ Measure.columns p.lifted.measures) path :=
    fun path hpath ↦ (resolves_keptBy hpath ((ho.groups path hpath).mono hrows)).mono
      Set.subset_union_left
  obtain hgroup | ⟨measure, hmeasure, hprovides⟩ | ⟨b, hb, rfl⟩ := serves_of_mem_reads hp ho h
  · exact hkept path hgroup
  · exact (ho.aggregates path h measure hmeasure hprovides).mono Set.subset_union_right
  · exact hkept _ (ho.ends b hb)

theorem resolves_statistic (ho : p.Orderly columns) {statistic : String} {found : Set String}
    (hstatistic : statistic ∈ statisticNames) (h : statistic ++ p.column ∈ found) :
    Resolves found (statistic ++ p.axis.field.shown) :=
  ⟨_, h, ho.statistics statistic hstatistic⟩

theorem mem_summaryColumns {statistic : String} (h : statistic ∈ summaryNames p.whiskers) :
    statistic ++ p.column ∈ p.summaryColumns columns :=
  .inl (.inr ⟨statistic, h, rfl⟩)

theorem mem_statisticNames_of_mem_summaryNames {statistic : String}
    (h : statistic ∈ summaryNames p.whiskers) : statistic ∈ statisticNames := by
  cases hw : p.whiskers <;>
    simp [summaryNames, leastName, greatestName, hw] at h <;>
    rcases h with rfl | rfl | rfl | rfl | rfl <;> decide

end Plan

namespace Look

variable {l : Look} {columns : Set String} {path : String}

theorem mem_whiskerColumns {statistic : String} (h : statistic ∈ Plan.limitNames) :
    statistic ++ l.plan.column ∈ l.whiskerColumns columns := by
  rw [whiskerColumns]
  cases hw : l.plan.whiskers with
  | tukey => exact .inr ⟨statistic, h, rfl⟩
  | minMax =>
      refine .inl (.inr ⟨statistic, ?_, rfl⟩)
      rw [hw]
      revert statistic
      decide
  | boundedIqr =>
      rw [if_neg (by decide), Plan.summaryColumns, hw, if_pos rfl]
      have hnames : statistic ∈ Plan.summaryNames .boundedIqr ∨
          statistic ∈ ["iqr_", "upper_whisker_", "lower_whisker_"] := by
        revert statistic
        decide
      exact hnames.imp (fun h ↦ .inr ⟨statistic, h, rfl⟩) fun h ↦ ⟨statistic, h, rfl⟩

theorem mem_optionalMember_iff {key : String} {v : Value} {m : String × Value} :
    m ∈ optionalMember key v ↔ v.truthy = true ∧ m = (key, v) := by
  rw [optionalMember]
  split <;> simp_all

theorem mem_of_mem_optionalMember {r : Record Value} {key : String} {m : String × Value}
    (h : m ∈ optionalMember key (r.value key)) : m ∈ r := by
  obtain ⟨htruthy, rfl⟩ := mem_optionalMember_iff.1 h
  exact Record.mem_of_value_truthy htruthy

theorem mem_of_mem_plainEncoding {p : Plan} {m : String × Value} (h : m ∈ plainEncoding p) :
    m ∈ p.lifted.encoding :=
  (List.mem_filter.1 h).1

theorem exists_of_medianColor {p : Plan} {s : Settings} {color : Value}
    (h : medianColor p s = .ok color) : ∃ (test : String) (shown : Record Value),
      color = .object [("condition", .object (Record.override [("test", .text test)] shown))] ∧
        (p.lifted.encoding.value "color" = .object shown ∨ shown = [("value", boxColor s)]) := by
  obtain ⟨lower, -, h⟩ := bind_eq_ok_iff.1 h
  obtain ⟨upper, -, h⟩ := bind_eq_ok_iff.1 h
  dsimp only at h
  split at h
  · obtain ⟨shown, hshown, h⟩ := bind_eq_ok_iff.1 h
    refine ⟨_, shown, (Except.ok.inj h).symm, .inl ?_⟩
    rw [Value.spread.eq_def] at hshown
    split at hshown
    · rename_i hcolor
      rw [hcolor, Except.ok.inj hshown]
    · cases hshown
  · exact ⟨_, _, (Except.ok.inj h).symm, .inr rfl⟩

/-- The tick at the median reads what the rest of the encoding reads, its color in a condition. -/
theorem mem_reads_medianEncoding (hl : l.Made) (ho : l.plan.Orderly columns)
    (h : path ∈ l.medianEncoding.reads) : path ∈ l.plan.lifted.encoding.reads := by
  obtain ⟨color, hcolor, hmedian⟩ := bind_eq_ok_iff.1 hl.medianEncoding
  rw [← Except.ok.inj hmedian] at h
  obtain ⟨d, hd, hpath⟩ := List.mem_flatMap.1 h
  obtain ⟨-, hd⟩ | hd := Extraction.mem_definitions_put hd
  · obtain ⟨test, shown, rfl, hshown⟩ := exists_of_medianColor hcolor
    rw [List.mem_singleton.1 hd] at hpath
    obtain ⟨condition, hcondition, hname⟩ := List.mem_filterMap.1
      (show path ∈ [Value.object (Record.override [("test", .text test)] shown)].filterMap
        ChannelDef.fieldName? from hpath)
    obtain rfl := List.mem_singleton.1 hcondition
    have hfield := ChannelDef.mem_field_of_fieldName? hname
    -- The field of the condition is that of the color, for the test is no field.
    obtain hfield | hfield := Record.mem_of_mem_override hfield
    · simp at hfield
    · obtain hshown | rfl := hshown
      · have hmember : ("color", Value.object shown) ∈ l.plan.lifted.encoding :=
          hshown ▸ Record.mem_of_value_truthy (by
            rw [hshown]
            cases shown <;> simp_all [Value.truthy])
        refine Encoding.mem_reads_iff.2 ⟨_, hmember, _, List.mem_singleton_self _, ?_⟩
        refine List.mem_append_left _ (Option.mem_toList.2 ?_)
        rw [ChannelDef.fieldName?, Record.value, Record.get?_of_mem (ho.color shown hshown) hfield]
        rfl
      · simp at hfield
  · have hread : path ∈ Encoding.reads ((plainEncoding l.plan).override
        (optionalMember "size" (l.plan.lifted.encoding.value "size"))) :=
      List.mem_flatMap.2 ⟨d, hd, hpath⟩
    obtain hread | hread := Encoding.mem_reads_of_override hread
    · exact Encoding.reads_mono (fun m ↦ mem_of_mem_plainEncoding) hread
    · exact Encoding.reads_mono (fun m ↦ mem_of_mem_optionalMember) hread

theorem resolves_whiskerColumns (hl : l.Made) (ho : l.plan.Orderly columns)
    (h : path ∈ l.plan.lifted.encoding.reads) : Resolves (l.whiskerColumns columns) path := by
  rw [whiskerColumns]
  split
  · exact (Plan.resolves_groups hl.plan ho h Set.subset_union_left).mono Set.subset_union_left
  · exact (Plan.resolves_groups hl.plan ho h subset_rfl).mono
      (Set.subset_union_left.trans Set.subset_union_left)

theorem resolves_summaryColumns (hl : l.Made) (ho : l.plan.Orderly columns)
    (h : path ∈ l.plan.lifted.encoding.reads) :
    Resolves (l.plan.summaryColumns columns) path :=
  (Plan.resolves_groups hl.plan ho h subset_rfl).mono
    (Set.subset_union_left.trans Set.subset_union_left)

theorem readable_tooltip (ho : l.plan.Orderly columns) {rows : List Tooltip.Row}
    {tooltip : Encoding} {found : Set String}
    (h : Tooltip.channel rows l.plan.axis.definition l.plan.lifted.encoding = .ok tooltip)
    (hrows : ∀ row ∈ rows, row.column ∈ Plan.statisticNames ∧ row.column ++ l.plan.column ∈ found)
    (hfound : ∀ path ∈ l.plan.lifted.encoding.reads, Resolves found path) :
    tooltip.Readable found := by
  intro path hpath
  obtain hread | ⟨row, hrow, rfl⟩ | ⟨fds, hfds, fd, hfd, href⟩ := Tooltip.mem_reads_channel h hpath
  · exact hfound path hread
  · exact Plan.resolves_statistic ho (hrows row hrow).1 (hrows row hrow).2
  · obtain ⟨read, hread, hflatten⟩ := ho.references fds hfds fd hfd path href
    obtain ⟨name, hname, hresolves⟩ := hfound read hread
    exact ⟨name, hname, hflatten.trans hresolves⟩

theorem readable_summary (hl : l.Made) (ho : l.plan.Orderly columns) :
    l.summary.Readable (l.plan.summaryColumns columns) := by
  refine readable_tooltip ho hl.summary (fun row hrow ↦ ?_)
    fun path ↦ resolves_summaryColumns hl ho
  have hname : row.column ∈ Plan.summaryNames l.plan.whiskers := by
    simp only [summaryRows, List.mem_cons, List.not_mem_nil, or_false] at hrow
    obtain rfl | rfl | rfl | rfl | rfl := hrow <;> simp [Plan.summaryNames]
  exact ⟨Plan.mem_statisticNames_of_mem_summaryNames hname, Plan.mem_summaryColumns hname⟩

theorem readable_whiskerTooltip (hl : l.Made) (ho : l.plan.Orderly columns) :
    l.whiskerTooltip.Readable (l.whiskerColumns columns) := by
  have htooltip := hl.whiskerTooltip
  split at htooltip
  · rename_i hminMax
    rw [← Except.ok.inj htooltip, whiskerColumns, hminMax, if_neg (by decide)]
    exact readable_summary hl ho
  · refine readable_tooltip ho htooltip (fun row hrow ↦ ?_)
      fun path ↦ resolves_whiskerColumns hl ho
    simp only [whiskerRows, List.mem_cons, List.not_mem_nil, or_false] at hrow
    obtain rfl | rfl := hrow
    · exact ⟨by decide, mem_whiskerColumns (by decide)⟩
    · exact ⟨by decide, mem_whiskerColumns (by decide)⟩

/-- If names line up, whiskers read nothing that their rows lack. -/
theorem readable_whiskers (hl : l.Made) (ho : l.plan.Orderly columns) {layer : UnitLayer}
    (hlayer : layer ∈ l.whiskers) : layer.encoding.Readable (l.whiskerColumns columns) := by
  intro path hpath
  obtain ⟨-, start, stop, hnames, hencoding⟩ := exists_of_mem_whiskers hlayer
  rw [hencoding] at hpath
  obtain ⟨statistic, hstatistic, rfl⟩ | hpath | hpath := Part.Context.mem_reads_encodingOf hpath
  · have hname := hnames statistic hstatistic
    have hlimit : ∀ name ∈ Plan.limitNames, name ∈ Plan.statisticNames := by decide
    exact Plan.resolves_statistic ho (hlimit _ hname) (mem_whiskerColumns hname)
  · have hread := Encoding.reads_mono (fun m ↦ mem_of_mem_plainEncoding) hpath
    exact resolves_whiskerColumns hl ho hread
  · exact readable_whiskerTooltip hl ho path hpath

/-- If names line up, the box and the median read nothing that their rows lack. -/
theorem readable_body (hl : l.Made) (ho : l.plan.Orderly columns) {layer : UnitLayer}
    (hlayer : layer ∈ l.box ++ l.median) :
    layer.encoding.Readable (l.plan.summaryColumns columns) := by
  intro path hpath
  obtain ⟨-, encoding, start, stop, hencodings, hnames, hencoding⟩ := exists_of_mem_body hlayer
  rw [hencoding] at hpath
  obtain ⟨statistic, hstatistic, rfl⟩ | hpath | hpath := Part.Context.mem_reads_encodingOf hpath
  · have hname := hnames statistic hstatistic
    exact Plan.resolves_statistic ho (Plan.mem_statisticNames_of_mem_summaryNames hname)
      (Plan.mem_summaryColumns hname)
  · obtain rfl | rfl := hencodings
    · exact resolves_summaryColumns hl ho hpath
    · exact resolves_summaryColumns hl ho (mem_reads_medianEncoding hl ho hpath)
  · exact readable_summary hl ho path hpath

theorem eq_of_mem_reads_valuePosition {definition position : Record Value}
    (h : valuePosition definition = .ok position)
    (hpath : path ∈ ChannelDef.reads (.object position)) :
    path = (definition.value "field").shown := by
  obtain ⟨guide, -, h⟩ := bind_eq_ok_iff.1 h
  have hcondition : position.value "condition" = .null := by
    rw [← Except.ok.inj h, optionalMember, Record.value]
    split <;> split <;> split <;> rfl
  have hfield : position.value "field" = definition.value "field" := by
    rw [← Except.ok.inj h]
    rfl
  rw [ChannelDef.reads, ChannelDef.conditions, hcondition, ChannelDef.fieldName?, hfield] at hpath
  obtain hpath | hpath := List.mem_append.1 hpath
  · cases hv : definition.value "field" <;> simp_all [Value.text?, Value.shown]
  · cases hpath

theorem reads_eq_nil_of_not_truthy {v w : Value} (h : v.truthy = false)
    (hw : w ∈ v.itemsOrSelf) : ChannelDef.reads w = [] := by
  cases v with
  | list items =>
      obtain rfl : items = [] := by simpa [Value.truthy] using h
      cases hw
  | object members =>
      obtain rfl : members = [] := by simpa [Value.truthy] using h
      rw [List.mem_singleton.1 hw]
      rfl
  | fieldDef members => cases h
  | null | bool | int | float | text | set =>
      rw [List.mem_singleton.1 hw]
      rfl

theorem mem_keptMembers_iff (hl : l.Made) {m : String × Value} :
    m ∈ l.keptMembers ↔ m ∈ l.plan.lifted.encoding ∧ m.1 ∉ ["size", "tooltip"] ∧
      (m.1 = "color" → m.2.truthy = true) := by
  obtain ⟨encoding, countTitle, hlifted⟩ := hl.plan.lifted
  have hnodup := Extraction.nodup_keys_of_ofEncoding hlifted
  rw [keptMembers, List.mem_append, mem_optionalMember_iff]
  constructor
  · rintro (h | ⟨htruthy, rfl⟩)
    · obtain ⟨hplain, htooltip⟩ := List.mem_filter.1 h
      obtain ⟨hm, hothers⟩ := List.mem_filter.1 hplain
      simp only [List.contains_cons, List.contains_nil, Bool.or_false, Bool.not_or,
        Bool.and_eq_true, Bool.not_eq_true', beq_eq_false_iff_ne] at hothers
      refine ⟨hm, by simp_all, fun hcolor ↦ absurd hcolor hothers.1⟩
    · exact ⟨Record.mem_of_value_truthy htruthy, by simp, fun _ ↦ htruthy⟩
  · rintro ⟨hm, hother, htruthy⟩
    by_cases hcolor : m.1 = "color"
    · obtain ⟨key, v⟩ := m
      obtain rfl : key = "color" := hcolor
      have hv : l.plan.lifted.encoding.value "color" = v := by
        rw [Record.value, Record.get?_of_mem hnodup hm]
        rfl
      exact .inr ⟨hv ▸ htruthy rfl, by rw [hv]⟩
    · refine .inl (List.mem_filter.2 ⟨List.mem_filter.2 ⟨hm, ?_⟩, ?_⟩) <;> simp_all

theorem keys_optionalMember_sublist (key : String) (v : Value) :
    List.Sublist (Record.keys (optionalMember key v)) [key] := by
  rw [optionalMember]
  split
  · exact List.Sublist.refl _
  · exact List.nil_sublist _

theorem nodup_keys_pointMembers (hl : l.Made) :
    (Record.keys (l.keptMembers ++ optionalMember "tooltip" l.plan.tooltip)).Nodup := by
  obtain ⟨encoding, countTitle, hlifted⟩ := hl.plan.lifted
  have hnodup := Extraction.nodup_keys_of_ofEncoding hlifted
  set others := (plainEncoding l.plan).erase "tooltip" with hothers
  have hsub : List.Sublist (Record.keys others) (Record.keys l.plan.lifted.encoding) :=
    (List.filter_sublist.trans List.filter_sublist).map Prod.fst
  have hnot : ∀ key ∈ ["color", "tooltip"], key ∉ Record.keys others := by
    intro key hkey hmem
    obtain ⟨m, hm, rfl⟩ := List.mem_map.1 hmem
    obtain ⟨hplain, htooltip⟩ := List.mem_filter.1 hm
    have hcolor := (List.mem_filter.1 hplain).2
    simp_all
  have hall : (Record.keys others ++ ["color", "tooltip"]).Nodup :=
    List.nodup_append.2 ⟨hnodup.sublist hsub, by decide,
      fun key hkey other hother heq ↦ hnot other hother (heq ▸ hkey)⟩
  refine hall.sublist ?_
  rw [keptMembers, Record.keys, List.map_append, List.map_append, List.append_assoc]
  exact (List.Sublist.refl _).append
    ((keys_optionalMember_sublist "color" _).append (keys_optionalMember_sublist "tooltip" _))

theorem mem_pointEncoding (hl : l.Made) {position : Record Value} {m : String × Value}
    (h : m ∈ l.keptMembers) : m ∈ l.pointEncoding position :=
  Record.mem_override (nodup_keys_pointMembers hl) (List.mem_append_left _ h)

/-- If names line up, points read all that they need exactly if single rows have what they read of
their groups. -/
theorem readable_points_iff (hl : l.Made) (ho : l.plan.Orderly columns) :
    (∀ layer ∈ l.points, layer.encoding.Readable (l.plan.rowColumns columns)) ↔
      l.points = [] ∨ l.plan.RowsSuffice columns := by
  constructor
  · intro h
    -- One point is enough: all points have the same encoding.
    refine or_iff_not_imp_left.2 fun hne m hm hother v hv path hpath _ ↦ ?_
    obtain ⟨layer, hlayer⟩ := List.exists_mem_of_ne_nil _ hne
    obtain ⟨-, test, position, -, -, hencoding⟩ := exists_of_mem_points hlayer
    refine h layer hlayer path (hencoding ▸ Encoding.mem_reads_iff.2 ⟨m, ?_, v, hv, hpath⟩)
    refine mem_pointEncoding hl ((mem_keptMembers_iff hl).2 ⟨hm, hother, fun _ ↦ ?_⟩)
    cases htruthy : m.2.truthy with
    | true => rfl
    | false =>
        rw [reads_eq_nil_of_not_truthy htruthy hv] at hpath
        cases hpath
  · rintro (hnil | hsuffice) layer hlayer path hpath
    · rw [hnil] at hlayer
      cases hlayer
    · obtain ⟨-, test, position, -, hposition, hencoding⟩ := exists_of_mem_points hlayer
      rw [hencoding] at hpath
      obtain hpath | hpath := Encoding.mem_reads_of_override hpath
      · obtain ⟨v, hv, hpath⟩ := Encoding.mem_reads_single.1 hpath
        rw [List.mem_singleton.1 hv] at hpath
        rw [eq_of_mem_reads_valuePosition hposition hpath]
        exact ho.field.mono (Set.subset_union_left.trans Set.subset_union_left)
      obtain hpath | hpath := Encoding.mem_reads_append.1 hpath
      · obtain ⟨m, hm, v, hv, hread⟩ := Encoding.mem_reads_iff.1 hpath
        obtain ⟨hm, hother, -⟩ := (mem_keptMembers_iff hl).1 hm
        obtain hrow | hmeasure := Plan.resolves_or_provided hl.plan ho
          (Encoding.mem_reads_iff.2 ⟨m, hm, v, hv, hread⟩)
        · exact hrow.mono Set.subset_union_left
        · exact hsuffice m hm hother v hv path hread hmeasure
      · obtain ⟨m, hm, v, hv, hread⟩ := Encoding.mem_reads_iff.1 hpath
        obtain ⟨-, rfl⟩ := mem_optionalMember_iff.1 hm
        exact (ho.tooltip v hv path hread).mono Set.subset_union_left

end Look

/-- A boxplot is in scope exactly if each of its parts reads only columns of the rows that it is
drawn from. If names line up, whiskers and boxes do, and so do points unless there are some that
show an aggregate of their group. -/
theorem inScope_iff_of_expand {spec : Record Value} {settings : Settings}
    {whiskers : Option Whiskers} {parse : Shorthand.Reader} {e : Expansion}
    (h : (expand spec settings whiskers parse).outcome = .ok e) :
    ∃ look, (lookOf spec settings whiskers parse).outcome = .ok look ∧
      ∀ author columns,
        (e.InScope author columns ↔ look.Readable (columnsAfter author e.authored columns)) ∧
        (look.plan.Orderly (columnsAfter author e.authored columns) →
          (e.InScope author columns ↔ look.points = [] ∨
            look.plan.RowsSuffice (columnsAfter author e.authored columns))) := by
  obtain ⟨look, hlook, hdraw⟩ := exists_look_of_expand h
  have hmade := made_of_lookOf hlook
  refine ⟨look, hlook, fun author columns ↦ ⟨inScope_iff_readable hmade hdraw, fun ho ↦ ?_⟩⟩
  rw [inScope_iff_readable hmade hdraw, ← Look.readable_points_iff hmade ho]
  exact ⟨fun hr ↦ hr.points, fun hp ↦
    ⟨hp, fun _ ↦ Look.readable_whiskers hmade ho, fun _ ↦ Look.readable_body hmade ho⟩⟩

/-- A boxplot of one field with a color. -/
def coloredBy (color : String) : Record Value :=
  [("mark", .text "boxplot"), ("encoding", .object [("y", .text "v:Q"), ("color", .text color)])]

theorem exists_of_run {spec : Record Value} {holds : Expansion → Look → Bool}
    (h : (do
      let e ← (expand spec).outcome
      let look ← (lookOf spec).outcome
      pure (holds e look)) = .ok true) :
    ∃ e look, (expand spec).outcome = .ok e ∧ (lookOf spec).outcome = .ok look ∧
      holds e look = true := by
  obtain ⟨e, he, h⟩ := bind_eq_ok_iff.1 h
  obtain ⟨look, hlook, h⟩ := bind_eq_ok_iff.1 h
  exact ⟨e, look, he, hlook, Except.ok.inj h⟩

theorem flatten_plain : ∀ name ∈ ["v", "g", "mean_b"], FieldPath.flatten name = .ok name := by
  decide +kernel

theorem orderly_groupColor {p : Plan} (hfield : p.axis.field = .text "v") (hcolumn : p.column = "v")
    (htooltip : p.tooltip = .null) (hbins : p.lifted.bins = []) (hmeasures : p.lifted.measures = [])
    (hgroupby : p.lifted.groupby = ["g"]) (hencoding : p.lifted.encoding =
      [("color", .object [("field", .text "g"), ("type", .text "nominal")])]) :
    p.Orderly {"v", "g"} := by
  have hreads : p.lifted.encoding.reads = ["g"] := by
    rw [hencoding]
    decide +kernel
  constructor
  · rw [hfield]
    exact ⟨"v", .inl rfl, flatten_plain "v" (by decide)⟩
  · rw [hfield, hcolumn]
    decide +kernel
  · rw [hgroupby]
    rintro path hpath
    obtain rfl := List.mem_singleton.1 hpath
    exact ⟨"g", .inl (.inr rfl), flatten_plain "g" (by decide)⟩
  · simp [hbins]
  · simp [hmeasures]
  · simp [hreads]
  · rw [hencoding]
    intro d hd condition hcondition path hpath
    obtain rfl := List.mem_singleton.1 hd
    obtain rfl := List.mem_singleton.1 hcondition
    cases hpath
  · rw [hencoding]
    intro members hmembers
    rw [← Value.object.inj hmembers]
    decide
  · rw [hencoding]
    intro fds hfds fd hfd path hpath
    have hg : ChannelDef.fieldDefs
        [("color", .object [("field", .text "g"), ("type", .text "nominal")])] =
          .ok [⟨some "g", some .nominal, none, none, none, .null, []⟩] := by decide +kernel
    obtain rfl := Except.ok.inj (hg.symm.trans hfds)
    obtain rfl := List.mem_singleton.1 hfd
    have href : FieldDef.reference ⟨some "g", some .nominal, none, none, none, .null, []⟩ =
        .ok "g" := by decide +kernel
    obtain rfl := Except.ok.inj (href.symm.trans hpath)
    exact ⟨"g", hencoding ▸ hreads ▸ List.mem_singleton_self _, rfl⟩
  · rw [htooltip]
    intro v hv path hpath
    obtain rfl := List.mem_singleton.1 hv
    cases hpath

/-- A boxplot colored by its groups is in scope, outliers and all. -/
theorem inScope_groupColor : ∃ e, (expand (coloredBy "g:N")).outcome = .ok e ∧
    e.InScope (fun _ columns ↦ columns) {"v", "g"} := by
  obtain ⟨e, look, he, hlook, hholds⟩ := @exists_of_run (coloredBy "g:N")
    (fun e look ↦ e.authored = [] ∧ look.plan.axis.field = .text "v" ∧ look.plan.column = "v" ∧
      look.plan.tooltip = .null ∧ look.plan.lifted.bins = [] ∧ look.plan.lifted.measures = [] ∧
      look.plan.lifted.groupby = ["g"] ∧ look.plan.lifted.encoding =
        [("color", .object [("field", .text "g"), ("type", .text "nominal")])])
    (by decide +kernel)
  obtain ⟨hauthored, hfield, hcolumn, htooltip, hbins, hmeasures, hgroupby, hencoding⟩ :=
    of_decide_eq_true hholds
  obtain ⟨other, hother, hscope⟩ := inScope_iff_of_expand he
  obtain rfl := Except.ok.inj (hlook.symm.trans hother)
  obtain ⟨-, horderly⟩ := hscope (fun _ columns ↦ columns) {"v", "g"}
  rw [hauthored] at horderly
  refine ⟨e, he, (horderly ?_).2 (.inr fun m _ _ v _ path _ ⟨measure, hmeasure, _⟩ ↦ ?_)⟩
  · exact orderly_groupColor hfield hcolumn htooltip hbins hmeasures hgroupby hencoding
  · rw [hmeasures] at hmeasure
    cases hmeasure

/-- Outliers colored by an aggregate of their group read a column that no row has. -/
theorem not_inScope_meanColor : ∃ e, (expand (coloredBy "mean(b):Q")).outcome = .ok e ∧
    ∀ columns, "mean_b" ∉ columns → ¬e.InScope (fun _ columns ↦ columns) columns := by
  obtain ⟨e, look, he, hlook, hholds⟩ := @exists_of_run (coloredBy "mean(b):Q")
    (fun e look ↦ e.authored = [] ∧ look.plan.column = "v" ∧ look.plan.lifted.bins = [] ∧
      look.plan.lifted.timeUnits = [] ∧ ∃ layer ∈ look.points, "mean_b" ∈ layer.encoding.reads)
    (by decide +kernel)
  obtain ⟨hauthored, hcolumn, hbins, hunits, layer, hlayer, hread⟩ := of_decide_eq_true hholds
  obtain ⟨other, hother, hdraw⟩ := exists_look_of_expand he
  obtain rfl := Except.ok.inj (hlook.symm.trans hother)
  refine ⟨e, he, fun columns hnot hscope ↦ ?_⟩
  rw [inScope_iff_readable (made_of_lookOf hlook) hdraw, hauthored] at hscope
  obtain ⟨name, hname, hflatten⟩ := hscope.points layer hlayer "mean_b" hread
  obtain rfl : "mean_b" = name :=
    Except.ok.inj ((flatten_plain "mean_b" (by decide)).symm.trans hflatten)
  simp [Plan.rowColumns, Plan.columnsOf, Extraction.derived, hcolumn, hbins, hunits,
    columnsAfter, hnot] at hname

end ChartLowering.Boxplot
