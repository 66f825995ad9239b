import ChartLowering.Proofs.Composite.Reads
import ChartLowering.Proofs.Errorbar.Drawing
import ChartLowering.Proofs.Expression.Tokens
import ChartLowering.Proofs.FieldPath.Verbatim

/-!
# The columns of an error bar

Statistics are written to columns that are named after the text of the field, and layers read the
same names as paths. So a layer reads what has been computed for it exactly if the text of the field
can stand in a path as it is.
-/

namespace ChartLowering

/-- The columns that an expression reads. -/
def Expression.Tree.columns : Tree → List String
  | number _ => []
  | column name => [name]
  | negate t => t.columns
  | binary _ left right => left.columns ++ right.columns

/-- The columns that an aggregate or a calculation writes. -/
def Transform.outputs : Transform → List String
  | aggregate measures _ | joinAggregate measures _ => measures.map Measure.output
  | calculate _ output => [output]
  | given _ | bin _ | timeUnit _ | filter _ => []

/-- What a layer reads where its part begins and where it ends. -/
def Leaf.readsAlong (leaf : Leaf) (channel : String) : List String :=
  [channel, channel ++ "2"].flatMap fun c ↦ ChannelDef.reads (leaf.layer.encoding.value c)

namespace Part.Context

variable {c : Context} {start : String} {stop : Option String} {tooltip : Value}

theorem get?_encodingOf (hc : c.encoding.keys.Nodup) {key : String} (hkey : key ≠ "tooltip") :
    (c.encodingOf start stop [("tooltip", tooltip)]).get? key =
      (c.encoding.get? key).or
        (Record.get? ((c.axis.channel, .object (c.position start)) ::
          stop.toList.map fun stop ↦
            (c.axis.channel ++ "2", Value.object [("field", c.column stop)])) key) := by
  have htooltip : Record.get? [("tooltip", tooltip)] key = none := by
    rw [Record.get?_cons, if_neg hkey]
    rfl
  rw [encodingOf.eq_def, Record.get?_override (by simp [Record.keys]), htooltip, Option.none_or,
    Record.get?_override hc]
  cases stop <;> rfl

theorem reads_start (hc : c.encoding.keys.Nodup) (hchannel : c.axis.channel ≠ "tooltip")
    (habsent : c.encoding.get? c.axis.channel = none) :
    ChannelDef.reads ((c.encodingOf start stop [("tooltip", tooltip)]).value c.axis.channel) =
      [start ++ "_" ++ c.axis.field.shown] := by
  rw [Record.value, get?_encodingOf hc hchannel, habsent, Option.none_or, Record.get?_cons,
    if_pos rfl]
  exact reads_position start

theorem reads_stop (hc : c.encoding.keys.Nodup)
    (habsent : c.encoding.get? (c.axis.channel ++ "2") = none) :
    ChannelDef.reads
        ((c.encodingOf start stop [("tooltip", tooltip)]).value (c.axis.channel ++ "2")) =
      stop.toList.map fun stop ↦ stop ++ "_" ++ c.axis.field.shown := by
  have hchannel : c.axis.channel ++ "2" ≠ "tooltip" := append_two_ne (by decide)
  have hne : c.axis.channel ++ "2" ≠ c.axis.channel := by
    intro h
    simpa using congrArg String.length h
  rw [Record.value, get?_encodingOf hc hchannel, habsent, Option.none_or, Record.get?_cons,
    if_neg hne]
  cases stop with
  | none => rfl
  | some stop =>
      rw [Option.toList_some, List.map_cons, List.map_nil, Record.get?_cons, if_pos rfl]
      rfl

theorem value_tooltip_encodingOf :
    (c.encodingOf start stop [("tooltip", tooltip)]).value "tooltip" = tooltip := by
  rw [encodingOf.eq_def, Record.override]
  exact Record.value_put_self

end Part.Context

namespace Tooltip

variable {rows : List Row} {definition : Record Value} {ending : String}

theorem reads_of_mapM_ofRow {summary : List Value} (h : rows.mapM (ofRow definition ending) =
    .ok summary) : summary.flatMap ChannelDef.reads =
      rows.map fun row ↦ row.column ++ (definition.value "field").shown := by
  rw [mapM_eq_ok_iff] at h
  induction h with
  | nil => rfl
  | cons hrow _ ih =>
      rw [List.flatMap_cons, reads_of_ofRow hrow, ih]
      rfl

end Tooltip

namespace Errorbar

/-- How the columns that layers read are named after a field. -/
def statisticNames : List String := ["lower_", "upper_", "center_"]

/-- The columns that statistics are written to. -/
def Statistics.columns (s : Statistics) : List String :=
  s.measures.map Measure.output ++ s.steps.flatMap Transform.outputs

/-- What is computed for a field of this name. -/
structure Statistics.For (s : Statistics) (name : String) : Prop where
  written : ∀ statistic ∈ statisticNames, statistic ++ name ∈ s.columns
  named : ∀ column ∈ s.columns, ∃ statistic ∈ "extent_" :: statisticNames,
    column = statistic ++ name
  rows : (s.rows.map Tooltip.Row.column).Perm statisticNames
  calculated : ∀ step ∈ s.steps, ∃ expr output tree, step = .calculate expr output ∧
    Expression.read? expr = some tree ∧
      ∀ column ∈ tree.columns, column ∈ s.measures.map Measure.output

section Statistics

variable {field center : Value} {extent : ErrorbarExtent} {countTitle : String} {s : Statistics}

theorem read?_binary (o : Expression.Operator) (left right : String) (ho : 1 ≤ o.precedence) :
    Expression.read? (Expression.datum left ++ o.text ++ Expression.datum right) =
      some (.binary o (.column left) (.column right)) :=
  (Expression.Spells.binary o ho (Expression.spells_column left)
    (Expression.spells_column right)).read?_eq

theorem for_of_deviation (h : deviation field center extent = .ok s) : s.For field.shown := by
  obtain ⟨op, -, h⟩ := bind_eq_ok_iff.1 h
  obtain rfl := Except.ok.inj h
  have hrows : ["center_", "upper_", "lower_"].Perm statisticNames := by decide
  refine ⟨?_, ?_, hrows, ?_⟩
  · simp [statisticNames, Statistics.columns, Transform.outputs]
  · simp [statisticNames, Statistics.columns, Transform.outputs]
  · intro step hstep
    simp only [List.mem_cons, List.not_mem_nil, or_false] at hstep
    rcases hstep with rfl | rfl
    · refine ⟨_, _, _, rfl, read?_binary .plus _ _ (by decide), ?_⟩
      simp [Expression.Tree.columns]
    · refine ⟨_, _, _, rfl, read?_binary .minus _ _ (by decide), ?_⟩
      simp [Expression.Tree.columns]

theorem for_of_interval {lower upper middle : String}
    (h : interval field countTitle lower upper middle = .ok s) : s.For field.shown := by
  obtain ⟨upperTitle, -, h⟩ := bind_eq_ok_iff.1 h
  obtain ⟨lowerTitle, -, h⟩ := bind_eq_ok_iff.1 h
  obtain ⟨centerTitle, -, h⟩ := bind_eq_ok_iff.1 h
  obtain rfl := Except.ok.inj h
  have hrows : ["upper_", "lower_", "center_"].Perm statisticNames := by decide
  refine ⟨?_, ?_, hrows, fun step hstep ↦ nomatch hstep⟩
  · simp [statisticNames, Statistics.columns]
  · simp [statisticNames, Statistics.columns]

theorem for_of_statistics (h : statistics field center extent countTitle = .ok s) :
    s.For field.shown := by
  cases extent with
  | stderr | stdev => exact for_of_deviation h
  | ci | iqr => exact for_of_interval h

/-- A column is read back from its path just if the name of the field is verbatim. -/
theorem Statistics.For.reads_back_iff {name : String} (hs : s.For name) {statistic : String}
    (h : statistic ∈ statisticNames) :
    (∃ column ∈ s.columns, FieldPath.flatten (statistic ++ name) = .ok column) ↔
      FieldPath.IsVerbatim name := by
  have hplain : FieldPath.Unmarked statistic ∧ statistic ≠ "" := by
    revert statistic
    decide
  rw [← FieldPath.flatten_append_iff hplain.1 hplain.2]
  constructor
  · rintro ⟨column, hcolumn, hflatten⟩
    obtain ⟨other, hother, rfl⟩ := hs.named column hcolumn
    obtain ⟨rest, hrest⟩ := FieldPath.isPrefix_of_flatten_append hplain.1 hplain.2 hflatten
    -- All beginnings differ in their first letter, and reading a path keeps the first letter.
    have hempty : ∀ t ∈ "extent_" :: statisticNames, t.toList ≠ [] := by decide
    have hheads : ∀ t ∈ "extent_" :: statisticNames, ∀ u ∈ statisticNames,
        u.toList.head? = t.toList.head? → t = u := by decide
    have hsame : other = statistic := by
      refine hheads other hother statistic h ?_
      have hfirst := congrArg List.head? hrest
      rwa [List.head?_append_of_ne_nil _ (hempty statistic (List.mem_cons_of_mem _ h)),
        List.head?_append_of_ne_nil _ (hempty other hother)] at hfirst
    rw [hsame] at hflatten
    exact hflatten
  · intro hflatten
    exact ⟨_, hs.written statistic h, hflatten⟩

end Statistics

theorem exists_ends_of_mem_layers {c : Part.Context} {orient : Orientation} {tooltip : Encoding}
    {layer : UnitLayer} (h : layer ∈ layers c orient tooltip) :
    layer.transforms = [] ∧ ∃ start ∈ ["lower", "upper"], ∃ stop ∈ [none, some "upper"],
      layer.encoding = c.encodingOf start stop tooltip := by
  rw [layers, List.mem_append, List.mem_append] at h
  obtain (h | h) | h := h
  all_goals obtain ⟨htransforms, hencoding⟩ := Part.Context.mem_make h
  · exact ⟨htransforms, "lower", by simp, none, by simp, hencoding⟩
  · exact ⟨htransforms, "upper", by simp, none, by simp, hencoding⟩
  · exact ⟨htransforms, "lower", by simp, some "upper", by simp, hencoding⟩

namespace Look.Computed

variable {l : Look} {encoding : Encoding} {countTitle : String} {s : Statistics}

theorem named (hl : l.Computed encoding countTitle s) : s.For l.context.axis.field.shown := by
  obtain ⟨center, extent, hs⟩ := hl.statistics
  exact for_of_statistics hs

theorem nodup_keys (hl : l.Computed encoding countTitle s) : l.context.encoding.keys.Nodup := by
  obtain ⟨lifted, hlifted, hencoding, -⟩ := hl.others
  rw [hencoding]
  exact (List.filter_sublist.map _).nodup (Extraction.nodup_keys_of_ofEncoding hlifted)

theorem channels {P : String → Prop} (hl : l.Computed encoding countTitle s)
    (hP : ∀ m ∈ encoding.erase l.context.axis.channel, P m.1 ∧ P (m.1 ++ "2")) :
    ∀ m ∈ l.context.encoding, P m.1 := by
  obtain ⟨lifted, hlifted, hencoding, -⟩ := hl.others
  rw [hencoding]
  intro m hm
  exact Extraction.channels_of_ofEncoding hP hlifted m (List.mem_filter.1 hm).1

theorem no_tooltip (hl : l.Computed encoding countTitle s) (h : encoding.has "tooltip" = false) :
    ∀ m ∈ l.context.encoding, m.1 ≠ "tooltip" := by
  refine hl.channels (P := fun key ↦ key ≠ "tooltip") fun m hm ↦ ?_
  rw [Record.has, List.any_eq_false] at h
  exact ⟨by simpa using h m (List.mem_filter.1 hm).1, append_two_ne (by decide)⟩

section Along

variable (hl : l.Computed encoding countTitle s) (haxis : l.context.axis.channel ∈ ["x", "y"])
  (hrefused : ∀ channel ∈ preaggregated, encoding.has channel = false)

include hl haxis hrefused

/-- Nothing but the part itself is drawn along the axis. -/
theorem notMem_along : ∀ m ∈ l.context.encoding,
    m.1 ∉ [l.context.axis.channel, l.context.axis.channel ++ "2"] := by
  -- The channel itself is taken out before the others are lifted, and a second one is refused.
  refine hl.channels (P := fun key ↦ key ∉ _) fun m hm ↦ ?_
  have hending : l.context.axis.channel ++ "2" ∈ preaggregated ∧
      l.context.axis.channel.toList.getLast? ≠ some '2' := by
    revert haxis
    generalize l.context.axis.channel = channel
    revert channel
    decide
  obtain ⟨hmem, hne⟩ := List.mem_filter.1 hm
  have hne : m.1 ≠ l.context.axis.channel := by simpa using hne
  have habsent := hrefused _ hending.1
  rw [Record.has, List.any_eq_false] at habsent
  have hother : m.1 ≠ l.context.axis.channel ++ "2" := by simpa using habsent m hmem
  simp [hne, hother, append_two_ne hending.2]

theorem get?_along {key : String}
    (hkey : key ∈ [l.context.axis.channel, l.context.axis.channel ++ "2"]) :
    l.context.encoding.get? key = none := by
  refine Record.get?_of_notMem fun hmem ↦ ?_
  obtain ⟨m, hm, rfl⟩ := List.mem_map.1 hmem
  exact hl.notMem_along haxis hrefused m hm hkey

theorem reads_along (start : String) (stop : Option String) (v : Value) :
    ([l.context.axis.channel, l.context.axis.channel ++ "2"].flatMap fun c ↦
      ChannelDef.reads ((l.context.encodingOf start stop [("tooltip", v)]).value c)) =
        (start :: stop.toList).map fun name ↦ name ++ "_" ++ l.context.axis.field.shown := by
  have hchannel : l.context.axis.channel ≠ "tooltip" := by
    intro heq
    rw [heq] at haxis
    exact absurd haxis (by decide)
  have hget : ∀ key ∈ [l.context.axis.channel, l.context.axis.channel ++ "2"],
      l.context.encoding.get? key = none := fun _ ↦ hl.get?_along haxis hrefused
  rw [List.flatMap_cons, List.flatMap_cons, List.flatMap_nil, List.append_nil,
    Part.Context.reads_start hl.nodup_keys hchannel (hget _ (by simp)),
    Part.Context.reads_stop hl.nodup_keys (hget _ (by simp))]
  rfl

/-- Between its two ends and its tooltip, a layer draws what is left of the encoding. -/
theorem without_encodingOf (hnone : encoding.has "tooltip" = false) (start : String)
    (stop : Option String) (v : Value) :
    (l.context.encodingOf start stop [("tooltip", v)]).without
      [l.context.axis.channel, l.context.axis.channel ++ "2", "tooltip"] = l.context.encoding := by
  have hothers : ∀ m ∈ l.context.encoding,
      m.1 ∉ [l.context.axis.channel, l.context.axis.channel ++ "2", "tooltip"] := by
    intro m hm
    have halong := hl.notMem_along haxis hrefused m hm
    have htooltip := hl.no_tooltip hnone m hm
    simp_all
  have hnil : Record.override [] l.context.encoding = l.context.encoding :=
    Record.override_eq_append hl.nodup_keys
  rw [Part.Context.encodingOf.eq_def, Record.without_override, Record.without_override,
    Record.without_eq_self hothers]
  refine Eq.trans ?_ hnil
  cases stop <;> simp [Record.without, Record.override]

end Along

end Look.Computed

/-- Statistics as they are computed and drawn along an axis. -/
structure Plotted (e : Expansion) (encoding : Encoding) (axis : ContinuousAxis) (s : Statistics) :
    Prop where
  steps : ∃ before measures groupby,
    e.steps = before ++ .aggregate (measures ++ s.measures) groupby :: s.steps
  after : ∀ leaf ∈ e.leaves, leaf.steps = e.steps
  positions : ∀ leaf ∈ e.leaves, ∀ path ∈ leaf.readsAlong axis.channel,
    ∃ statistic ∈ statisticNames, path = statistic ++ axis.field.shown
  /-- Unless the author has given tooltips, they list the statistics and then all fields. -/
  tooltips : encoding.has "tooltip" = false → ∀ leaf ∈ e.leaves, ∃ summary listed,
    leaf.layer.encoding.value "tooltip" = .list (summary ++ listed) ∧
      (summary.flatMap ChannelDef.reads).Perm
        (statisticNames.map fun statistic ↦ statistic ++ axis.field.shown) ∧
      Tooltip.ofFields
        (leaf.layer.encoding.without [axis.channel, axis.channel ++ "2", "tooltip"]) = .ok listed
  written : ∀ statistic ∈ statisticNames, statistic ++ axis.field.shown ∈ s.columns

theorem steps_of_draw {outer : Record Value} {look : Look} {e : Expansion}
    (h : draw outer look = .ok e) :
    e.steps = e.authored ++ look.steps ∧ ∃ items : List Value, e.authored = items.map .given := by
  obtain ⟨written, hwritten, h⟩ := bind_eq_ok_iff.1 h
  obtain rfl := Except.ok.inj h
  have hauthored : (Expansion.written outer).toOption.getD [] = written := by
    rw [hwritten]
    rfl
  refine ⟨?_, ?_⟩
  · rw [Expansion.authored, hauthored]
    rfl
  · rw [Expansion.authored, hauthored]
    rw [Expansion.written] at hwritten
    split at hwritten
    · obtain ⟨items, -, hwritten⟩ := bind_eq_ok_iff.1 hwritten
      exact ⟨items, (Except.ok.inj hwritten).symm⟩
    · exact ⟨[], (Except.ok.inj hwritten).symm⟩

namespace Look.Computed

variable {l : Look} {encoding : Encoding} {countTitle : String} {s : Statistics}
  {outer : Record Value} {e : Expansion}

theorem exists_ends_of_mem_leaves {v : Value} (hdraw : draw outer l = .ok e)
    (hv : l.tooltip = [("tooltip", v)]) {leaf : Leaf} (hleaf : leaf ∈ e.leaves) :
    leaf.steps = e.steps ∧ ∃ start ∈ ["lower", "upper"], ∃ stop ∈ [none, some "upper"],
      leaf.layer.encoding = l.context.encodingOf start stop [("tooltip", v)] := by
  rw [(leaves_of_draw hdraw).2, hv] at hleaf
  obtain ⟨layer, hlayer, rfl⟩ := List.mem_map.1 hleaf
  obtain ⟨htransforms, hends⟩ := exists_ends_of_mem_layers hlayer
  rw [(steps_of_draw hdraw).1]
  exact ⟨by simp [htransforms], hends⟩

theorem plotted (hl : l.Computed encoding countTitle s)
    (haxis : l.context.axis.channel ∈ ["x", "y"])
    (hrefused : ∀ channel ∈ preaggregated, encoding.has channel = false)
    (hdraw : draw outer l = .ok e) : Plotted e encoding l.context.axis s := by
  obtain ⟨withField, htooltip⟩ := hl.tooltip
  obtain ⟨v, hv, hlists⟩ := Tooltip.exists_of_channel htooltip
  refine ⟨?_, fun leaf hleaf ↦ (exists_ends_of_mem_leaves hdraw hv hleaf).1, ?_, ?_,
    hl.named.written⟩
  · obtain ⟨lifted, -, -, hsteps⟩ := hl.others
    refine ⟨e.authored ++ lifted.prepared, lifted.measures, lifted.groupby, ?_⟩
    rw [(steps_of_draw hdraw).1, hsteps, List.append_assoc]
  · intro leaf hleaf path hpath
    obtain ⟨-, start, hstart, stop, hstop, hencoding⟩ := exists_ends_of_mem_leaves hdraw hv hleaf
    have hends : ∀ start ∈ ["lower", "upper"], ∀ stop ∈ [none, some "upper"],
        ∀ name ∈ start :: stop.toList, name ++ "_" ∈ statisticNames := by decide
    rw [Leaf.readsAlong, hencoding, hl.reads_along haxis hrefused] at hpath
    obtain ⟨name, hname, rfl⟩ := List.mem_map.1 hpath
    exact ⟨_, hends start hstart stop hstop name hname, rfl⟩
  · intro hnone leaf hleaf
    obtain ⟨-, start, -, stop, -, hencoding⟩ := exists_ends_of_mem_leaves hdraw hv hleaf
    obtain hown | ⟨ending, summary, listed, rfl, hsummary, hlisted⟩ := hlists
    · exact absurd rfl (hl.no_tooltip hnone _ (Record.mem_of_get? hown))
    have hrows := hl.named.rows.map (· ++ l.context.axis.field.shown)
    rw [List.map_map] at hrows
    refine ⟨summary, listed, ?_, ?_, ?_⟩
    · rw [hencoding, Part.Context.value_tooltip_encodingOf]
    · rw [Tooltip.reads_of_mapM_ofRow hsummary]
      exact hrows
    · rw [hencoding, hl.without_encodingOf haxis hrefused hnone]
      exact hlisted

/-- What an error bar calculates from is aggregated before. -/
theorem aggregated_before (hl : l.Computed encoding countTitle s) (hdraw : draw outer l = .ok e)
    {before after : List Transform} {expr output : String}
    (h : e.steps = before ++ .calculate expr output :: after) :
    ∃ tree, Expression.read? expr = some tree ∧ ∀ name ∈ tree.columns,
      ∃ measures groupby, .aggregate measures groupby ∈ before ∧
        name ∈ measures.map Measure.output := by
  obtain ⟨lifted, -, -, hsteps⟩ := hl.others
  obtain ⟨hall, items, hitems⟩ := steps_of_draw hdraw
  -- Neither the author's steps nor those that prepare the other channels calculate anything, so
  -- the calculation is one of the statistics, which stand after the aggregate.
  have hprepared : ∀ step ∈ e.authored ++ lifted.prepared, step ≠ .calculate expr output := by
    intro step hstep
    rw [hitems, Extraction.prepared] at hstep
    simp only [List.mem_append, List.mem_map] at hstep
    obtain ⟨v, -, rfl⟩ | ⟨b, -, rfl⟩ | ⟨t, -, rfl⟩ := hstep <;> simp
  rw [hall, hsteps, ← List.append_assoc] at h
  obtain ⟨between, rfl, hafter⟩ | ⟨between, hbefore, hafter⟩ := List.append_eq_append_iff.1 h
  · cases between with
    | nil => cases hafter
    | cons step rest =>
        obtain ⟨rfl, hrest⟩ := List.cons.inj hafter
        have hmem : Transform.calculate expr output ∈ s.steps := by simp [hrest]
        obtain ⟨_, _, tree, heq, htree, hcolumns⟩ := hl.named.calculated _ hmem
        obtain ⟨rfl, rfl⟩ := Transform.calculate.inj heq
        refine ⟨tree, htree, fun name hname ↦
          ⟨_, _, List.mem_append_right _ List.mem_cons_self, ?_⟩⟩
        rw [List.map_append]
        exact List.mem_append_right _ (hcolumns name hname)
  · cases between with
    | nil => cases hafter
    | cons step rest =>
        obtain ⟨rfl, -⟩ := List.cons.inj hafter
        exact absurd rfl (hprepared _ (by simp [hbefore]))

end Look.Computed

/-- An error bar reads the columns that it computes exactly if the name of its field is verbatim,
and what it calculates from is aggregated before. -/
theorem reads_computed_iff_verbatim {spec : Record Value} {settings : Settings}
    {parse : Shorthand.Reader} {e : Expansion} (h : (expand spec settings parse).outcome = .ok e) :
    ∃ encoding orient axis center extent s,
      (Encoding.normalize (spec.value "encoding") parse).outcome = .ok encoding ∧
      ContinuousAxis.orientation (spec.put "encoding" (.object encoding)) markName = .ok orient ∧
      (ContinuousAxis.ofSpec (spec.put "encoding" (.object encoding)) orient markName).outcome =
        .ok axis ∧
      statistics axis.field center extent settings.countTitle = .ok s ∧
      Plotted e encoding axis s ∧
      (∀ statistic ∈ statisticNames,
        (∃ column ∈ s.columns,
          FieldPath.flatten (statistic ++ axis.field.shown) = .ok column) ↔
            FieldPath.IsVerbatim axis.field.shown) ∧
      ∀ before expr output after, e.steps = before ++ .calculate expr output :: after →
        ∃ tree, Expression.read? expr = some tree ∧ ∀ name ∈ tree.columns,
          ∃ measures groupby, .aggregate measures groupby ∈ before ∧
            name ∈ measures.map Measure.output := by
  rw [expand_eq] at h
  obtain ⟨look, hlook, hdraw⟩ := Stages.exists_look_of_expand h
  obtain ⟨encoding, mark, hencoding, hrefuse, -, hat⟩ := Stages.exists_encoding_of_lookOf hlook
  have hmade := made_of_lookAt hat
  obtain ⟨s, hl⟩ := hmade.computed
  obtain ⟨center, extent, hs⟩ := hl.statistics
  have haxis : look.context.axis.channel ∈ ["x", "y"] := by
    rw [(ContinuousAxis.given_of_ofSpec hmade.axis).1]
    cases look.orient <;> simp [Orientation.channel]
  have hrefused : ∀ channel ∈ preaggregated, encoding.has channel = false := by
    cases hfind : preaggregated.find? encoding.has with
    | none =>
        intro channel hchannel
        simpa using List.find?_eq_none.1 hfind channel hchannel
    | some channel =>
        simp only [stages, refusePreaggregated, hfind] at hrefuse
        cases hrefuse
  exact ⟨encoding, look.orient, look.context.axis, center, extent, s, hencoding, hmade.orient,
    hmade.axis, hs, hl.plotted haxis hrefused hdraw,
    fun _ hstatistic ↦ hl.named.reads_back_iff hstatistic,
    fun _ _ _ _ h ↦ hl.aggregated_before hdraw h⟩

/-- An error bar along y of a field of this name. -/
def barOf (name : String) : Record Value :=
  [("mark", .text "errorbar"),
   ("encoding", .object [("y", .object [("field", .text name), ("type", .text "quantitative")])])]

theorem exists_of_expand {spec : Record Value} {holds : Expansion → Bool}
    (h : ((expand spec).outcome >>= fun e ↦ pure (holds e)) = .ok true) :
    ∃ e, (expand spec).outcome = .ok e ∧ holds e = true := by
  obtain ⟨e, he, h⟩ := bind_eq_ok_iff.1 h
  exact ⟨e, he, Except.ok.inj h⟩

theorem reads_computed_nested : ∃ e, (expand (barOf "orders.price")).outcome = .ok e ∧
    ∃ axis s, axis.field.shown = "orders.price" ∧
      Plotted e [("y", .object [("field", .text "orders.price"), ("type", .text "quantitative")])]
        axis s ∧
      ∀ statistic ∈ statisticNames,
        ∃ column ∈ s.columns, FieldPath.flatten (statistic ++ "orders.price") = .ok column := by
  obtain ⟨e, he, -⟩ := @exists_of_expand (barOf "orders.price") (fun _ ↦ true) (by decide +kernel)
  obtain ⟨encoding, orient, axis, center, extent, s, hencoding, horient, haxis, -, hplotted,
    hreads, -⟩ := reads_computed_iff_verbatim he
  have hmembers : (Encoding.normalize ((barOf "orders.price").value "encoding")).outcome =
      .ok [("y", .object [("field", .text "orders.price"), ("type", .text "quantitative")])] := by
    decide +kernel
  obtain rfl := Except.ok.inj (hmembers.symm.trans hencoding)
  have hvertical : ContinuousAxis.orientation (barOf "orders.price") markName = .ok .vertical := by
    decide +kernel
  obtain rfl := Except.ok.inj (hvertical.symm.trans horient)
  have hy : (ContinuousAxis.ofSpec (barOf "orders.price") .vertical markName).outcome =
      .ok ⟨"y", [("field", .text "orders.price"), ("type", .text "quantitative")]⟩ := by
    decide +kernel
  obtain rfl := Except.ok.inj (hy.symm.trans haxis)
  exact ⟨e, he, _, s, rfl, hplotted, fun _ h ↦ (hreads _ h).2 (by decide +kernel)⟩

/-- The end of an error bar of a field with brackets is read as a path that nothing is computed
for. -/
theorem not_computed_bracketed : ∃ e, (expand (barOf "a[0]")).outcome = .ok e ∧
    ∃ leaf ∈ e.leaves, ∃ path ∈ leaf.readsAlong "y", path = "lower_a[0]" ∧
      FieldPath.flatten path = .ok "lower_a.0" ∧
      "lower_a.0" ∉ e.steps.flatMap Transform.outputs := by
  obtain ⟨e, he, hholds⟩ := @exists_of_expand (barOf "a[0]")
    (fun e ↦ ∃ leaf ∈ e.leaves, ∃ path ∈ leaf.readsAlong "y", path = "lower_a[0]" ∧
      FieldPath.flatten path = .ok "lower_a.0" ∧
      "lower_a.0" ∉ e.steps.flatMap Transform.outputs) (by decide +kernel)
  exact ⟨e, he, of_decide_eq_true hholds⟩

end Errorbar

end ChartLowering
