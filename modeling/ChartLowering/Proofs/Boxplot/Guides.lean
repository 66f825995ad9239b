import ChartLowering.Proofs.Boxplot.PlainTooltip
import ChartLowering.Proofs.Boxplot.Scope

/-!
# The axis of a boxplot in its layers

All layers of a boxplot lie along one continuous axis and tell how it is to be drawn. Statistics
take over the scale and the axis of its definition as they are. Outliers leave out the title of the
axis, and with it any axis of which nothing is left then, a hidden one too.
-/

namespace ChartLowering

/-- An axis without its title. -/
def Value.untitled : Value → Value
  | .object guide => .object (Record.erase guide "title")
  | v => v

/-- An axis without its title, if anything is left of it. -/
def Value.untitled? (v : Value) : Option Value :=
  if v.untitled = .object [] then none else some v.untitled

namespace Value

variable {v : Value}

theorem untitled_untitled (v : Value) : v.untitled.untitled = v.untitled := by
  cases v with
  | object guide => exact congrArg Value.object (Record.erase_erase guide "title")
  | null | bool | int | float | text | list | set | fieldDef => rfl

theorem untitled_of_not_object (h : v.isObject = false) : v.untitled = v := by
  cases v with
  | object guide => cases h
  | null | bool | int | float | text | list | set | fieldDef => rfl

theorem untitled?_of_not_object (h : v.isObject = false) : v.untitled? = some v := by
  have hne : v ≠ .object [] := by
    rintro rfl
    cases h
  rw [untitled?, untitled_of_not_object h, if_neg hne]

theorem bind_untitled? (v : Value) : v.untitled?.bind untitled? = v.untitled? := by
  by_cases hempty : v.untitled = .object []
  · rw [untitled?, if_pos hempty, Option.bind_none]
  · rw [untitled?, if_neg hempty, Option.bind_some, untitled?, untitled_untitled, if_neg hempty]

theorem map_untitled_untitled? (v : Value) :
    v.untitled?.map untitled = some v.untitled ↔ v.untitled ≠ .object [] := by
  rw [untitled?]
  split
  · rename_i hempty
    simp [hempty]
  · rename_i hother
    simp [hother, untitled_untitled]

end Value

/-- A member of the definition that a layer has on a channel. -/
def UnitLayer.member? (l : UnitLayer) (channel key : String) : Option Value :=
  (l.encoding.value channel).member? key

theorem UnitLayer.member?_of_get? {l : UnitLayer} {channel : String} {members : Record Value}
    (h : l.encoding.get? channel = some (.object members)) (key : String) :
    l.member? channel key = members.get? key := by
  rw [member?, Record.value_of_get? h]
  rfl

/-- Do all layers of an expansion tell the same? -/
def Expansion.Agree (e : Expansion) (tells : UnitLayer → Option Value) : Prop :=
  ∀ leaf ∈ e.leaves, ∀ other ∈ e.leaves, tells leaf.layer = tells other.layer

namespace Part.Context

variable {c : Context} {start : String} {stop : Option String} {extra : Encoding}

theorem get?_encodingOf_channel (hencoding : ∀ m ∈ c.encoding, m.1 ≠ c.axis.channel)
    (hextra : ∀ m ∈ extra, m.1 ≠ c.axis.channel) :
    (c.encodingOf start stop extra).get? c.axis.channel = some (.object (c.position start)) := by
  rw [encodingOf.eq_def, Record.get?_override_of_ne hextra, Record.get?_override_of_ne hencoding]
  exact (Record.get?_cons _ _ _ _).trans (if_pos rfl)

/-- Statistics take over the scale and the axis. -/
theorem get?_position {key : String} (hkey : key ∈ ["scale", "axis"]) :
    (c.position start).get? key = c.axis.definition.get? key := by
  simp only [List.mem_cons, List.not_mem_nil, or_false] at hkey
  rw [position]
  simp only [List.filterMap_cons, List.filterMap_nil]
  rcases hkey with rfl | rfl <;> cases c.axis.definition.get? "scale" <;>
    cases c.axis.definition.get? "axis" <;> split <;> rfl

end Part.Context

namespace ContinuousAxis

variable {spec : Record Value} {encoding : Encoding} {orient : Orientation} {mark : String}
  {axis : ContinuousAxis}

/-- The definition along an axis is that of the encoding, without its aggregate. -/
theorem exists_of_ofSpec (hencoding : spec.value "encoding" = .object encoding)
    (h : (ofSpec spec orient mark).outcome = .ok axis) :
    ∃ given, (encoding.value orient.channel).asRecord = .ok given ∧
      axis.definition = Record.erase given "aggregate" := by
  rw [ofSpec] at h
  obtain ⟨e, he, h⟩ := Report.outcome_bind_eq_ok_iff.1 h
  rw [Report.outcome_lift, encodingOf_of_value hencoding] at he
  obtain rfl := Except.ok.inj he
  split at h
  · cases h
  · obtain ⟨members, hmembers, h⟩ := Report.outcome_bind_eq_ok_iff.1 h
    split at h
    · obtain rfl := Except.ok.inj h
      rw [withoutAggregate] at hmembers
      obtain ⟨given, hgiven, hmembers⟩ := Report.outcome_bind_eq_ok_iff.1 hmembers
      refine ⟨given, hgiven, ?_⟩
      dsimp only at hmembers
      split at hmembers
      · obtain ⟨-, -, hmembers⟩ := Report.outcome_bind_eq_ok_iff.1 hmembers
        exact (Except.ok.inj hmembers).symm
      · exact (Except.ok.inj hmembers).symm
    · cases h

end ContinuousAxis

theorem Tooltip.mem_split {encoding : Encoding} {m : String × Value}
    (h : m ∈ (split encoding).encoding) : m.1 = "tooltip" ∨ m ∈ encoding := by
  have hothers : m ∈ Record.erase encoding "tooltip" → m.1 = "tooltip" ∨ m ∈ encoding :=
    fun hm ↦ .inr (List.mem_filter.1 hm).1
  have hadded : ∀ v, m ∈ Record.erase encoding "tooltip" ++ [("tooltip", v)] →
      m.1 = "tooltip" ∨ m ∈ encoding := by
    intro v hm
    obtain hm | hm := List.mem_append.1 hm
    · exact hothers hm
    · exact .inl (congrArg Prod.fst (List.mem_singleton.1 hm))
  rw [split] at h
  dsimp only at h
  split at h
  · dsimp only at h
    split at h
    · exact hothers h
    · exact hadded _ h
  · split at h
    · exact hothers h
    · split at h
      · exact hadded _ h
      · exact hothers h

namespace Boxplot

namespace Look

variable {definition position guide : Record Value}

/-- What is left of the axis of a definition for outliers. -/
def barest (definition : Record Value) : Option Value :=
  ((definition.get? "axis").filter Value.isObject).bind Value.untitled?

theorem barest_of_untitledGuide (h : untitledGuide definition = .ok guide) :
    barest definition = if guide = [] then none else some (.object guide) := by
  rw [untitledGuide] at h
  rw [barest]
  cases hget : definition.get? "axis" with
  | none =>
      rw [Record.value_of_none hget] at h
      obtain rfl := Except.ok.inj h
      rfl
  | some v =>
      rw [Record.value_of_get? hget] at h
      cases v with
      | object members =>
          have hguide : guide = Record.erase members "title" := by
            cases members with
            | nil => exact (Except.ok.inj h).symm
            | cons m rest => exact (Except.ok.inj h).symm
          rw [hguide]
          simp [Option.filter, Value.isObject, Value.untitled?, Value.untitled]
      | null | bool | int | float | text | list | set | fieldDef =>
          split at h
          · cases h
          · obtain rfl := Except.ok.inj h
            rfl

theorem get?_valuePosition (h : valuePosition definition = .ok position) :
    position.get? "scale" = definition.get? "scale" ∧
      position.get? "axis" = barest definition := by
  obtain ⟨guide, hguide, h⟩ := bind_eq_ok_iff.1 h
  obtain rfl := Except.ok.inj h
  rw [barest_of_untitledGuide hguide, optionalMember]
  constructor
  · split <;> cases definition.get? "scale" <;> cases guide <;> rfl
  · split <;> cases definition.get? "scale" <;> cases guide <;> rfl

/-- Nothing of an axis is lost but its title if it is an object. -/
theorem bind_barest_iff : (barest definition).bind Value.untitled? =
    (definition.get? "axis").bind Value.untitled? ↔
      ∀ v, definition.get? "axis" = some v → v.isObject = true := by
  rw [barest]
  cases definition.get? "axis" with
  | none => simp
  | some v =>
      cases hobject : v.isObject with
      | true =>
          rw [Option.filter_some, if_pos hobject, Option.bind_some, Value.bind_untitled?]
          simp [hobject]
      | false => simp [Option.filter, hobject, Value.untitled?_of_not_object hobject]

theorem map_barest_iff : (barest definition).map Value.untitled =
    (definition.get? "axis").map Value.untitled ↔
      ∀ v, definition.get? "axis" = some v →
        v.isObject = true ∧ v.untitled ≠ .object [] := by
  rw [barest]
  cases definition.get? "axis" with
  | none => simp
  | some v =>
      cases hobject : v.isObject with
      | true =>
          rw [Option.filter_some, if_pos hobject, Option.bind_some, Option.map_some,
            Value.map_untitled_untitled?]
          simp [hobject]
      | false => simp [Option.filter, hobject]

/-- Is the axis left to the parts, so that nothing else is drawn along it? -/
structure Clear (l : Look) : Prop where
  isXOrY : Channel.isXOrY l.plan.axis.channel = true
  lifted : ∀ m ∈ l.plan.lifted.encoding, m.1 ≠ l.plan.axis.channel

section Clear

variable {l : Look} {layer : UnitLayer} (hl : l.Clear)

include hl

theorem Clear.ne {channel : String} (h : Channel.isXOrY channel = false) :
    channel ≠ l.plan.axis.channel := by
  rintro rfl
  rw [hl.isXOrY] at h
  cases h

theorem Clear.optionalMember {key : String} {v : Value} (h : Channel.isXOrY key = false) :
    ∀ m ∈ Look.optionalMember key v, m.1 ≠ l.plan.axis.channel := by
  intro m hm
  rw [Look.optionalMember] at hm
  split at hm
  · obtain rfl := List.mem_singleton.1 hm
    exact hl.ne h
  · cases hm

theorem Clear.plainEncoding : ∀ m ∈ Look.plainEncoding l.plan, m.1 ≠ l.plan.axis.channel :=
  fun m hm ↦ hl.lifted m (List.mem_filter.1 hm).1

theorem Clear.medianEncoding (hmade : l.Made) :
    ∀ m ∈ l.medianEncoding, m.1 ≠ l.plan.axis.channel := by
  obtain ⟨color, -, h⟩ := bind_eq_ok_iff.1 hmade.medianEncoding
  obtain h := Except.ok.inj h
  rw [← h]
  intro m hm
  obtain rfl | hm := Record.mem_of_mem_put hm
  · exact hl.ne rfl
  · obtain hm | hm := Record.mem_of_mem_override hm
    · exact hl.plainEncoding m hm
    · exact hl.optionalMember rfl m hm

theorem Clear.tooltip {rows : List Tooltip.Row} {definition : Record Value} {encoding : Encoding}
    {tooltip : Encoding} (h : Tooltip.channel rows definition encoding = .ok tooltip) :
    ∀ m ∈ tooltip, m.1 ≠ l.plan.axis.channel := by
  obtain ⟨v, rfl, -⟩ := Tooltip.exists_of_channel h
  intro m hm
  obtain rfl := List.mem_singleton.1 hm
  exact hl.ne rfl

theorem Clear.whiskerTooltip (hmade : l.Made) :
    ∀ m ∈ l.whiskerTooltip, m.1 ≠ l.plan.axis.channel := by
  have h := hmade.whiskerTooltip
  split at h
  · rw [← Except.ok.inj h]
    exact hl.tooltip hmade.summary
  · exact hl.tooltip h

/-- What outliers tell of the scale and the axis. -/
theorem Clear.member?_of_mem_points (h : layer ∈ l.points) :
    layer.member? l.plan.axis.channel "scale" = l.plan.axis.definition.get? "scale" ∧
      layer.member? l.plan.axis.channel "axis" = barest l.plan.axis.definition := by
  obtain ⟨-, test, position, -, hposition, hencoding⟩ := exists_of_mem_points h
  have hothers : ∀ m ∈ l.keptMembers ++ Look.optionalMember "tooltip" l.plan.tooltip,
      m.1 ≠ l.plan.axis.channel := by
    intro m hm
    obtain hm | hm := List.mem_append.1 hm
    · obtain hm | hm := List.mem_append.1 hm
      · exact hl.plainEncoding m (List.mem_filter.1 hm).1
      · exact hl.optionalMember rfl m hm
    · exact hl.optionalMember rfl m hm
  have hget : layer.encoding.get? l.plan.axis.channel = some (.object position) := by
    rw [hencoding, pointEncoding, Record.get?_override_of_ne hothers, Record.get?_cons, if_pos rfl]
  rw [UnitLayer.member?_of_get? hget, UnitLayer.member?_of_get? hget]
  exact get?_valuePosition hposition

/-- What all other parts tell of them. -/
theorem Clear.member?_of_mem_summary (hmade : l.Made)
    (h : layer ∈ l.whiskers ++ (l.box ++ l.median)) {key : String}
    (hkey : key ∈ ["scale", "axis"]) :
    layer.member? l.plan.axis.channel key = l.plan.axis.definition.get? key := by
  have hpart : ∀ {encoding extra : Encoding} {start : String} {stop : Option String},
      (∀ m ∈ encoding, m.1 ≠ l.plan.axis.channel) →
      (∀ m ∈ extra, m.1 ≠ l.plan.axis.channel) →
      layer.encoding = (l.context encoding).encodingOf start stop extra →
      layer.member? l.plan.axis.channel key = l.plan.axis.definition.get? key := by
    intro encoding extra start stop hencoding hextra hlayer
    have hget : layer.encoding.get? l.plan.axis.channel =
        some (.object ((l.context encoding).position start)) := by
      rw [hlayer]
      exact Part.Context.get?_encodingOf_channel hencoding hextra
    rw [UnitLayer.member?_of_get? hget, Part.Context.get?_position hkey]
    rfl
  obtain h | h := List.mem_append.1 h
  · obtain ⟨-, start, stop, -, hlayer⟩ := exists_of_mem_whiskers h
    exact hpart hl.plainEncoding (hl.whiskerTooltip hmade) hlayer
  · obtain ⟨-, encoding, start, stop, rfl | rfl, -, hlayer⟩ := exists_of_mem_body h
    · exact hpart hl.lifted (hl.tooltip hmade.summary) hlayer
    · exact hpart (hl.medianEncoding hmade) (hl.tooltip hmade.summary) hlayer

end Clear

end Look

/-- Does the boxplot of a specification run along a channel, with these members of the definition
there? -/
def RunsAlong (spec : Record Value) (channel : String) (given : Record Value)
    (parse : Shorthand.Reader := Shorthand.members) : Prop :=
  ∃ encoding orient, (Encoding.normalize (spec.value "encoding") parse).outcome = .ok encoding ∧
    ContinuousAxis.orientation (spec.put "encoding" (.object encoding)) markName = .ok orient ∧
    channel = orient.channel ∧ (encoding.value channel).asRecord = .ok given

/-- Is a part drawn that shows statistics? -/
def DrawsSummary (mark : MarkDef) (settings : Settings) : Prop :=
  ∃ part ∈ ["rule", "ticks", "box", "median"],
    Part.isDrawn mark (Settings.openBlock settings.boxplot.members) part = true

section Expansions

variable {spec outer : Record Value} {encoding : Encoding} {mark : MarkDef} {settings : Settings}
  {whiskers : Option Whiskers} {parse : Shorthand.Reader} {look : Look} {e : Expansion}

theorem exists_axis_of_lookAt
    (h : (lookAt (spec.put "encoding" (.object encoding)) encoding mark settings
      whiskers).outcome = .ok look) :
    look.Clear ∧ ∃ orient given,
      ContinuousAxis.orientation (spec.put "encoding" (.object encoding)) markName = .ok orient ∧
        look.plan.axis.channel = orient.channel ∧
        (encoding.value orient.channel).asRecord = .ok given ∧
        look.plan.axis.definition = Record.erase given "aggregate" := by
  obtain ⟨w, k, -, -, hplan, -⟩ := exists_plan_of_lookAt h
  rw [Plan.ofSpec_eq] at hplan
  obtain ⟨orient, horient, hplan⟩ := Report.outcome_bind_eq_ok_iff.1 hplan
  obtain ⟨axis, haxis, hplan⟩ := Report.outcome_bind_eq_ok_iff.1 hplan
  obtain ⟨hsame, -, hlifted⟩ := Plan.given_of_along hplan
  have hxy := ContinuousAxis.isXOrY_of_ofSpec haxis
  obtain ⟨given, hgiven, hdefinition⟩ :=
    ContinuousAxis.exists_of_ofSpec Record.value_put_self haxis
  have hending : axis.channel.toList.getLast? ≠ some '2' := by
    obtain hx | hy : axis.channel = "x" ∨ axis.channel = "y" := by
      simpa [Channel.isXOrY] using hxy
    · rw [hx]
      decide
    · rw [hy]
      decide
  have hothers : ∀ m ∈ (Tooltip.split (encoding.erase axis.channel)).encoding,
      m.1 ≠ axis.channel ∧ m.1 ++ "2" ≠ axis.channel := by
    intro m hm
    refine ⟨?_, append_two_ne hending⟩
    obtain htooltip | hm := Tooltip.mem_split hm
    · intro heq
      rw [← heq, htooltip] at hxy
      cases hxy
    · simpa using (List.mem_filter.1 hm).2
  refine ⟨⟨hsame ▸ hxy, ?_⟩, orient, given, horient, ?_, hgiven, hsame ▸ hdefinition⟩
  · rw [hsame]
    exact Extraction.channels_of_ofEncoding (P := fun c ↦ c ≠ axis.channel) hothers hlifted
  · rw [hsame]
    exact (ContinuousAxis.given_of_ofSpec haxis).1

theorem layers_ne_nil_iff {mark : MarkDef} {settings : Record Value} {part : String}
    {base : UnitLayer} :
    Part.layers mark settings part base ≠ [] ↔ Part.isDrawn mark settings part = true := by
  rw [Part.layers]
  split
  · rename_i hon
    exact iff_of_true (List.cons_ne_nil _ _) hon
  · rename_i hoff
    exact iff_of_false (fun h ↦ h rfl) hoff

theorem points_ne_nil_iff (h : draw outer look = .ok e) :
    look.points ≠ [] ↔ look.plan.whiskers = .tukey ∧
      Part.isDrawn look.mark look.partSettings "outliers" = true := by
  by_cases htukey : look.plan.whiskers = .tukey
  · obtain ⟨limits, -, houtliers⟩ := exists_limits_of_draw h htukey
    obtain ⟨base, -, hpoints⟩ := Look.exists_of_outliers houtliers
    rw [hpoints, layers_ne_nil_iff, and_iff_right htukey]
  · rw [Look.points, if_neg htukey]
    exact iff_of_false (fun hne ↦ hne rfl) fun hboth ↦ htukey hboth.1

theorem summary_ne_nil_iff : look.whiskers ++ (look.box ++ look.median) ≠ [] ↔
    ∃ part ∈ ["rule", "ticks", "box", "median"],
      Part.isDrawn look.mark look.partSettings part = true := by
  have hmake : ∀ {encoding extra : Encoding} {base : MarkDef} {part start : String}
      {stop : Option String}, (look.context encoding).make part base start stop extra = [] ↔
        ¬Part.isDrawn look.mark look.partSettings part = true :=
    not_not.symm.trans (not_congr layers_ne_nil_iff)
  rw [Look.whiskers, Look.box, Look.median]
  simp only [ne_eq, List.append_eq_nil_iff, hmake, List.mem_cons, List.not_mem_nil, or_false,
    exists_eq_or_imp, exists_eq_left]
  tauto

/-- What the parts with statistics tell is told by all layers just if the outliers tell it too, or
either of them are not drawn. -/
theorem agree_iff (tells : UnitLayer → Option Value) {a b : Option Value}
    (h : draw outer look = .ok e) (hpoints : ∀ layer ∈ look.points, tells layer = b)
    (hsummary : ∀ layer ∈ look.whiskers ++ (look.box ++ look.median), tells layer = a) :
    e.Agree tells ↔
      (look.points ≠ [] → look.whiskers ++ (look.box ++ look.median) ≠ [] → b = a) := by
  have hlayers : e.Agree tells ↔ ∀ layer ∈ e.leaves.map Leaf.layer,
      ∀ other ∈ e.leaves.map Leaf.layer, tells layer = tells other := by
    simp only [Expansion.Agree, List.forall_mem_map]
  rw [hlayers, layers_of_draw h]
  generalize look.whiskers ++ (look.box ++ look.median) = summary at hsummary ⊢
  constructor
  · intro hagree hdrawn hother
    obtain ⟨point, hpoint⟩ := List.exists_mem_of_ne_nil _ hdrawn
    obtain ⟨part, hpart⟩ := List.exists_mem_of_ne_nil _ hother
    rw [← hpoints point hpoint, ← hsummary part hpart]
    exact hagree _ (List.mem_append_left _ hpoint) _ (List.mem_append_right _ hpart)
  · intro hsame layer hlayer other hother
    rcases List.mem_append.1 hlayer with hlayer | hlayer <;>
      rcases List.mem_append.1 hother with hother | hother
    · rw [hpoints _ hlayer, hpoints _ hother]
    · rw [hpoints _ hlayer, hsummary _ hother]
      exact hsame (List.ne_nil_of_mem hlayer) (List.ne_nil_of_mem hother)
    · rw [hsummary _ hlayer, hpoints _ hother]
      exact (hsame (List.ne_nil_of_mem hother) (List.ne_nil_of_mem hlayer)).symm
    · rw [hsummary _ hlayer, hsummary _ hother]

/-- Outliers are drawn, or anything else, just if the mark and the settings ask for it. -/
theorem drawn_of_lookAt (h : (lookAt spec encoding mark settings whiskers).outcome = .ok look)
    (hdraw : draw outer look = .ok e) :
    (look.points ≠ [] ↔ DrawsOutliers mark settings whiskers) ∧
      (look.whiskers ++ (look.box ++ look.median) ≠ [] ↔ DrawsSummary mark settings) := by
  obtain ⟨hmark, hgiven⟩ := mark_and_settings_of_lookAt h
  obtain ⟨hwhiskers, -⟩ := given_of_lookAt h
  have hsettings : look.partSettings = Settings.openBlock settings.boxplot.members := by
    rw [Look.partSettings, hgiven]
  constructor
  · rw [points_ne_nil_iff hdraw, hmark, hsettings, DrawsOutliers, hwhiskers, Except.ok.injEq]
  · rw [summary_ne_nil_iff, hmark, hsettings, DrawsSummary]

section Clear

variable (hclear : look.Clear) (hmade : look.Made) (hdraw : draw outer look = .ok e)

include hclear hmade hdraw

theorem scale_of_draw {leaf : Leaf} (hleaf : leaf ∈ e.leaves) :
    leaf.layer.member? look.plan.axis.channel "scale" =
      look.plan.axis.definition.get? "scale" := by
  have hlayer : leaf.layer ∈ e.leaves.map Leaf.layer := List.mem_map_of_mem hleaf
  rw [layers_of_draw hdraw] at hlayer
  obtain hpoint | hpart := List.mem_append.1 hlayer
  · exact (hclear.member?_of_mem_points hpoint).1
  · exact hclear.member?_of_mem_summary hmade hpart (by decide)

theorem agree_axis_iff (reads : Option Value → Option Value) :
    (e.Agree fun l ↦ reads (l.member? look.plan.axis.channel "axis")) ↔
      (look.points ≠ [] → look.whiskers ++ (look.box ++ look.median) ≠ [] →
        reads (Look.barest look.plan.axis.definition) =
          reads (look.plan.axis.definition.get? "axis")) := by
  apply agree_iff _ hdraw
  · intro layer hpoint
    exact congrArg reads (hclear.member?_of_mem_points hpoint).2
  · intro layer hpart
    exact congrArg reads (hclear.member?_of_mem_summary hmade hpart (by decide))

end Clear

/-- All layers of a boxplot tell the same of the scale. Of the axis they do, but for its title, just
if it is not given or an object, unless there are no outliers or nothing but outliers. To the
letter, there must be something else than a title in it. -/
theorem layers_agree_iff {m : Value} (h : (expand spec settings whiskers parse).outcome = .ok e)
    (hmark : spec.require "mark" = .ok m) :
    ∃ channel given, RunsAlong spec channel given parse ∧
      (∀ leaf ∈ e.leaves, leaf.layer.member? channel "scale" = given.get? "scale") ∧
      ((e.Agree fun l ↦ (l.member? channel "axis").bind Value.untitled?) ↔
        (DrawsOutliers (.ofValue m) settings whiskers → DrawsSummary (.ofValue m) settings →
          ∀ v, given.get? "axis" = some v → v.isObject = true)) ∧
      ((e.Agree fun l ↦ (l.member? channel "axis").map Value.untitled) ↔
        (DrawsOutliers (.ofValue m) settings whiskers → DrawsSummary (.ofValue m) settings →
          ∀ v, given.get? "axis" = some v →
            v.isObject = true ∧ v.untitled ≠ .object [])) := by
  obtain ⟨encoding, m', look, hencoding, hm', hat, hdraw⟩ := exists_lookAt_of_expand h
  obtain rfl := Except.ok.inj (hmark.symm.trans hm')
  have hmade := made_of_lookAt hat
  obtain ⟨hclear, orient, given, horient, hchannel, hgiven, hdefinition⟩ :=
    exists_axis_of_lookAt hat
  obtain ⟨hpoints, hsummary⟩ := drawn_of_lookAt hat hdraw
  have hget : ∀ key ∈ ["scale", "axis"],
      look.plan.axis.definition.get? key = Record.get? given key := by
    intro key hkey
    rw [hdefinition]
    refine Record.get?_erase_of_ne given ?_
    rintro rfl
    exact absurd hkey (by decide)
  refine ⟨look.plan.axis.channel, given, ⟨encoding, orient, hencoding, horient, hchannel,
    hchannel ▸ hgiven⟩, ?_, ?_, ?_⟩
  · intro leaf hleaf
    rw [scale_of_draw hclear hmade hdraw hleaf, hget "scale" (by decide)]
  · rw [agree_axis_iff hclear hmade hdraw fun axis ↦ axis.bind Value.untitled?, hpoints,
      hsummary, Look.bind_barest_iff, hget "axis" (by decide)]
  · rw [agree_axis_iff hclear hmade hdraw (Option.map Value.untitled), hpoints, hsummary,
      Look.map_barest_iff, hget "axis" (by decide)]

/-- The definition of an axis that has no scale. -/
def unscaled (axis : Value) : Record Value :=
  [("field", .text "v"), ("type", .text "quantitative"), ("axis", axis), ("scale", .null)]

/-- A boxplot upwards. -/
def upwards (axis : Value) : Record Value :=
  [("mark", .text "boxplot"), ("encoding", .object [("y", .object (unscaled axis))])]

def gridless : Value := .object [("title", .text "speed"), ("grid", .bool false)]

theorem layers_agree_iff_gridless : ∃ e, (expand (upwards gridless)).outcome = .ok e ∧
    (∀ leaf ∈ e.leaves, leaf.layer.member? "y" "scale" = some .null) ∧
    e.Agree fun l ↦ (l.member? "y" "axis").map Value.untitled := by
  have hrun : (do
      let _ ← (expand (upwards gridless)).outcome
      pure ()) = (.ok () : Except Fault Unit) := by
    decide +kernel
  obtain ⟨e, he, -⟩ := bind_eq_ok_iff.1 hrun
  have hnormal : (Encoding.normalize ((upwards gridless).value "encoding")).outcome =
      .ok [("y", .object (unscaled gridless))] := by
    decide +kernel
  have hvertical : ContinuousAxis.orientation ((upwards gridless).put "encoding"
      (.object [("y", .object (unscaled gridless))])) markName = .ok .vertical := by
    decide +kernel
  obtain ⟨channel, given, ⟨encoding, orient, hencoding, horient, rfl, hgiven⟩, hscale, -, hall⟩ :=
    layers_agree_iff he rfl
  obtain rfl := Except.ok.inj (hnormal.symm.trans hencoding)
  obtain rfl := Except.ok.inj (hvertical.symm.trans horient)
  obtain rfl := Except.ok.inj hgiven
  refine ⟨e, he, hscale, hall.2 fun _ _ v hv ↦ ?_⟩
  obtain rfl := Option.some.inj hv
  exact ⟨rfl, by decide⟩

/-- Outliers do not hide an axis that all other parts hide. -/
theorem not_layers_agree_hidden : ∃ e, (expand (upwards .null)).outcome = .ok e ∧
    ∃ leaf ∈ e.leaves, ∃ other ∈ e.leaves,
      leaf.layer.member? "y" "field" = some (.text "v") ∧
      leaf.layer.member? "y" "axis" = none ∧
      other.layer.member? "y" "field" = some (.text "mid_box_v") ∧
      other.layer.member? "y" "axis" = some .null := by
  have hrun : (do
      let e ← (expand (upwards .null)).outcome
      pure (decide (∃ leaf ∈ e.leaves, ∃ other ∈ e.leaves,
        leaf.layer.member? "y" "field" = some (.text "v") ∧
        leaf.layer.member? "y" "axis" = none ∧
        other.layer.member? "y" "field" = some (.text "mid_box_v") ∧
        other.layer.member? "y" "axis" = some .null))) = (.ok true : Except Fault Bool) := by
    decide +kernel
  obtain ⟨e, he, hrun⟩ := bind_eq_ok_iff.1 hrun
  exact ⟨e, he, of_decide_eq_true (Except.ok.inj hrun)⟩

end Expansions

end Boxplot

end ChartLowering
