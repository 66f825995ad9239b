import ChartLowering.Proofs.Boxplot.Drawing
import ChartLowering.Proofs.Composite.Mirror

/-!
# Mirrored boxplots

A boxplot along x is planned and drawn just as its mirror image along y. Its statistics are the
same, and each of its parts is the mirror image of the same part.
-/

namespace ChartLowering.Boxplot

namespace Plan

def mirrored (p : Plan) : Plan :=
  { p with
    orient := p.orient.turned
    axis := p.axis.mirrored
    lifted := p.lifted.mirrored }

/-- Does the plan lie along one of the two axes? -/
structure Axial (p : Plan) : Prop where
  known : p.orient.IsKnown
  axis : Channel.isXOrY p.axis.channel = true

variable {spec : Record Value} {encoding : Encoding} {whiskers : Whiskers} {multiplier : Binary64}
  {countTitle : String}

theorem along_mirrored (orient : Orientation) (axis : ContinuousAxis) :
    along orient.turned axis.mirrored encoding.mirrored whiskers multiplier countTitle =
      mirrored <$> along orient axis encoding whiskers multiplier countTitle := by
  have hsplit : Tooltip.split (Record.erase encoding.mirrored axis.mirrored.channel) =
      (Tooltip.split (encoding.erase axis.channel)).mirrored := by
    rw [← Tooltip.split_mirrored, ← Encoding.erase_mirrored]
    rfl
  have hlifted := Extraction.ofEncoding_mirrored
    (Tooltip.split (encoding.erase axis.channel)).encoding countTitle
  rw [along, along]
  dsimp only
  rw [hsplit, Tooltip.Split.mirrored]
  dsimp only
  rw [hlifted]
  simp only [map_bind, bind_map_left]
  rfl

theorem ofSpec_mirrored (hdirected : ContinuousAxis.Directed spec encoding)
    (h : spec.value "encoding" = .object encoding) :
    ofSpec (mirroredSpec spec) encoding.mirrored whiskers multiplier countTitle =
      mirrored <$> ofSpec spec encoding whiskers multiplier countTitle := by
  rw [ofSpec_eq, ofSpec_eq, ContinuousAxis.orientation_mirroredSpec hdirected h]
  cases ho : ContinuousAxis.orientation spec markName with
  | error fault => rfl
  | ok orient =>
      have hknown := ContinuousAxis.isKnown_of_orientation hdirected h ho
      have haxis := @ContinuousAxis.ofSpec_mirroredSpec spec encoding markName orient hknown h
      rw [← Report.map_lift, bind_map_left, Report.lift_ok, pure_bind, pure_bind, haxis,
        bind_map_left, map_bind]
      congr 1
      funext axis
      rw [along_mirrored, Report.map_lift]

theorem axial_of_ofSpec (hdirected : ContinuousAxis.Directed spec encoding)
    (h : spec.value "encoding" = .object encoding) {p : Plan}
    (hp : (ofSpec spec encoding whiskers multiplier countTitle).outcome = .ok p) : p.Axial := by
  rw [ofSpec_eq] at hp
  obtain ⟨orient, ho, hp⟩ := Report.outcome_bind_eq_ok_iff.1 hp
  obtain ⟨axis, haxis, hp⟩ := Report.outcome_bind_eq_ok_iff.1 hp
  obtain ⟨column, -, hp⟩ := bind_eq_ok_iff.1 hp
  obtain ⟨bounds, -, hp⟩ := bind_eq_ok_iff.1 hp
  obtain ⟨lifted, -, hp⟩ := bind_eq_ok_iff.1 hp
  rw [← Except.ok.inj hp]
  exact ⟨ContinuousAxis.isKnown_of_orientation hdirected h ho,
    ContinuousAxis.isXOrY_of_ofSpec haxis⟩

end Plan

namespace Look

def mirrored (l : Look) : Look :=
  { l with
    plan := l.plan.mirrored
    mark := l.mark.turned
    medianEncoding := l.medianEncoding.mirrored }

theorem plainEncoding_mirrored (p : Plan) :
    plainEncoding p.mirrored = Encoding.mirrored (plainEncoding p) :=
  Record.without_convert (g := fun _ v ↦ v) Channel.mirror_injective p.lifted.encoding
    ["color", "size"]

theorem mirrored_optionalMember {key : String} (h : Channel.mirror key = key) (v : Value) :
    Encoding.mirrored (optionalMember key v) = optionalMember key v := by
  rw [optionalMember]
  split
  · exact congrArg (fun key ↦ [(key, v)]) h
  · rfl

theorem medianColor_mirrored (p : Plan) (s : Settings) :
    medianColor p.mirrored s = medianColor p s := by
  have hcolor : (p.lifted.mirrored.encoding).value "color" = p.lifted.encoding.value "color" :=
    Encoding.value_mirrored p.lifted.encoding "color"
  rw [medianColor, medianColor, Plan.mirrored]
  dsimp only
  rw [hcolor]
  rfl

theorem medianEncodingOf_mirrored (p : Plan) (s : Settings) :
    medianEncodingOf p.mirrored s = Encoding.mirrored <$> medianEncodingOf p s := by
  have hsize : (p.mirrored.lifted.encoding).value "size" = p.lifted.encoding.value "size" :=
    Encoding.value_mirrored p.lifted.encoding "size"
  rw [medianEncodingOf, medianEncodingOf, medianColor_mirrored, map_bind, hsize,
    plainEncoding_mirrored]
  congr 1
  funext color
  rw [map_pure, ← Encoding.put_mirrored, ← Encoding.override_mirrored,
    mirrored_optionalMember rfl]
  rfl

theorem ofPlan_mirrored (plan : Plan) (mark : MarkDef) (settings : Settings) :
    ofPlan plan.mirrored mark.turned settings = mirrored <$> ofPlan plan mark settings := by
  have htooltip : ∀ rows, Tooltip.channel rows plan.mirrored.axis.definition
      plan.mirrored.lifted.encoding =
        Tooltip.channel rows plan.axis.definition plan.lifted.encoding :=
    fun rows ↦ Tooltip.channel_mirrored rows plan.axis.definition plan.lifted.encoding true
  have hwhiskers : plan.mirrored.whiskers = plan.whiskers := rfl
  rw [ofPlan, ofPlan, MarkDef.property_turned mark settings (by decide),
    medianEncodingOf_mirrored, map_bind]
  congr 1
  funext size
  rw [bind_map_left, map_bind]
  congr 1
  funext median
  dsimp only
  rw [htooltip, htooltip, map_bind, hwhiskers]
  congr 1
  funext summary
  split
  · rfl
  · rw [map_bind]
    rfl

/-- Does no style of a part have a direction of its own? -/
def Undirected (l : Look) : Prop :=
  ∀ part ∈ parts, Part.Undirected l.mark l.partSettings part

section Parts

variable {l : Look}

theorem make_mirrored (haxis : Channel.isXOrY l.plan.axis.channel = true) (hl : l.Undirected)
    {part : String} (hpart : part ∈ parts) (encoding : Encoding) (base : MarkDef) (start : String)
    (stop : Option String) {extra : Encoding} (hextra : extra.mirrored = extra) :
    (l.mirrored.context encoding.mirrored).make part base.turned start stop extra =
      ((l.context encoding).make part base start stop extra).map UnitLayer.mirrored := by
  have hne : part ≠ "orient" := by
    rintro rfl
    exact absurd hpart (by decide)
  have hmake := @Part.Context.make_mirrored part (l.context encoding) hne (hl part hpart) haxis
    base start stop extra
  rw [hextra] at hmake
  exact hmake

theorem invalid_mirrored : l.mirrored.invalid = l.invalid :=
  congrArg (Prod.mk "invalid") (MarkDef.value_turned_of_ne (by decide))

theorem rule_mirrored : l.mirrored.rule = l.rule.turned := by
  rw [rule, invalid_mirrored]
  rfl

theorem tick_mirrored (hknown : l.plan.orient.IsKnown) : l.mirrored.tick = l.tick.turned := by
  have horient : l.mirrored.plan.orient.across.toValue = l.plan.orient.across.toValue.turned :=
    Orientation.toValue_across_turned hknown
  rw [tick, invalid_mirrored, horient]
  rfl

theorem whiskers_mirrored (hplan : l.plan.Axial) (hl : l.Undirected)
    (htooltip : l.whiskerTooltip.mirrored = l.whiskerTooltip) :
    l.mirrored.whiskers = l.whiskers.map UnitLayer.mirrored := by
  have hplain : plainEncoding l.mirrored.plan = Encoding.mirrored (plainEncoding l.plan) :=
    plainEncoding_mirrored l.plan
  have hsame : l.mirrored.whiskerTooltip = l.whiskerTooltip := rfl
  rw [whiskers, whiskers, hplain, rule_mirrored, tick_mirrored hplan.known, hsame]
  simp only [List.map_append]
  rw [make_mirrored hplan.axis hl (by decide) _ _ _ _ htooltip,
    make_mirrored hplan.axis hl (by decide) _ _ _ _ htooltip,
    make_mirrored hplan.axis hl (by decide) _ _ _ _ htooltip,
    make_mirrored hplan.axis hl (by decide) _ _ _ _ htooltip]

theorem turned_optionalMember {key : String} (h : key ≠ "orient") (v : Value) :
    MarkDef.turned (optionalMember key v) = optionalMember key v := by
  rw [optionalMember]
  split
  · exact congrArg (fun v ↦ [(key, v)]) (if_neg h)
  · rfl

theorem box_mirrored (hplan : l.plan.Axial) (hl : l.Undirected)
    (hsummary : l.summary.mirrored = l.summary) :
    l.mirrored.box = l.box.map UnitLayer.mirrored := by
  have horient : l.mirrored.plan.orient.toValue = l.plan.orient.toValue.turned :=
    Orientation.toValue_turned hplan.known
  have hmark : [("type", Value.text "bar")] ++ optionalMember "size" l.mirrored.size ++
      [("orient", l.mirrored.plan.orient.toValue), l.mirrored.invalid,
        ("ariaRoleDescription", .text "box")] =
      MarkDef.turned ([("type", Value.text "bar")] ++ optionalMember "size" l.size ++
        [("orient", l.plan.orient.toValue), l.invalid, ("ariaRoleDescription", .text "box")]) := by
    rw [MarkDef.turned_append, MarkDef.turned_append, turned_optionalMember (by decide), horient,
      invalid_mirrored]
    rfl
  rw [box, box, hmark]
  exact make_mirrored hplan.axis hl (by decide) _ _ _ _ hsummary

theorem median_mirrored (hplan : l.plan.Axial) (hl : l.Undirected)
    (hsummary : l.summary.mirrored = l.summary) :
    l.mirrored.median = l.median.map UnitLayer.mirrored := by
  have horient : l.mirrored.plan.orient.across.toValue = l.plan.orient.across.toValue.turned :=
    Orientation.toValue_across_turned hplan.known
  have hmark : [("type", Value.text "tick"), l.mirrored.invalid] ++
      optionalMember "color" (medianStyleColor l.mirrored.settings) ++
      optionalMember "size" l.mirrored.size ++
      [("orient", l.mirrored.plan.orient.across.toValue), silent] =
      MarkDef.turned ([("type", Value.text "tick"), l.invalid] ++
        optionalMember "color" (medianStyleColor l.settings) ++ optionalMember "size" l.size ++
        [("orient", l.plan.orient.across.toValue), silent]) := by
    rw [MarkDef.turned_append, MarkDef.turned_append, MarkDef.turned_append,
      turned_optionalMember (by decide), turned_optionalMember (by decide), horient,
      invalid_mirrored]
    rfl
  rw [median, median, hmark]
  exact make_mirrored hplan.axis hl (by decide) _ _ _ _ hsummary

theorem outliers_mirrored (hl : l.Undirected) (limits : Plan.Limits) :
    l.mirrored.outliers limits = (List.map UnitLayer.mirrored) <$> l.outliers limits := by
  have hencoding : ∀ position,
      Record.override [(l.mirrored.plan.axis.channel, Value.object position)]
        (Record.erase (plainEncoding l.mirrored.plan) "tooltip" ++
          optionalMember "color" (Record.value l.mirrored.plan.lifted.encoding "color") ++
          optionalMember "tooltip" l.mirrored.plan.tooltip) =
      Encoding.mirrored (Record.override [(l.plan.axis.channel, Value.object position)]
        (Record.erase (plainEncoding l.plan) "tooltip" ++
          optionalMember "color" (l.plan.lifted.encoding.value "color") ++
          optionalMember "tooltip" l.plan.tooltip)) := by
    intro position
    have hcolor : Record.value l.mirrored.plan.lifted.encoding "color" =
        l.plan.lifted.encoding.value "color" := Encoding.value_mirrored _ "color"
    have hothers : Record.erase (plainEncoding l.mirrored.plan) "tooltip" =
        Encoding.mirrored (Record.erase (plainEncoding l.plan) "tooltip") := by
      rw [← Encoding.erase_mirrored, ← plainEncoding_mirrored]
      rfl
    rw [← Encoding.override_mirrored, Encoding.mirrored_append, Encoding.mirrored_append,
      mirrored_optionalMember rfl, mirrored_optionalMember rfl, hcolor, hothers]
    rfl
  rw [outliers, outliers, map_bind]
  congr 1
  funext position
  dsimp only
  rw [hencoding]
  exact congrArg pure (Part.layers_mirrored (by decide) (hl "outliers" (by decide))
    { transforms := [.filter limits.outside]
      mark := [("type", .text "point")]
      encoding := Record.override [(l.plan.axis.channel, .object position)]
        (Record.erase (plainEncoding l.plan) "tooltip" ++
          optionalMember "color" (l.plan.lifted.encoding.value "color") ++
          optionalMember "tooltip" l.plan.tooltip) })

end Parts

end Look

section Drawing

variable {l : Look}

theorem rowLayer_mirrored (hplan : l.plan.Axial) (hl : l.Undirected)
    (htooltip : l.whiskerTooltip.mirrored = l.whiskerTooltip) (limits : Plan.Limits) :
    rowLayer l.mirrored limits = Layer.mirrored <$> rowLayer l limits := by
  rw [rowLayer, rowLayer, Look.whiskers_mirrored hplan hl htooltip, Look.outliers_mirrored hl,
    bind_map_left, map_bind]
  congr 1
  funext outliers
  have hwhiskers := Layer.allMirrored_map_unit l.whiskers
  cases outliers with
  | nil => exact congrArg (fun layers ↦ pure (Layer.group _ layers)) hwhiskers.symm
  | cons first rest =>
      have hlayers : Layer.allMirrored ((first :: rest).map .unit ++
            [.group (l.plan.whiskerSteps limits) (l.whiskers.map .unit)]) =
          ((first :: rest).map UnitLayer.mirrored).map .unit ++
            [.group (l.plan.whiskerSteps limits)
              ((l.whiskers.map UnitLayer.mirrored).map .unit)] := by
        rw [Layer.allMirrored_append, Layer.allMirrored_map_unit, ← hwhiskers]
        rfl
      exact congrArg (fun layers ↦ pure (Layer.group _ layers)) hlayers.symm

theorem summary_mirrored (hmade : l.Made) : l.summary.mirrored = l.summary :=
  Tooltip.mirrored_of_channel hmade.summary

theorem whiskerTooltip_mirrored (hmade : l.Made) :
    l.whiskerTooltip.mirrored = l.whiskerTooltip := by
  have htooltip := hmade.whiskerTooltip
  split at htooltip
  · rw [← Except.ok.inj htooltip]
    exact summary_mirrored hmade
  · exact Tooltip.mirrored_of_channel htooltip

theorem draw_mirrored (hplan : l.plan.Axial) (hl : l.Undirected) (hmade : l.Made)
    (outer : Record Value) :
    draw outer l.mirrored = Expansion.mirrored <$> draw outer l := by
  have htooltip := whiskerTooltip_mirrored hmade
  have hbody : (l.mirrored.box ++ l.mirrored.median).map Layer.unit =
      Layer.allMirrored ((l.box ++ l.median).map Layer.unit) := by
    rw [Layer.allMirrored_map_unit, Look.box_mirrored hplan hl (summary_mirrored hmade),
      Look.median_mirrored hplan hl (summary_mirrored hmade), ← List.map_append]
  rw [draw, draw, hbody]
  -- Only these whiskers can leave rows out, and are drawn in a layer of single rows.
  by_cases htukey : l.plan.whiskers = .tukey
  · have htukey' : l.mirrored.plan.whiskers = .tukey := htukey
    have hlimits : l.mirrored.plan.limits = l.plan.limits := rfl
    rw [if_pos htukey, if_pos htukey', hlimits, map_bind]
    congr 1
    funext limits
    rw [rowLayer_mirrored hplan hl htooltip, bind_map_left, map_bind]
    rfl
  · have htukey' : ¬l.mirrored.plan.whiskers = .tukey := htukey
    rw [if_neg htukey, if_neg htukey', map_bind]
    congr 1
    funext written
    have hlayers : l.mirrored.whiskers.map Layer.unit ++
        Layer.allMirrored ((l.box ++ l.median).map Layer.unit) =
        Layer.allMirrored (l.whiskers.map Layer.unit ++ (l.box ++ l.median).map Layer.unit) := by
      rw [Look.whiskers_mirrored hplan hl htooltip, Layer.allMirrored_append,
        Layer.allMirrored_map_unit l.whiskers]
    exact congrArg (fun layers ↦ pure (Expansion.mk outer (some (written ++ l.plan.statistics))
      (.layers layers))) hlayers

end Drawing

section Expand

variable {spec : Record Value} {encoding : Encoding} {settings : Settings}
  {whiskers : Option Whiskers} {parse : Shorthand.Reader}

theorem extentOf_turned (mark : MarkDef) :
    extentOf mark.turned settings = extentOf mark settings := by
  rw [extentOf, extentOf, MarkDef.value_turned_of_ne (by decide)]

theorem lookAt_mirrored (hdirected : ContinuousAxis.Directed spec encoding)
    (h : spec.value "encoding" = .object encoding) (mark : MarkDef) :
    lookAt (mirroredSpec spec) encoding.mirrored mark.turned settings whiskers =
      Look.mirrored <$> lookAt spec encoding mark settings whiskers := by
  rw [lookAt, lookAt, extentOf_turned, map_bind]
  congr 1
  funext whiskers
  rw [map_bind]
  congr 1
  funext multiplier
  rw [Plan.ofSpec_mirrored hdirected h, bind_map_left, map_bind]
  congr 1
  funext plan
  rw [Look.ofPlan_mirrored, Report.map_lift]

/-- With no direction in any style, the expansion of the mirror image is the mirror image. -/
theorem result_expand_mirroredSpec
    (hdirected : ∀ encoding,
      (Encoding.normalize (spec.value "encoding") parse).outcome = .ok encoding →
        ContinuousAxis.Directed spec encoding)
    (hstyles : ∀ mark, spec.require "mark" = .ok mark → ∀ part ∈ parts,
      Part.Undirected (.ofValue mark) (Settings.openBlock settings.boxplot.members) part) :
    (expand (mirroredSpec spec) settings whiskers parse).result =
      (expand spec settings whiskers parse).result.map Expansion.mirrored := by
  have hput : ∀ encoding,
      (Encoding.normalize (spec.value "encoding") parse).outcome = .ok encoding →
        ContinuousAxis.Directed (spec.put "encoding" (.object encoding)) encoding :=
    fun encoding h ↦ ContinuousAxis.directed_put_encoding (hdirected encoding h) _
  have hlook : ∀ encoding,
      (Encoding.normalize (spec.value "encoding") parse).outcome = .ok encoding →
      ∀ mark : MarkDef,
        (stages settings whiskers parse).look
            (mirroredSpec (spec.put "encoding" (.object encoding))) encoding.mirrored mark.turned =
          Look.mirrored <$> (stages settings whiskers parse).look
            (spec.put "encoding" (.object encoding)) encoding mark :=
    fun encoding h mark ↦ lookAt_mirrored (hput encoding h) Record.value_put_self mark
  rw [expand_eq, expand_eq]
  apply Stages.result_expand_mirroredSpec (fun _ ↦ rfl) hlook
  intro look hok
  obtain ⟨encoding, mark, hencoding, -, hmark, hat⟩ := Stages.exists_encoding_of_lookOf hok
  obtain ⟨whiskers, multiplier, -, -, hplan, -⟩ := exists_plan_of_lookAt hat
  obtain ⟨hlmark, hlsettings⟩ := mark_and_settings_of_lookAt hat
  have haxial : look.plan.Axial :=
    Plan.axial_of_ofSpec (hput encoding hencoding) Record.value_put_self hplan
  have hundirected : look.Undirected := by
    intro part hpart
    rw [hlmark, Look.partSettings, hlsettings]
    exact hstyles mark hmark part hpart
  exact draw_mirrored haxial hundirected (made_of_lookAt hat) (Expansion.kept spec)

end Expand

end ChartLowering.Boxplot
