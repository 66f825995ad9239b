import ChartLowering.Composite.Boxplot.Expand
import ChartLowering.Proofs.Composite.Stages

/-!
# What a boxplot draws

A boxplot is planned first and drawn then. However its layers are grouped, the single rows, the
whiskers and the box each go through steps of their own after those of the author.
-/

namespace ChartLowering.Boxplot

/-- What the parts of the boxplot of a specification share. -/
def lookOf (spec : Record Value) (settings : Settings := {}) (whiskers : Option Whiskers := none)
    (parse : Shorthand.Reader := Shorthand.members) : Report Look := do
  let encoding ← Encoding.normalize (spec.value "encoding") parse
  let spec := spec.put "encoding" (.object encoding)
  let mark := MarkDef.ofValue (← spec.require "mark")
  if !(spec.value "params").isNull then Report.warn .boxplot (.selection (.text markName))
  let extent := extentOf mark settings
  let whiskers ← match whiskers with
    | some whiskers => pure whiskers
    | none => whiskersOf extent
  let multiplier ← multiplierOf extent
  let plan ← Plan.ofSpec spec encoding whiskers multiplier settings.countTitle
  Look.ofPlan plan mark settings

/-- What the parts share, once the mark definition is known. -/
def lookAt (spec : Record Value) (encoding : Encoding) (mark : MarkDef) (settings : Settings)
    (whiskers : Option Whiskers) : Report Look := do
  let extent := extentOf mark settings
  let whiskers ← whiskers.elim (whiskersOf extent) pure
  let multiplier ← multiplierOf extent
  let plan ← Plan.ofSpec spec encoding whiskers multiplier settings.countTitle
  Look.ofPlan plan mark settings

def stages (settings : Settings) (whiskers : Option Whiskers) (parse : Shorthand.Reader) :
    Stages Look where
  stage := .boxplot
  name := markName
  parse := parse
  refuse _ := pure ()
  look spec encoding mark := lookAt spec encoding mark settings whiskers
  draw := draw

theorem lookOf_eq (spec : Record Value) (settings : Settings) (whiskers : Option Whiskers)
    (parse : Shorthand.Reader) :
    lookOf spec settings whiskers parse = (stages settings whiskers parse).lookOf spec := by
  rw [lookOf, Stages.lookOf]
  congr 1
  funext encoding
  dsimp only [stages]
  rw [Record.require_put_of_ne (by decide), Record.value_put_of_ne (by decide), pure_bind]
  congr 1
  funext mark
  rw [Stages.tellSelections]
  -- Whether there is a warning, and where the whiskers come from.
  split
  · cases whiskers <;> rfl
  · cases whiskers <;> rfl

theorem expand_eq (spec : Record Value) (settings : Settings) (whiskers : Option Whiskers)
    (parse : Shorthand.Reader) :
    expand spec settings whiskers parse = (stages settings whiskers parse).expand spec := by
  have hkept : ∀ v, Expansion.kept (spec.put "encoding" v) = Expansion.kept spec :=
    fun v ↦ Expansion.kept_put spec v (by decide)
  rw [Stages.expand, ← lookOf_eq]
  simp only [expand, lookOf, hkept, bind_assoc]
  congr 1
  funext encoding
  congr 1
  funext mark
  split <;> cases whiskers <;> simp only [bind_assoc, pure_bind] <;> rfl

theorem exists_look_of_expand {spec : Record Value} {settings : Settings}
    {whiskers : Option Whiskers} {parse : Shorthand.Reader} {e : Expansion}
    (h : (expand spec settings whiskers parse).outcome = .ok e) :
    ∃ look, (lookOf spec settings whiskers parse).outcome = .ok look ∧
      draw (Expansion.kept spec) look = .ok e := by
  rw [expand_eq] at h
  rw [lookOf_eq]
  exact Stages.exists_look_of_expand h

/-- The whiskers that are asked for, apart from the extent or by it. -/
def whiskersFor (whiskers : Option Whiskers) (extent : Value) : Except Fault Whiskers :=
  whiskers.elim (whiskersOf extent) pure

namespace Plan

def boundsFor (whiskers : Whiskers) (multiplier : Binary64) (column : String) :
    Except Fault (List Transform) :=
  if whiskers = .boundedIqr then boundSteps multiplier column else pure []

/-- The plan along an axis that is known already. -/
def along (orient : Orientation) (axis : ContinuousAxis) (encoding : Encoding)
    (whiskers : Whiskers) (multiplier : Binary64) (countTitle : String) : Except Fault Plan := do
  let column ← FieldPath.flatten axis.field.shown
  let bounds ← boundsFor whiskers multiplier column
  let split := Tooltip.split (encoding.erase axis.channel)
  let lifted ← Extraction.ofEncoding split.encoding countTitle
  pure { whiskers, multiplier, orient, axis, column, bounds, tooltip := split.plain, lifted }

theorem ofSpec_eq (spec : Record Value) (encoding : Encoding) (whiskers : Whiskers)
    (multiplier : Binary64) (countTitle : String) :
    ofSpec spec encoding whiskers multiplier countTitle = (do
      let orient ← ContinuousAxis.orientation spec markName
      let axis ← ContinuousAxis.ofSpec spec orient markName
      along orient axis encoding whiskers multiplier countTitle) := by
  rw [ofSpec]
  congr 1
  funext orient
  congr 1
  funext axis
  rw [along, Report.lift_bind]
  congr 1
  funext column
  by_cases hbounded : whiskers = .boundedIqr
  · rw [if_pos hbounded, boundsFor, if_pos hbounded]
    simp only [Report.lift_bind]
    rfl
  · rw [if_neg hbounded, boundsFor, if_neg hbounded]
    simp only [Report.lift_bind]
    rfl

theorem given_of_along {orient : Orientation} {axis : ContinuousAxis} {encoding : Encoding}
    {whiskers : Whiskers} {multiplier : Binary64} {countTitle : String} {p : Plan}
    (h : along orient axis encoding whiskers multiplier countTitle = .ok p) :
    p.axis = axis ∧ p.tooltip = (Tooltip.split (encoding.erase axis.channel)).plain ∧
      Extraction.ofEncoding (Tooltip.split (encoding.erase axis.channel)).encoding countTitle =
        .ok p.lifted := by
  obtain ⟨column, -, h⟩ := bind_eq_ok_iff.1 h
  obtain ⟨bounds, -, h⟩ := bind_eq_ok_iff.1 h
  obtain ⟨lifted, hlifted, h⟩ := bind_eq_ok_iff.1 h
  obtain rfl := Except.ok.inj h
  exact ⟨rfl, rfl, hlifted⟩

theorem given_of_ofSpec {spec : Record Value} {encoding : Encoding} {whiskers : Whiskers}
    {multiplier : Binary64} {countTitle : String} {p : Plan}
    (h : (ofSpec spec encoding whiskers multiplier countTitle).outcome = .ok p) :
    p.whiskers = whiskers ∧ p.multiplier = multiplier := by
  rw [ofSpec_eq] at h
  obtain ⟨orient, -, h⟩ := Report.outcome_bind_eq_ok_iff.1 h
  obtain ⟨axis, -, h⟩ := Report.outcome_bind_eq_ok_iff.1 h
  obtain ⟨column, -, h⟩ := bind_eq_ok_iff.1 h
  obtain ⟨bounds, -, h⟩ := bind_eq_ok_iff.1 h
  obtain ⟨lifted, -, h⟩ := bind_eq_ok_iff.1 h
  obtain rfl := Except.ok.inj h
  exact ⟨rfl, rfl⟩

/-- What a plan takes from the axis and the rest of an encoding. -/
structure Made (p : Plan) : Prop where
  field : p.axis.definition.has "field" = true
  column : FieldPath.flatten p.axis.field.shown = .ok p.column
  bounds : (if p.whiskers = .boundedIqr then boundSteps p.multiplier p.column else pure []) =
    .ok p.bounds
  lifted : ∃ encoding countTitle, Extraction.ofEncoding encoding countTitle = .ok p.lifted

theorem made_of_ofSpec {spec : Record Value} {encoding : Encoding} {whiskers : Whiskers}
    {multiplier : Binary64} {countTitle : String} {p : Plan}
    (h : (ofSpec spec encoding whiskers multiplier countTitle).outcome = .ok p) : p.Made := by
  rw [ofSpec_eq] at h
  obtain ⟨orient, -, h⟩ := Report.outcome_bind_eq_ok_iff.1 h
  obtain ⟨axis, haxis, h⟩ := Report.outcome_bind_eq_ok_iff.1 h
  obtain ⟨column, hcolumn, h⟩ := bind_eq_ok_iff.1 h
  obtain ⟨bounds, hbounds, h⟩ := bind_eq_ok_iff.1 h
  obtain ⟨lifted, hlifted, h⟩ := bind_eq_ok_iff.1 h
  obtain rfl := Except.ok.inj h
  exact ⟨(ContinuousAxis.given_of_ofSpec haxis).2, hcolumn, hbounds, _, _, hlifted⟩

end Plan

namespace Look

/-- What a look takes from its plan. -/
structure Made (l : Look) : Prop where
  plan : l.plan.Made
  medianEncoding : medianEncodingOf l.plan l.settings = .ok l.medianEncoding
  summary : Tooltip.channel (summaryRows l.plan.whiskers) l.plan.axis.definition
    l.plan.lifted.encoding = .ok l.summary
  whiskerTooltip : (if l.plan.whiskers = .minMax then pure l.summary
    else Tooltip.channel whiskerRows l.plan.axis.definition l.plan.lifted.encoding) =
      .ok l.whiskerTooltip

theorem made_of_ofPlan {plan : Plan} {mark : MarkDef} {settings : Settings} {l : Look}
    (hplan : plan.Made) (h : ofPlan plan mark settings = .ok l) : l.Made := by
  obtain ⟨size, -, h⟩ := bind_eq_ok_iff.1 h
  obtain ⟨medianEncoding, hmedian, h⟩ := bind_eq_ok_iff.1 h
  obtain ⟨summary, hsummary, h⟩ := bind_eq_ok_iff.1 h
  dsimp only at h
  split at h
  · rename_i hminMax
    obtain rfl := Except.ok.inj h
    exact ⟨hplan, hmedian, hsummary, if_pos hminMax⟩
  · rename_i hminMax
    obtain ⟨tooltip, htooltip, h⟩ := bind_eq_ok_iff.1 h
    obtain rfl := Except.ok.inj h
    exact ⟨hplan, hmedian, hsummary, (if_neg hminMax).trans htooltip⟩

theorem given_of_ofPlan {plan : Plan} {mark : MarkDef} {settings : Settings} {l : Look}
    (h : ofPlan plan mark settings = .ok l) :
    l.plan = plan ∧ l.mark = mark ∧ l.settings = settings := by
  obtain ⟨size, -, h⟩ := bind_eq_ok_iff.1 h
  obtain ⟨medianEncoding, -, h⟩ := bind_eq_ok_iff.1 h
  obtain ⟨summary, -, h⟩ := bind_eq_ok_iff.1 h
  dsimp only at h
  split at h
  · obtain rfl := Except.ok.inj h
    exact ⟨rfl, rfl, rfl⟩
  · obtain ⟨tooltip, -, h⟩ := bind_eq_ok_iff.1 h
    obtain rfl := Except.ok.inj h
    exact ⟨rfl, rfl, rfl⟩

/-- The points beyond the whiskers, if these leave any out. -/
def points (l : Look) : List UnitLayer :=
  if l.plan.whiskers = .tukey then (l.plan.limits >>= l.outliers).toOption.getD [] else []

section Points

variable {l : Look} {limits : Plan.Limits} {outliers : List UnitLayer}

theorem exists_of_outliers (h : l.outliers limits = .ok outliers) :
    ∃ base : UnitLayer, base.transforms = [.filter limits.outside] ∧
      outliers = Part.layers l.mark l.partSettings "outliers" base := by
  obtain ⟨position, -, h⟩ := bind_eq_ok_iff.1 h
  exact ⟨_, rfl, (Except.ok.inj h).symm⟩

theorem points_of_outliers (htukey : l.plan.whiskers = .tukey)
    (hlimits : l.plan.limits = .ok limits) (houtliers : l.outliers limits = .ok outliers) :
    l.points = outliers := by
  rw [points, if_pos htukey, hlimits, ok_bind, houtliers]
  rfl

theorem exists_outliers_of_mem_points {layer : UnitLayer} (h : layer ∈ l.points) :
    l.plan.whiskers = .tukey ∧ ∃ limits outliers, l.plan.limits = .ok limits ∧
      l.outliers limits = .ok outliers ∧ layer ∈ outliers := by
  rw [points] at h
  split at h
  · rename_i htukey
    cases hfound : l.plan.limits >>= l.outliers with
    | error fault =>
        rw [hfound] at h
        cases h
    | ok outliers =>
        rw [hfound] at h
        obtain ⟨limits, hlimits, houtliers⟩ := bind_eq_ok_iff.1 hfound
        exact ⟨htukey, limits, outliers, hlimits, houtliers, h⟩
  · cases h

end Points

/-- The steps that lead to the ends of the whiskers. -/
def whiskerSteps (l : Look) : List Transform :=
  if l.plan.whiskers = .tukey then
    l.plan.quartilesOnRows ++ (l.plan.limits.toOption.map l.plan.whiskerSteps).getD []
  else l.plan.statistics

end Look

section Given

variable {spec : Record Value} {encoding : Encoding} {mark : MarkDef} {settings : Settings}
  {whiskers : Option Whiskers} {parse : Shorthand.Reader} {look : Look} {e : Expansion}

/-- The whiskers and their extent are made out first, then the plan, then what the parts share. -/
theorem exists_plan_of_lookAt
    (h : (lookAt spec encoding mark settings whiskers).outcome = .ok look) :
    ∃ w k, whiskersFor whiskers (extentOf mark settings) = .ok w ∧
      multiplierOf (extentOf mark settings) = .ok k ∧
      (Plan.ofSpec spec encoding w k settings.countTitle).outcome = .ok look.plan ∧
      Look.ofPlan look.plan mark settings = .ok look := by
  rw [lookAt] at h
  obtain ⟨w, hwhiskers, h⟩ := Report.outcome_bind_eq_ok_iff.1 h
  obtain ⟨k, hmultiplier, h⟩ := Report.outcome_bind_eq_ok_iff.1 h
  obtain ⟨plan, hplan, h⟩ := Report.outcome_bind_eq_ok_iff.1 h
  rw [Report.outcome_lift] at hmultiplier h
  obtain rfl := (Look.given_of_ofPlan h).1
  refine ⟨w, k, ?_, hmultiplier, hplan, h⟩
  cases whiskers <;> exact hwhiskers

theorem given_of_lookAt (h : (lookAt spec encoding mark settings whiskers).outcome = .ok look) :
    whiskersFor whiskers (extentOf mark settings) = .ok look.plan.whiskers ∧
      multiplierOf (extentOf mark settings) = .ok look.plan.multiplier := by
  obtain ⟨w, k, hwhiskers, hmultiplier, hplan, -⟩ := exists_plan_of_lookAt h
  obtain ⟨rfl, rfl⟩ := Plan.given_of_ofSpec hplan
  exact ⟨hwhiskers, hmultiplier⟩

theorem mark_and_settings_of_lookAt
    (h : (lookAt spec encoding mark settings whiskers).outcome = .ok look) :
    look.mark = mark ∧ look.settings = settings := by
  obtain ⟨w, k, -, -, -, hofPlan⟩ := exists_plan_of_lookAt h
  exact (Look.given_of_ofPlan hofPlan).2

theorem made_of_lookAt (h : (lookAt spec encoding mark settings whiskers).outcome = .ok look) :
    look.Made := by
  obtain ⟨w, k, -, -, hplan, hofPlan⟩ := exists_plan_of_lookAt h
  exact Look.made_of_ofPlan (Plan.made_of_ofSpec hplan) hofPlan

theorem exists_lookAt_of_lookOf (h : (lookOf spec settings whiskers parse).outcome = .ok look) :
    ∃ encoding m, (Encoding.normalize (spec.value "encoding") parse).outcome = .ok encoding ∧
      spec.require "mark" = .ok m ∧
      (lookAt (spec.put "encoding" (.object encoding)) encoding (.ofValue m) settings
        whiskers).outcome = .ok look := by
  rw [lookOf_eq] at h
  obtain ⟨encoding, m, hencoding, -, hmark, hat⟩ := Stages.exists_encoding_of_lookOf h
  exact ⟨encoding, m, hencoding, hmark, hat⟩

theorem made_of_lookOf (h : (lookOf spec settings whiskers parse).outcome = .ok look) :
    look.Made := by
  obtain ⟨encoding, m, -, -, hat⟩ := exists_lookAt_of_lookOf h
  exact made_of_lookAt hat

/-- An expansion draws what was made of its encoding in normal form and of its mark. -/
theorem exists_lookAt_of_expand (h : (expand spec settings whiskers parse).outcome = .ok e) :
    ∃ encoding m look,
      (Encoding.normalize (spec.value "encoding") parse).outcome = .ok encoding ∧
      spec.require "mark" = .ok m ∧
      (lookAt (spec.put "encoding" (.object encoding)) encoding (.ofValue m) settings
        whiskers).outcome = .ok look ∧
      draw (Expansion.kept spec) look = .ok e := by
  obtain ⟨look, hlook, hdraw⟩ := exists_look_of_expand h
  obtain ⟨encoding, m, hencoding, hmark, hat⟩ := exists_lookAt_of_lookOf hlook
  exact ⟨encoding, m, look, hencoding, hmark, hat, hdraw⟩

end Given

variable {outer : Record Value} {look : Look} {e : Expansion}

theorem leaves_of_rowLayer {limits : Plan.Limits} {rows : Layer} {outliers : List UnitLayer}
    (houtliers : look.outliers limits = .ok outliers) (h : rowLayer look limits = .ok rows) :
    rows.leaves = leavesAfter look.plan.quartilesOnRows outliers ++
      leavesAfter (look.plan.quartilesOnRows ++ look.plan.whiskerSteps limits) look.whiskers := by
  rw [rowLayer, houtliers] at h
  cases outliers with
  | nil =>
      obtain rfl := Except.ok.inj h
      rw [Layer.leaves, Layer.leavesOf_map_unit, map_under_leavesAfter, List.append_nil]
      rfl
  | cons first rest =>
      obtain rfl := Except.ok.inj h
      rw [Layer.leaves, Layer.leavesOf_append, Layer.leavesOf_map_unit, Layer.leavesOf,
        Layer.leaves, Layer.leavesOf_map_unit, map_under_leavesAfter, List.map_append,
        map_under_leavesAfter]
      simp only [Layer.leavesOf, List.append_nil, map_under_leavesAfter]

/-- Points are drawn from the single rows, whiskers and boxes from rows that stand for groups. -/
theorem leaves_of_draw (h : draw outer look = .ok e) :
    e.leaves = leavesAfter (e.authored ++ look.plan.quartilesOnRows) look.points ++
      leavesAfter (e.authored ++ look.whiskerSteps) look.whiskers ++
      leavesAfter (e.authored ++ look.plan.statistics) (look.box ++ look.median) := by
  rw [draw] at h
  dsimp only at h
  rw [Look.whiskerSteps]
  generalize look.box ++ look.median = body at h ⊢
  split at h
  · rename_i htukey
    obtain ⟨limits, hlimits, h⟩ := bind_eq_ok_iff.1 h
    obtain ⟨rows, hrows, h⟩ := bind_eq_ok_iff.1 h
    obtain rfl := Except.ok.inj h
    obtain ⟨outliers, houtliers, -⟩ := bind_eq_ok_iff.1 hrows
    rw [if_pos htukey, Look.points_of_outliers htukey hlimits houtliers, hlimits]
    simp only [Expansion.leaves, Drawing.leaves, Layer.leavesOf, leaves_of_rowLayer houtliers hrows,
      Layer.leaves, Layer.leavesOf_map_unit, map_under_leavesAfter, List.append_nil,
      List.map_append]
    rfl
  · rename_i htukey
    obtain ⟨written, hwritten, h⟩ := bind_eq_ok_iff.1 h
    obtain rfl := Except.ok.inj h
    rw [if_neg htukey, Look.points, if_neg htukey]
    simp only [Expansion.leaves, Drawing.leaves, Layer.leavesOf_append, Layer.leavesOf_map_unit,
      List.map_append, map_under_leavesAfter, Expansion.steps, Expansion.authored, hwritten,
      Option.getD_some, List.append_nil]
    rfl

theorem layers_of_draw (h : draw outer look = .ok e) :
    e.leaves.map Leaf.layer = look.points ++ (look.whiskers ++ (look.box ++ look.median)) := by
  simp [leaves_of_draw h, leavesAfter, Function.comp_def]

/-- A boxplot that leaves rows out of its whiskers knows their limits, and draws these rows. -/
theorem exists_limits_of_draw (h : draw outer look = .ok e)
    (htukey : look.plan.whiskers = .tukey) :
    ∃ limits, look.plan.limits = .ok limits ∧ look.outliers limits = .ok look.points := by
  rw [draw, if_pos htukey] at h
  obtain ⟨limits, hlimits, h⟩ := bind_eq_ok_iff.1 h
  obtain ⟨rows, hrows, -⟩ := bind_eq_ok_iff.1 h
  obtain ⟨outliers, houtliers, -⟩ := bind_eq_ok_iff.1 hrows
  exact ⟨limits, hlimits, (Look.points_of_outliers htukey hlimits houtliers).symm ▸ houtliers⟩

end ChartLowering.Boxplot
