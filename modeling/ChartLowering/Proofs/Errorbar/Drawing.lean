import ChartLowering.Composite.Errorbar
import ChartLowering.Proofs.Composite.Stages

/-!
# What an error bar draws

Ticks and rule share a look, which is made before anything is drawn. However many layers there are,
all of them are drawn from the same rows.
-/

namespace ChartLowering.Errorbar

/-- What the parts of an error bar share, and the steps that compute it. -/
structure Look where
  context : Part.Context
  orient : Orientation
  tooltip : Encoding
  steps : List Transform

def tellCenter (center : Value) (extent : ErrorbarExtent) : Report Unit :=
  if !isUsual center extent then
    Report.warn .errorbar (.centerExtent center (.text extent.name) (.text markName))
  else pure ()

def refusePreaggregated (encoding : Encoding) : Report Unit :=
  match preaggregated.find? encoding.has with
  | some channel => throw (.spec (.preaggregated (.text channel)))
  | none => pure ()

/-- The look along an axis that is known already. -/
def lookAlong (axis : ContinuousAxis) (orient : Orientation) (center : Value)
    (extent : ErrorbarExtent) (encoding : Encoding) (mark : MarkDef) (settings : Settings) :
    Except Fault Look := do
  let stats ← statistics axis.field center extent settings.countTitle
  let lifted ← Extraction.ofEncoding (encoding.erase axis.channel) settings.countTitle
  let others := lifted.encoding.erase "size"
  let tooltip ← Tooltip.channel stats.rows axis.definition others stats.withField
  let members := Settings.openBlock settings.errorbar.members
  pure
    { context := { mark, axis, encoding := others, settings := members }
      orient, tooltip
      steps := lifted.prepared ++
        .aggregate (lifted.measures ++ stats.measures) lifted.groupby :: stats.steps }

def lookAt (spec : Record Value) (encoding : Encoding) (mark : MarkDef) (settings : Settings) :
    Report Look := do
  let extent ← extentOf mark settings
  let center := centerOf mark extent
  tellCenter center extent
  let orient ← ContinuousAxis.orientation spec markName
  let axis ← ContinuousAxis.ofSpec spec orient markName
  lookAlong axis orient center extent encoding mark settings

def draw (outer : Record Value) (look : Look) : Except Fault Expansion := do
  let written ← Expansion.written outer
  pure ⟨outer, some (written ++ look.steps),
    drawing (layers look.context look.orient look.tooltip)⟩

def stages (settings : Settings) (parse : Shorthand.Reader) : Stages Look where
  stage := .errorbar
  name := markName
  parse := parse
  refuse := refusePreaggregated
  look spec encoding mark := lookAt spec encoding mark settings
  draw := draw

theorem expand_eq (spec : Record Value) (settings : Settings) (parse : Shorthand.Reader) :
    expand spec settings parse = (stages settings parse).expand spec := by
  rw [expand, Stages.expand, Stages.lookOf, bind_assoc]
  congr 1
  funext encoding
  dsimp only
  rw [Record.require_put_of_ne (by decide), Record.value_put_of_ne (by decide),
    Expansion.kept_put _ _ (by decide)]
  dsimp only [stages]
  rw [refusePreaggregated]
  cases preaggregated.find? encoding.has with
  | some channel => rfl
  | none =>
      simp only [pure_bind, bind_assoc, Stages.tellSelections, tellCenter, lookAt, lookAlong, draw,
        Report.ite_bind, Report.lift_bind, Report.lift_pure]

/-- Statistics along the axis of a look, with what is lifted from the other channels. -/
structure Look.Computed (l : Look) (encoding : Encoding) (countTitle : String) (s : Statistics) :
    Prop where
  statistics : ∃ center extent,
    Errorbar.statistics l.context.axis.field center extent countTitle = .ok s
  others : ∃ lifted,
    Extraction.ofEncoding (encoding.erase l.context.axis.channel) countTitle = .ok lifted ∧
      l.context.encoding = lifted.encoding.erase "size" ∧
      l.steps = lifted.prepared ++
        .aggregate (lifted.measures ++ s.measures) lifted.groupby :: s.steps
  tooltip : ∃ withField, Tooltip.channel s.rows l.context.axis.definition l.context.encoding
    withField = .ok l.tooltip

/-- What a look takes from a specification and its mark definition. -/
structure Look.Made (l : Look) (spec : Record Value) (encoding : Encoding) (mark : MarkDef)
    (settings : Settings) : Prop where
  orient : ContinuousAxis.orientation spec markName = .ok l.orient
  axis : (ContinuousAxis.ofSpec spec l.orient markName).outcome = .ok l.context.axis
  computed : ∃ s, l.Computed encoding settings.countTitle s
  given : l.context.mark = mark ∧
    l.context.settings = Settings.openBlock settings.errorbar.members

theorem made_of_lookAt {spec : Record Value} {encoding : Encoding} {mark : MarkDef}
    {settings : Settings} {look : Look}
    (h : (lookAt spec encoding mark settings).outcome = .ok look) :
    look.Made spec encoding mark settings := by
  rw [lookAt] at h
  obtain ⟨extent, -, h⟩ := Report.outcome_bind_eq_ok_iff.1 h
  obtain ⟨-, -, h⟩ := Report.outcome_bind_eq_ok_iff.1 h
  obtain ⟨orient, horient, h⟩ := Report.outcome_bind_eq_ok_iff.1 h
  obtain ⟨axis, haxis, h⟩ := Report.outcome_bind_eq_ok_iff.1 h
  obtain ⟨s, hs, h⟩ := bind_eq_ok_iff.1 h
  obtain ⟨lifted, hlifted, h⟩ := bind_eq_ok_iff.1 h
  obtain ⟨tooltip, htooltip, h⟩ := bind_eq_ok_iff.1 h
  obtain rfl := Except.ok.inj h
  exact ⟨horient, haxis, ⟨s, ⟨_, extent, hs⟩, ⟨lifted, hlifted, rfl, rfl⟩, _, htooltip⟩, rfl, rfl⟩

theorem leaves_drawing (layers : List UnitLayer) :
    (drawing layers).leaves = leavesAfter [] layers := by
  rcases layers with _ | ⟨layer, _ | ⟨next, rest⟩⟩
  · rfl
  · rfl
  · exact Layer.leavesOf_map_unit (layer :: next :: rest)

theorem leaves_of_draw {outer : Record Value} {look : Look} {e : Expansion}
    (h : draw outer look = .ok e) :
    e.outer = outer ∧ e.leaves = leavesAfter (e.authored ++ look.steps)
      (layers look.context look.orient look.tooltip) := by
  obtain ⟨written, hwritten, h⟩ := bind_eq_ok_iff.1 h
  obtain rfl := Except.ok.inj h
  refine ⟨rfl, ?_⟩
  rw [Expansion.leaves, leaves_drawing, map_under_leavesAfter, Expansion.authored, hwritten,
    List.append_nil]
  rfl

end ChartLowering.Errorbar
