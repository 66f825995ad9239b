import ChartLowering.Proofs.Composite.Mirror
import ChartLowering.Proofs.Errorbar.Drawing

/-!
# Mirrored error bars

An error bar along x has the same statistics as its mirror image along y, and its rule and ticks are
the mirror images of the other's.
-/

namespace ChartLowering.Errorbar

/-- Whether an extent is given already does not depend on the axis it is given for. -/
theorem result_refusePreaggregated_mirrored (encoding : Encoding) :
    (refusePreaggregated encoding.mirrored).result = (refusePreaggregated encoding).result := by
  -- Another of the channels may be the first, but one is found on both sides or on none.
  have hsome : (preaggregated.find? (Record.has encoding.mirrored)).isSome =
      (preaggregated.find? encoding.has).isSome := by
    have hclosed : ∀ channel ∈ preaggregated, Channel.mirror channel ∈ preaggregated := by decide
    rw [Bool.eq_iff_iff, List.find?_isSome, List.find?_isSome]
    constructor
    · rintro ⟨channel, hchannel, hhas⟩
      refine ⟨Channel.mirror channel, hclosed channel hchannel, ?_⟩
      rwa [← Encoding.has_mirrored, Channel.mirror_mirror]
    · rintro ⟨channel, hchannel, hhas⟩
      refine ⟨Channel.mirror channel, hclosed channel hchannel, ?_⟩
      rwa [Encoding.has_mirrored]
  rw [refusePreaggregated, refusePreaggregated]
  cases hfound : preaggregated.find? encoding.has with
  | none =>
      rw [hfound, Option.isSome_none, Option.isSome_eq_false_iff,
        Option.isNone_iff_eq_none] at hsome
      rw [hsome]
  | some channel =>
      rw [hfound, Option.isSome_some] at hsome
      obtain ⟨other, hother⟩ := Option.isSome_iff_exists.1 hsome
      rw [hother]
      rfl

namespace Look

def mirrored (l : Look) : Look :=
  { l with context := l.context.mirrored, orient := l.orient.turned }

/-- Does the look lie along one of the two axes, with a tooltip that is on neither? -/
structure Axial (l : Look) : Prop where
  known : l.orient.IsKnown
  axis : Channel.isXOrY l.context.axis.channel = true
  tooltip : l.tooltip.mirrored = l.tooltip

/-- Does no style of a part have a direction of its own? -/
def Undirected (l : Look) : Prop :=
  ∀ part ∈ parts, Part.Undirected l.context.mark l.context.settings part

variable {l : Look}

theorem tick_mirrored (mark : MarkDef) {orient : Orientation} (horient : orient.IsKnown) :
    tick mark.turned orient.turned = MarkDef.turned (tick mark orient) := by
  rw [tick, tick, Orientation.toValue_across_turned horient, MarkDef.value_turned_of_ne (by decide),
    MarkDef.value_turned_of_ne (by decide)]
  rfl

theorem make_mirrored (hl : l.Axial) (hstyles : l.Undirected) {part : String}
    (hpart : part ∈ parts) (base : MarkDef) (start : String) (stop : Option String) :
    l.mirrored.context.make part base.turned start stop l.tooltip =
      (l.context.make part base start stop l.tooltip).map UnitLayer.mirrored := by
  have hne : part ≠ "orient" := by
    rintro rfl
    exact absurd hpart (by decide)
  have hmake := @Part.Context.make_mirrored part l.context hne (hstyles part hpart) hl.axis
    base start stop l.tooltip
  rw [hl.tooltip] at hmake
  exact hmake

theorem layers_mirrored (hl : l.Axial) (hstyles : l.Undirected) :
    layers l.mirrored.context l.mirrored.orient l.mirrored.tooltip =
      (layers l.context l.orient l.tooltip).map UnitLayer.mirrored := by
  have hthickness : l.mirrored.context.mark.value "thickness" = l.context.mark.value "thickness" :=
    MarkDef.value_turned_of_ne (by decide)
  have hrule : Errorbar.rule (l.context.mark.value "thickness") =
      MarkDef.turned (Errorbar.rule (l.context.mark.value "thickness")) := rfl
  have htick : tick l.mirrored.context.mark l.mirrored.orient =
      MarkDef.turned (tick l.context.mark l.orient) := tick_mirrored _ hl.known
  have htooltip : l.mirrored.tooltip = l.tooltip := rfl
  rw [layers, layers, hthickness, htick, htooltip, List.map_append, List.map_append,
    make_mirrored hl hstyles (by decide), make_mirrored hl hstyles (by decide), hrule,
    make_mirrored hl hstyles (by decide)]
  rfl

end Look

theorem drawing_mirrored (layers : List UnitLayer) :
    drawing (layers.map UnitLayer.mirrored) = (drawing layers).mirrored := by
  rcases layers with _ | ⟨layer, _ | ⟨next, rest⟩⟩
  · rfl
  · rfl
  · exact congrArg Drawing.layers (Layer.allMirrored_map_unit (layer :: next :: rest)).symm

theorem draw_mirrored {l : Look} (hl : l.Axial) (hstyles : l.Undirected) (outer : Record Value) :
    draw outer l.mirrored = Expansion.mirrored <$> draw outer l := by
  rw [draw, draw, Look.layers_mirrored hl hstyles, drawing_mirrored, map_bind]
  rfl

section Expand

variable {spec : Record Value} {encoding : Encoding} {settings : Settings}
  {parse : Shorthand.Reader}

theorem lookAlong_mirrored (axis : ContinuousAxis) (orient : Orientation) (center : Value)
    (extent : ErrorbarExtent) (mark : MarkDef) :
    lookAlong axis.mirrored orient.turned center extent encoding.mirrored mark.turned settings =
      Look.mirrored <$> lookAlong axis orient center extent encoding mark settings := by
  have hrest : Record.erase encoding.mirrored axis.mirrored.channel =
      Encoding.mirrored (encoding.erase axis.channel) :=
    Encoding.erase_mirrored encoding axis.channel
  have htooltip : ∀ (stats : Statistics) (lifted : Extraction),
      Tooltip.channel stats.rows axis.mirrored.definition
        (Record.erase lifted.mirrored.encoding "size") stats.withField =
      Tooltip.channel stats.rows axis.definition (lifted.encoding.erase "size")
        stats.withField := by
    intro stats lifted
    have hsize : Record.erase lifted.mirrored.encoding "size" =
        Encoding.mirrored (lifted.encoding.erase "size") :=
      Encoding.erase_mirrored lifted.encoding "size"
    rw [hsize]
    exact Tooltip.channel_mirrored stats.rows axis.definition _ stats.withField
  rw [lookAlong, lookAlong, map_bind]
  congr 1
  funext stats
  rw [hrest, Extraction.ofEncoding_mirrored, bind_map_left, map_bind]
  congr 1
  funext lifted
  dsimp only
  rw [htooltip, map_bind]
  congr 1
  funext tooltip
  have hsize : Record.erase lifted.mirrored.encoding "size" =
      Encoding.mirrored (lifted.encoding.erase "size") :=
    Encoding.erase_mirrored lifted.encoding "size"
  rw [hsize]
  rfl

theorem lookAt_mirrored (hdirected : ContinuousAxis.Directed spec encoding)
    (h : spec.value "encoding" = .object encoding) (mark : MarkDef) :
    lookAt (mirroredSpec spec) encoding.mirrored mark.turned settings =
      Look.mirrored <$> lookAt spec encoding mark settings := by
  have hextent : extentOf mark.turned settings = extentOf mark settings := by
    rw [extentOf, extentOf, MarkDef.value_turned_of_ne (by decide)]
  have hcenter : ∀ extent, centerOf mark.turned extent = centerOf mark extent := by
    intro extent
    rw [centerOf, centerOf, MarkDef.value_turned_of_ne (by decide)]
  rw [lookAt, lookAt, hextent, ContinuousAxis.orientation_mirroredSpec hdirected h, map_bind]
  congr 1
  funext extent
  dsimp only
  rw [hcenter, map_bind]
  congr 1
  funext _
  cases ho : ContinuousAxis.orientation spec markName with
  | error fault => rfl
  | ok orient =>
      have hknown := ContinuousAxis.isKnown_of_orientation hdirected h ho
      have haxis := @ContinuousAxis.ofSpec_mirroredSpec spec encoding markName orient hknown h
      rw [← Report.map_lift, bind_map_left, Report.lift_ok, pure_bind, pure_bind, haxis,
        bind_map_left, map_bind]
      congr 1
      funext axis
      rw [lookAlong_mirrored, Report.map_lift]

theorem Look.Made.axial {look : Look} {mark : MarkDef}
    (hdirected : ContinuousAxis.Directed spec encoding)
    (h : spec.value "encoding" = .object encoding)
    (hmade : look.Made spec encoding mark settings) :
    look.Axial := by
  obtain ⟨_, hcomputed⟩ := hmade.computed
  obtain ⟨_, htooltip⟩ := hcomputed.tooltip
  exact ⟨ContinuousAxis.isKnown_of_orientation hdirected h hmade.orient,
    ContinuousAxis.isXOrY_of_ofSpec hmade.axis, Tooltip.mirrored_of_channel htooltip⟩

theorem result_expand_mirroredSpec
    (hdirected : ∀ encoding,
      (Encoding.normalize (spec.value "encoding") parse).outcome = .ok encoding →
        ContinuousAxis.Directed spec encoding)
    (hstyles : ∀ mark, spec.require "mark" = .ok mark → ∀ part ∈ parts,
      Part.Undirected (.ofValue mark) (Settings.openBlock settings.errorbar.members) part) :
    (expand (mirroredSpec spec) settings parse).result =
      (expand spec settings parse).result.map Expansion.mirrored := by
  have hput : ∀ encoding,
      (Encoding.normalize (spec.value "encoding") parse).outcome = .ok encoding →
        ContinuousAxis.Directed (spec.put "encoding" (.object encoding)) encoding :=
    fun encoding h ↦ ContinuousAxis.directed_put_encoding (hdirected encoding h) _
  have hlook : ∀ encoding,
      (Encoding.normalize (spec.value "encoding") parse).outcome = .ok encoding →
      ∀ mark : MarkDef,
        (stages settings parse).look (mirroredSpec (spec.put "encoding" (.object encoding)))
          encoding.mirrored mark.turned =
        Look.mirrored <$> (stages settings parse).look (spec.put "encoding" (.object encoding))
          encoding mark :=
    fun encoding h mark ↦ lookAt_mirrored (hput encoding h) Record.value_put_self mark
  rw [expand_eq, expand_eq]
  apply Stages.result_expand_mirroredSpec result_refusePreaggregated_mirrored hlook
  intro look hok
  obtain ⟨encoding, mark, hencoding, -, hmark, hat⟩ := Stages.exists_encoding_of_lookOf hok
  have hmade := made_of_lookAt hat
  have hundirected : look.Undirected := by
    intro part hpart
    rw [hmade.given.1, hmade.given.2]
    exact hstyles mark hmark part hpart
  exact draw_mirrored (hmade.axial (hput encoding hencoding) Record.value_put_self) hundirected
    (Expansion.kept spec)

end Expand

end ChartLowering.Errorbar
