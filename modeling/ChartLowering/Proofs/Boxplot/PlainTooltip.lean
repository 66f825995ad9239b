import ChartLowering.Proofs.Boxplot.Outliers
import ChartLowering.Proofs.Boxplot.Scope
import ChartLowering.Proofs.Composite.Mirror
import ChartLowering.Proofs.Composite.Toggles
import ChartLowering.Proofs.Encoding.Typed

/-!
# Tooltips that need the single rows

A tooltip without an aggregate has no part in what a boxplot computes. A boxplot that has one is the
same as without it, but for its outliers, which show it.
-/

namespace ChartLowering

namespace Record

variable {α : Type}

theorem erase_erase (r : Record α) (key : String) : (r.erase key).erase key = r.erase key :=
  erase_eq_self (by rw [has_eq_isSome, get?_erase_self]; rfl)

theorem erase_comm (r : Record α) (key other : String) :
    (r.erase key).erase other = (r.erase other).erase key :=
  List.filter_comm _ _ _

theorem override_append (r s t : Record α) : r.override (s ++ t) = (r.override s).override t :=
  List.foldl_append

end Record

namespace Encoding

variable {parse : Shorthand.Reader} {members e : Record Value} {raw v w : Value} {channel : String}

/-- No definition in normal form tells about another channel. -/
theorem normalizeMembers_erase (h : (normalizeMembers members parse).outcome = .ok e)
    (channel : String) :
    (normalizeMembers (members.erase channel) parse).outcome = .ok (e.erase channel) := by
  induction members generalizing e with
  | nil =>
      obtain rfl := Except.ok.inj h
      rfl
  | cons m rest ih =>
      obtain ⟨k, given⟩ := m
      obtain ⟨kept, hkept, h⟩ := Report.outcome_bind_eq_ok_iff.1 h
      obtain ⟨others, hothers, h⟩ := Report.outcome_bind_eq_ok_iff.1 h
      obtain rfl := Except.ok.inj h
      rw [Record.erase_cons]
      split
      · rename_i hk
        have herased : Record.erase (kept.elim others fun v ↦ (k, v) :: others) channel =
            others.erase channel := by
          cases kept with
          | none => rfl
          | some v => exact (Record.erase_cons k v others channel).trans (if_pos hk)
        rw [ih hothers, ← herased]
        cases kept <;> rfl
      · rename_i hk
        refine Report.outcome_bind_eq_ok_iff.2 ⟨kept, hkept,
          Report.outcome_bind_eq_ok_iff.2 ⟨others.erase channel, ih hothers, ?_⟩⟩
        cases kept with
        | none => rfl
        | some v => exact congrArg Except.ok (by rw [Record.erase_cons, if_neg hk])

theorem normalize_object (members : Record Value) :
    normalize (.object members) parse = normalizeMembers members parse := by
  cases members <;> rfl

/-- The definition of a channel in normal form comes from one that was given for it. -/
theorem exists_of_mem_normalizeMembers (h : (normalizeMembers members parse).outcome = .ok e)
    (hmem : (channel, w) ∈ e) :
    ∃ v, (normalizeChannel channel v parse).outcome = .ok (some w) := by
  induction members generalizing e with
  | nil =>
      obtain rfl := Except.ok.inj h
      cases hmem
  | cons m rest ih =>
      obtain ⟨kept, hkept, h⟩ := Report.outcome_bind_eq_ok_iff.1 h
      obtain ⟨others, hothers, h⟩ := Report.outcome_bind_eq_ok_iff.1 h
      obtain rfl := Except.ok.inj h
      cases kept with
      | none => exact ih hothers hmem
      | some v =>
          obtain heq | hmem := List.mem_cons.1 hmem
          · obtain ⟨rfl, rfl⟩ := Prod.mk.inj heq
            exact ⟨_, hkept⟩
          · exact ih hothers hmem

theorem truthy_of_normalizeDef (h : (normalizeDef channel v parse).outcome = .ok (some w)) :
    w.truthy = true ∧ w.isList = false := by
  have hsome : ∀ (r : Record Value) (key : String), r.has key = true →
      (Value.object r).truthy = true := by
    intro r key hhas
    cases r with
    | nil => cases hhas
    | cons m rest => rfl
  obtain ⟨_, -, ⟨-, spelled, hspelled, hkept⟩ | ⟨-, spelled, -, ⟨hgiven, hkept⟩ | ⟨-, hkept⟩⟩⟩ :=
    exists_of_normalizeDef h
  · obtain rfl := Option.some.inj hkept
    obtain ⟨⟨type, htype⟩, -⟩ := spelled_of_spellField hspelled
    have hget := Record.get?_of_value htype Value.noConfusion
    exact ⟨hsome spelled "type" (by rw [Record.has_eq_isSome, hget]; rfl), rfl⟩
  · obtain rfl := Option.some.inj hkept
    rw [Bool.or_eq_true, Bool.or_eq_true] at hgiven
    obtain (hvalue | hdatum) | hcondition := hgiven
    · exact ⟨hsome spelled _ hvalue, rfl⟩
    · exact ⟨hsome spelled _ hdatum, rfl⟩
    · exact ⟨hsome spelled _ hcondition, rfl⟩
  · cases hkept

end Encoding

namespace Tooltip

variable {encoding : Encoding} {parse : Shorthand.Reader} {channel : String} {v w : Value}

/-- A tooltip, a list of one as its item. -/
def alone : Value → Value
  | .list items => unwrapped items
  | v => v

theorem alone_of_not_list (h : v.isList = false) : alone v = v := by
  cases v with
  | list items => cases h
  | _ => rfl

/-- Nothing of a definition in normal form is taken for a tooltip that is not given. -/
theorem truthy_alone_of_normalizeChannel
    (h : (Encoding.normalizeChannel channel v parse).outcome = .ok (some w)) :
    (alone w).truthy = true := by
  have hsingle (h : (Encoding.normalizeDef channel v parse).outcome = .ok (some w)) :
      (alone w).truthy = true := by
    obtain ⟨htruthy, hlist⟩ := Encoding.truthy_of_normalizeDef h
    rwa [alone_of_not_list hlist]
  cases v with
  | null => cases h
  | list items =>
      obtain ⟨found, hfound, h⟩ := Report.outcome_bind_eq_ok_iff.1 h
      rw [Report.outcome_mapM] at hfound
      have h := Except.ok.inj h
      split at h
      · cases h
      · rename_i hkept
        obtain rfl := Option.some.inj h
        have hitems : ∀ x ∈ found.filterMap id, x.truthy = true := by
          intro x hx
          obtain ⟨kept, hmem, rfl⟩ := List.mem_filterMap.1 hx
          obtain ⟨item, -, hitem⟩ := (mem_of_mapM_eq_ok hfound).1 hmem
          exact (Encoding.truthy_of_normalizeDef hitem).1
        generalize found.filterMap id = items at hkept hitems
        match items with
        | [] => cases hkept rfl
        | [x] => exact hitems x (List.mem_singleton_self x)
        | _ :: _ :: _ => rfl
  | _ => exact hsingle h

theorem truthy_alone_of_normalize {raw : Value}
    (h : (Encoding.normalize raw parse).outcome = .ok encoding)
    (hget : encoding.get? channel = some v) : (alone v).truthy = true := by
  rw [Encoding.normalize] at h
  split at h
  · obtain ⟨members, -, h⟩ := Report.outcome_bind_eq_ok_iff.1 h
    obtain ⟨given, hgiven⟩ :=
      Encoding.exists_of_mem_normalizeMembers h (Record.mem_of_get? hget)
    exact truthy_alone_of_normalizeChannel hgiven
  · obtain rfl := Except.ok.inj h
    cases hget

/-- The tooltip channel of a part that shows single rows. -/
def shown (encoding : Encoding) : Encoding :=
  (encoding.get? "tooltip").elim [] fun v ↦ [("tooltip", alone v)]

/-- Without aggregates, a tooltip goes to the single rows as a whole. -/
theorem split_of_plain
    (hplain : ∀ v ∈ (encoding.value "tooltip").itemsOrSelf, isAggregated v = false)
    (htruthy : ∀ v, encoding.get? "tooltip" = some v → (alone v).truthy = true) :
    (split encoding).encoding = encoding.erase "tooltip" ∧
      Boxplot.Look.optionalMember "tooltip" (split encoding).plain = shown encoding := by
  rw [split, shown]
  cases hget : encoding.get? "tooltip" with
  | none =>
      rw [Record.value_of_none hget]
      exact ⟨rfl, rfl⟩
  | some v =>
      have htruthy := htruthy v hget
      rw [Record.value_of_get? hget] at hplain ⊢
      rw [Option.elim_some]
      cases v with
      | list items =>
          have haggregated : items.filter isAggregated = [] :=
            List.filter_eq_nil_iff.2 fun v hv ↦ by simpa using hplain v hv
          have hall : items.filter (fun v ↦ !isAggregated v) = items :=
            List.filter_eq_self.2 fun v hv ↦ by simpa using hplain v hv
          dsimp only
          rw [haggregated, hall]
          exact ⟨rfl, if_pos htruthy⟩
      | _ =>
          have hself := hplain _ (List.mem_singleton_self _)
          dsimp only [alone] at htruthy ⊢
          rw [htruthy, hself]
          exact ⟨rfl, if_pos htruthy⟩

theorem split_erase (encoding : Encoding) :
    split (encoding.erase "tooltip") = ⟨.null, encoding.erase "tooltip"⟩ := by
  have hnone : Record.value (encoding.erase "tooltip") "tooltip" = .null :=
    Record.value_of_none (Record.get?_erase_self encoding "tooltip")
  rw [split, hnone, Record.erase_erase]
  rfl

end Tooltip

/-- A specification without one channel of its encoding. -/
def withoutChannel (spec : Record Value) (channel : String) : Record Value :=
  match spec.value "encoding" with
  | .object members => spec.put "encoding" (.object (Record.erase members channel))
  | _ => spec

section Specifications

variable {spec : Record Value} {encoding : Encoding} {parse : Shorthand.Reader}

theorem normalize_withoutChannel
    (h : (Encoding.normalize (spec.value "encoding") parse).outcome = .ok encoding)
    (channel : String) :
    (Encoding.normalize ((withoutChannel spec channel).value "encoding") parse).outcome =
      .ok (encoding.erase channel) := by
  have hother : ∀ v : Value, v.members? = none →
      (Encoding.normalize v parse).outcome = .ok encoding →
      (Encoding.normalize v parse).outcome = .ok (encoding.erase channel) := by
    intro v hnone hv
    obtain rfl : encoding = [] := by
      rw [Encoding.normalize] at hv
      split at hv
      · obtain ⟨members, hmembers, -⟩ := Report.outcome_bind_eq_ok_iff.1 hv
        cases v with
        | object members => cases hnone
        | _ => cases hmembers
      · exact (Except.ok.inj hv).symm
    exact hv
  rw [withoutChannel]
  split
  · rename_i members hobject
    rw [hobject, Encoding.normalize_object] at h
    rw [Record.value_put_self, Encoding.normalize_object]
    exact Encoding.normalizeMembers_erase h channel
  · rename_i hobject
    refine hother _ ?_ h
    cases hv : spec.value "encoding" with
    | object members => exact absurd hv (hobject members)
    | _ => rfl

theorem put_withoutChannel (spec : Record Value) (channel : String) (v : Value) :
    (withoutChannel spec channel).put "encoding" v = spec.put "encoding" v := by
  rw [withoutChannel]
  split
  · exact Record.put_put _ _
  · rfl

theorem require_withoutChannel {key : String} (h : key ≠ "encoding") (channel : String) :
    (withoutChannel spec channel).require key = spec.require key := by
  rw [withoutChannel]
  split
  · exact Record.require_put_of_ne h
  · rfl

theorem kept_withoutChannel (spec : Record Value) (channel : String) :
    Expansion.kept (withoutChannel spec channel) = Expansion.kept spec := by
  rw [withoutChannel]
  split
  · exact Expansion.kept_put spec _ (by decide)
  · rfl

namespace ContinuousAxis

variable {mark channel : String}

/-- The direction of a mark is told by its axes alone. -/
theorem orientation_erase (hx : channel ≠ "x") (hy : channel ≠ "y") :
    orientation (spec.put "encoding" (.object (encoding.erase channel))) mark =
      orientation (spec.put "encoding" (.object encoding)) mark := by
  have hxvalue : Record.value (encoding.erase channel) "x" = encoding.value "x" := by
    rw [Record.value, Record.get?_erase_of_ne _ hx.symm, Record.value]
  have hyvalue : Record.value (encoding.erase channel) "y" = encoding.value "y" := by
    rw [Record.value, Record.get?_erase_of_ne _ hy.symm, Record.value]
  rw [orientation_of_value Record.value_put_self, orientation_of_value Record.value_put_self,
    Record.value_put_of_ne (by decide), Record.value_put_of_ne (by decide), hxvalue, hyvalue]

theorem ofSpec_erase (hx : channel ≠ "x") (hy : channel ≠ "y") (orient : Orientation) :
    ofSpec (spec.put "encoding" (.object (encoding.erase channel))) orient mark =
      ofSpec (spec.put "encoding" (.object encoding)) orient mark := by
  have hchannel : orient.channel ≠ channel := by
    cases orient
    · exact hy.symm
    · exact hx.symm
    · exact hx.symm
  have hvalue : Record.value (encoding.erase channel) orient.channel =
      encoding.value orient.channel := by
    rw [Record.value, Record.get?_erase_of_ne _ hchannel, Record.value]
  rw [ofSpec, ofSpec, encodingOf_of_value Record.value_put_self,
    encodingOf_of_value Record.value_put_self, Report.lift_ok, Report.lift_ok, pure_bind, pure_bind,
    hvalue]

end ContinuousAxis

theorem Stages.outcome_lookOf {Look : Type} {s : Stages Look} {look : Look} {mark : Value}
    (hencoding : (Encoding.normalize (spec.value "encoding") s.parse).outcome = .ok encoding)
    (hrefuse : (s.refuse encoding).outcome = .ok ()) (hmark : spec.require "mark" = .ok mark)
    (h : (s.look (spec.put "encoding" (.object encoding)) encoding (.ofValue mark)).outcome =
      .ok look) : (s.lookOf spec).outcome = .ok look := by
  have htold : (s.tellSelections spec).outcome = .ok () := by
    rw [tellSelections]
    split <;> rfl
  refine Report.outcome_bind_eq_ok_iff.2 ⟨encoding, hencoding, ?_⟩
  refine Report.outcome_bind_eq_ok_iff.2 ⟨(), hrefuse, ?_⟩
  refine Report.outcome_bind_eq_ok_iff.2 ⟨mark, (Report.outcome_lift _).trans hmark, ?_⟩
  exact Report.outcome_bind_eq_ok_iff.2 ⟨(), htold, h⟩

end Specifications

namespace Boxplot

variable {spec outer : Record Value} {encoding : Encoding} {mark : MarkDef} {settings : Settings}
  {whiskers : Option Whiskers} {parse : Shorthand.Reader} {look : Look} {e : Expansion}

def Plan.withTooltip (tooltip : Value) (p : Plan) : Plan := { p with tooltip }

def Look.withTooltip (tooltip : Value) (l : Look) : Look :=
  { l with plan := l.plan.withTooltip tooltip }

/-- No part of a look depends on the tooltips that need the single rows. -/
theorem Look.ofPlan_withTooltip (tooltip : Value) (plan : Plan) (mark : MarkDef)
    (settings : Settings) :
    ofPlan (plan.withTooltip tooltip) mark settings =
      withTooltip tooltip <$> ofPlan plan mark settings := by
  have hmedian : medianEncodingOf (plan.withTooltip tooltip) settings =
      medianEncodingOf plan settings := rfl
  rw [ofPlan, ofPlan, hmedian]
  simp only [map_bind]
  congr 1
  funext size
  congr 1
  funext median
  congr 1
  funext summary
  show (do
    let whiskerTooltip ← if plan.whiskers = Whiskers.minMax then pure summary
      else Tooltip.channel whiskerRows plan.axis.definition plan.lifted.encoding
    pure _) = _
  split <;> simp only [map_bind, pure_bind] <;> rfl

/-- Tooltips that need the single rows are put aside before anything is lifted. -/
theorem Plan.along_erase {orient : Orientation} {axis : ContinuousAxis} {whiskers : Whiskers}
    {multiplier : Binary64} {countTitle : String} (haxis : axis.channel ≠ "tooltip")
    (hplain : ∀ v ∈ (encoding.value "tooltip").itemsOrSelf, Tooltip.isAggregated v = false)
    (htruthy : ∀ v, encoding.get? "tooltip" = some v → (Tooltip.alone v).truthy = true) :
    along orient axis (encoding.erase "tooltip") whiskers multiplier countTitle =
      withTooltip .null <$> along orient axis encoding whiskers multiplier countTitle := by
  have hget : Record.get? (encoding.erase axis.channel) "tooltip" = encoding.get? "tooltip" :=
    Record.get?_erase_of_ne encoding haxis.symm
  have hvalue : Record.value (encoding.erase axis.channel) "tooltip" =
      encoding.value "tooltip" := by
    rw [Record.value, hget, Record.value]
  have hsplit := (Tooltip.split_of_plain (hvalue ▸ hplain) (hget ▸ htruthy)).1
  rw [along, along, Record.erase_comm, Tooltip.split_erase]
  simp only [map_bind, hsplit]
  rfl

/-- A layer that shows a tooltip besides what it shows already. -/
def showing (tooltip : Encoding) (l : UnitLayer) : UnitLayer :=
  { l with encoding := l.encoding ++ tooltip }

theorem showing_nil (l : UnitLayer) : showing [] l = l :=
  congrArg (UnitLayer.mk l.transforms l.mark) (List.append_nil l.encoding)

namespace Look

/-- What the points show besides the tooltips that need the single rows. -/
def untippedEncoding (l : Look) (position : Record Value) : Encoding :=
  Record.override [(l.plan.axis.channel, .object position)] l.keptMembers

theorem tooltip_notMem_untippedEncoding (l : Look) (haxis : l.plan.axis.channel ≠ "tooltip")
    (position : Record Value) : "tooltip" ∉ (l.untippedEncoding position).keys := by
  have hothers : Record.has ((plainEncoding l.plan).erase "tooltip") "tooltip" = false := by
    rw [Record.has_eq_isSome, Record.get?_erase_self]
    rfl
  have hcolor : Record.has (optionalMember "color" (l.plan.lifted.encoding.value "color"))
      "tooltip" = false := by
    rw [optionalMember]
    split <;> rfl
  have hno : (l.untippedEncoding position).has "tooltip" = false := by
    refine Record.has_override ?_ ?_
    · rw [Record.has_cons, beq_eq_false_iff_ne.2 haxis]
      rfl
    · rw [keptMembers, Record.has, List.any_append, ← Record.has, ← Record.has, hothers, hcolor]
      rfl
  intro hmem
  obtain ⟨m, hm, hkey⟩ := List.mem_map.1 hmem
  rw [Record.has, List.any_eq_false] at hno
  exact hno m hm (beq_iff_eq.2 hkey)

theorem pointEncoding_eq_append (l : Look) (haxis : l.plan.axis.channel ≠ "tooltip")
    (position : Record Value) : l.pointEncoding position =
      l.untippedEncoding position ++ optionalMember "tooltip" l.plan.tooltip := by
  rw [pointEncoding, Record.override_append, ← untippedEncoding, optionalMember]
  split
  · exact Record.put_eq_append (l.tooltip_notMem_untippedEncoding haxis position)
  · exact (List.append_nil _).symm

theorem outliers_eq (l : Look) (haxis : l.plan.axis.channel ≠ "tooltip") (limits : Plan.Limits) :
    l.outliers limits = (do
      let position ← valuePosition l.plan.axis.definition
      pure (Part.layers l.mark l.partSettings "outliers"
        (showing (optionalMember "tooltip" l.plan.tooltip)
          ⟨[.filter limits.outside], [("type", .text "point")],
            l.untippedEncoding position⟩))) := by
  simp only [showing, ← l.pointEncoding_eq_append haxis]
  rfl

end Look

/-- Are two expansions alike but for outliers of a style, which show a tooltip in the second? -/
def ShowsOnOutliers (tooltip : Encoding) (style : MarkDef) (e e' : Expansion) : Prop :=
  ∃ steps points whiskers body, points.mark = style ∧ "tooltip" ∉ points.encoding.keys ∧
    e.drawing = .layers (.group steps [.unit points, whiskers] :: body) ∧
    e' = { e with
      drawing := .layers (.group steps [.unit (showing tooltip points), whiskers] :: body) }

/-- Do whiskers leave out rows, which are drawn as outliers? -/
def DrawsOutliers (mark : MarkDef) (settings : Settings) (whiskers : Option Whiskers) : Prop :=
  whiskersFor whiskers (extentOf mark settings) = .ok .tukey ∧
    Part.isDrawn mark (Settings.openBlock settings.boxplot.members) "outliers" = true

def outlierStyle (mark : MarkDef) (settings : Settings) : MarkDef :=
  Part.styled mark (Settings.openBlock settings.boxplot.members) "outliers"
    [("type", .text "point")]

/-- Without outliers nothing shows the tooltips that need the single rows. -/
theorem draw_withTooltip_of_not_drawn (haxis : look.plan.axis.channel ≠ "tooltip")
    (hoff : Part.isDrawn look.mark look.partSettings "outliers" = false) :
    draw outer (look.withTooltip .null) = draw outer look := by
  have houtliers : ∀ limits, (look.withTooltip .null).outliers limits = look.outliers limits := by
    intro limits
    rw [Look.outliers_eq (look.withTooltip .null) haxis, Look.outliers_eq look haxis]
    congr 1
    funext position
    rw [Part.layers_of_not_drawn hoff]
    exact congrArg pure (Part.layers_of_not_drawn hoff _)
  have hrows : rowLayer (look.withTooltip .null) = rowLayer look := by
    funext limits
    rw [rowLayer, rowLayer, houtliers]
    rfl
  rw [draw, draw, hrows]
  rfl

/-- Whiskers that leave out no rows need none. -/
theorem draw_withTooltip_of_ne_tukey (hwhiskers : look.plan.whiskers ≠ .tukey) :
    draw outer (look.withTooltip .null) = draw outer look := by
  rw [draw, draw]
  exact (if_neg hwhiskers).trans (if_neg hwhiskers).symm

theorem showsOnOutliers_of_draw (haxis : look.plan.axis.channel ≠ "tooltip")
    (htukey : look.plan.whiskers = .tukey)
    (hdrawn : Part.isDrawn look.mark look.partSettings "outliers" = true)
    (h : draw outer look = .ok e) :
    ∃ e', draw outer (look.withTooltip .null) = .ok e' ∧
      ShowsOnOutliers (Look.optionalMember "tooltip" look.plan.tooltip)
        (outlierStyle look.mark look.settings) e' e := by
  rw [draw] at h
  dsimp only at h
  rw [if_pos htukey] at h
  obtain ⟨limits, hlimits, h⟩ := bind_eq_ok_iff.1 h
  obtain ⟨rows, hrows, h⟩ := bind_eq_ok_iff.1 h
  obtain rfl := Except.ok.inj h
  rw [rowLayer, Look.outliers_eq _ haxis] at hrows
  obtain ⟨outliers, houtliers, hrows⟩ := bind_eq_ok_iff.1 hrows
  obtain ⟨position, hposition, houtliers⟩ := bind_eq_ok_iff.1 houtliers
  obtain rfl := Except.ok.inj houtliers
  rw [Part.layers_of_drawn hdrawn] at hrows
  obtain rfl := Except.ok.inj hrows
  let points : UnitLayer := ⟨[.filter limits.outside], outlierStyle look.mark look.settings,
    look.untippedEncoding position⟩
  have hwithout : (look.withTooltip .null).outliers limits = .ok [points] := by
    rw [Look.outliers_eq (look.withTooltip .null) haxis]
    refine bind_eq_ok_iff.2 ⟨position, hposition, congrArg Except.ok ?_⟩
    exact (congrArg (Part.layers _ _ _) (showing_nil _)).trans (Part.layers_of_drawn hdrawn)
  have hrows' : rowLayer (look.withTooltip .null) limits = .ok (.group look.plan.quartilesOnRows
      [.unit points, .group (look.plan.whiskerSteps limits) (look.whiskers.map Layer.unit)]) :=
    bind_eq_ok_iff.2 ⟨_, hwithout, rfl⟩
  refine ⟨_, (if_pos htukey).trans
    (bind_eq_ok_iff.2 ⟨limits, hlimits, bind_eq_ok_iff.2 ⟨_, hrows', rfl⟩⟩), ?_⟩
  exact ⟨_, points, _, _, rfl, look.tooltip_notMem_untippedEncoding haxis _, rfl, rfl⟩

theorem lookAt_erase
    (hplain : ∀ v ∈ (encoding.value "tooltip").itemsOrSelf, Tooltip.isAggregated v = false)
    (htruthy : ∀ v, encoding.get? "tooltip" = some v → (Tooltip.alone v).truthy = true)
    (h : (lookAt (spec.put "encoding" (.object encoding)) encoding mark settings
      whiskers).outcome = .ok look) :
    look.plan.axis.channel ≠ "tooltip" ∧
      Look.optionalMember "tooltip" look.plan.tooltip = Tooltip.shown encoding ∧
      (lookAt (spec.put "encoding" (.object (encoding.erase "tooltip")))
        (encoding.erase "tooltip") mark settings whiskers).outcome =
          .ok (look.withTooltip .null) := by
  rw [lookAt] at h ⊢
  obtain ⟨w, hw, h⟩ := Report.outcome_bind_eq_ok_iff.1 h
  obtain ⟨k, hk, h⟩ := Report.outcome_bind_eq_ok_iff.1 h
  obtain ⟨plan, hplan, h⟩ := Report.outcome_bind_eq_ok_iff.1 h
  rw [Report.outcome_lift] at h
  obtain rfl := (Look.given_of_ofPlan h).1
  rw [Plan.ofSpec_eq] at hplan
  obtain ⟨orient, horient, hplan⟩ := Report.outcome_bind_eq_ok_iff.1 hplan
  obtain ⟨axis, haxis, hplan⟩ := Report.outcome_bind_eq_ok_iff.1 hplan
  rw [Report.outcome_lift] at hplan
  have hother : axis.channel ≠ "tooltip" := by
    intro heq
    have hxy := ContinuousAxis.isXOrY_of_ofSpec haxis
    rw [heq] at hxy
    cases hxy
  obtain ⟨hsame, htooltip, -⟩ := Plan.given_of_along hplan
  have hget : Record.get? (encoding.erase axis.channel) "tooltip" = encoding.get? "tooltip" :=
    Record.get?_erase_of_ne encoding hother.symm
  refine ⟨hsame ▸ hother, ?_, Report.outcome_bind_eq_ok_iff.2 ⟨w, hw,
    Report.outcome_bind_eq_ok_iff.2 ⟨k, hk, Report.outcome_bind_eq_ok_iff.2
      ⟨look.plan.withTooltip .null, ?_, ?_⟩⟩⟩⟩
  · have hvalue : Record.value (encoding.erase axis.channel) "tooltip" =
        encoding.value "tooltip" := by
      rw [Record.value, hget, Record.value]
    have hsplit := (Tooltip.split_of_plain (hvalue ▸ hplain) (hget ▸ htruthy)).2
    rw [htooltip, hsplit, Tooltip.shown, hget, Tooltip.shown]
  · rw [Plan.ofSpec_eq, ContinuousAxis.orientation_erase (by decide) (by decide)]
    refine Report.outcome_bind_eq_ok_iff.2 ⟨orient, horient, ?_⟩
    rw [ContinuousAxis.ofSpec_erase (by decide) (by decide)]
    refine Report.outcome_bind_eq_ok_iff.2 ⟨axis, haxis, ?_⟩
    rw [Report.outcome_lift, Plan.along_erase hother hplain htruthy, hplan]
    rfl
  · rw [Report.outcome_lift, Look.ofPlan_withTooltip, h]
    rfl

/-- A tooltip without aggregates changes nothing of a boxplot but its outliers. Where these are
drawn, they show it besides what they show without it, a list of one as its item. -/
theorem expand_withoutTooltip {m : Value}
    (h : (expand spec settings whiskers parse).outcome = .ok e)
    (hencoding : (Encoding.normalize (spec.value "encoding") parse).outcome = .ok encoding)
    (hplain : ∀ v ∈ (encoding.value "tooltip").itemsOrSelf, Tooltip.isAggregated v = false)
    (hmark : spec.require "mark" = .ok m) :
    ∃ e', (expand (withoutChannel spec "tooltip") settings whiskers parse).outcome = .ok e' ∧
      (DrawsOutliers (.ofValue m) settings whiskers → ShowsOnOutliers (Tooltip.shown encoding)
        (outlierStyle (.ofValue m) settings) e' e) ∧
      (¬DrawsOutliers (.ofValue m) settings whiskers → e = e') := by
  obtain ⟨encoding', m', look, hencoding', hm', hat, hdraw⟩ := exists_lookAt_of_expand h
  obtain rfl := Except.ok.inj (hencoding.symm.trans hencoding')
  obtain rfl := Except.ok.inj (hmark.symm.trans hm')
  have htruthy : ∀ v, encoding.get? "tooltip" = some v → (Tooltip.alone v).truthy = true :=
    fun v hget ↦ Tooltip.truthy_alone_of_normalize hencoding hget
  obtain ⟨haxis, hshown, hat'⟩ := lookAt_erase hplain htruthy hat
  obtain ⟨hlmark, hlsettings⟩ := mark_and_settings_of_lookAt hat
  have hdrawn : Part.isDrawn look.mark look.partSettings "outliers" =
      Part.isDrawn (.ofValue m) (Settings.openBlock settings.boxplot.members) "outliers" := by
    rw [Look.partSettings, hlmark, hlsettings]
  obtain ⟨hwhiskers, -⟩ := given_of_lookAt hat
  have hexpand : ∀ e', draw (Expansion.kept spec) (look.withTooltip .null) = .ok e' →
      (expand (withoutChannel spec "tooltip") settings whiskers parse).outcome = .ok e' := by
    intro e' he'
    rw [expand_eq]
    refine Report.outcome_bind_eq_ok_iff.2 ⟨look.withTooltip .null, ?_, ?_⟩
    · refine Stages.outcome_lookOf (normalize_withoutChannel hencoding "tooltip") rfl
        ((require_withoutChannel (by decide) "tooltip").trans hmark) ?_
      rw [put_withoutChannel]
      exact hat'
    · rw [kept_withoutChannel]
      exact he'
  by_cases hdraws : DrawsOutliers (.ofValue m) settings whiskers
  · have htukey : look.plan.whiskers = .tukey :=
      Except.ok.inj (hwhiskers.symm.trans hdraws.1)
    obtain ⟨e', he', hshows⟩ := showsOnOutliers_of_draw haxis htukey (hdrawn.trans hdraws.2) hdraw
    rw [hshown, hlmark, hlsettings] at hshows
    exact ⟨e', hexpand e' he', fun _ ↦ hshows, fun hnot ↦ absurd hdraws hnot⟩
  · refine ⟨e, hexpand e ?_, fun hyes ↦ absurd hyes hdraws, fun _ ↦ rfl⟩
    by_cases htukey : look.plan.whiskers = .tukey
    · rw [draw_withTooltip_of_not_drawn haxis]
      · exact hdraw
      · exact Bool.eq_false_iff.2 fun hon ↦
          hdraws ⟨hwhiskers.trans (congrArg Except.ok htukey), hdrawn.symm.trans hon⟩
    · rw [draw_withTooltip_of_ne_tukey htukey, hdraw]

/-- A boxplot with a name for each of its rows. -/
def namedRows : Record Value :=
  [("mark", .text "boxplot"),
   ("encoding", .object
      [("x", .text "g:N"), ("y", .text "v:Q"), ("tooltip", .list [.text "name:N"])])]

theorem expand_withoutTooltip_namedRows : ∃ e e', (expand namedRows).outcome = .ok e ∧
    (expand (withoutChannel namedRows "tooltip")).outcome = .ok e' ∧
    ShowsOnOutliers
      [("tooltip", .object [("field", .text "name"), ("type", .text "nominal")])]
      (outlierStyle [("type", .text "boxplot")] {}) e' e := by
  have hrun : (do
      let _ ← (expand namedRows).outcome
      pure ()) = (.ok () : Except Fault Unit) := by decide +kernel
  obtain ⟨e, he, -⟩ := bind_eq_ok_iff.1 hrun
  have hencoding : (Encoding.normalize (namedRows.value "encoding")).outcome = .ok
      [("x", .object [("field", .text "g"), ("type", .text "nominal")]),
       ("y", .object [("field", .text "v"), ("type", .text "quantitative")]),
       ("tooltip", .list [.object [("field", .text "name"), ("type", .text "nominal")]])] := by
    decide +kernel
  obtain ⟨e', he', hshows, -⟩ := expand_withoutTooltip he hencoding (by decide) rfl
  exact ⟨e, e', he, he', hshows ⟨rfl, by decide +kernel⟩⟩

end Boxplot

end ChartLowering
