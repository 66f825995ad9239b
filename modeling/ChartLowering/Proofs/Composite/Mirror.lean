import ChartLowering.Composite.Part
import ChartLowering.Composite.Tooltip
import ChartLowering.Proofs.Composite.Stages
import ChartLowering.Proofs.Encoding.Mirror

/-!
# Mirrored composite marks

The mirror image of a specification has its axes exchanged and its mark turned. The direction of a
composite mark turns with it, and so do its parts, unless a style of theirs has a direction of its
own.
-/

namespace ChartLowering

/-- A direction turned by a right angle. Anything else stays. -/
def Value.turned : Value → Value
  | .text "vertical" => .text "horizontal"
  | .text "horizontal" => .text "vertical"
  | v => v

theorem Value.turned_cases (v : Value) :
    (v = .text "vertical" ∨ v = .text "horizontal") ∨ v.turned = v := by
  unfold Value.turned
  split
  · exact .inl (.inl rfl)
  · exact .inl (.inr rfl)
  · exact .inr rfl

theorem Value.truthy_turned (v : Value) : v.turned.truthy = v.truthy := by
  obtain (rfl | rfl) | h := turned_cases v
  · rfl
  · rfl
  · rw [h]

theorem Value.isNull_turned (v : Value) : v.turned.isNull = v.isNull := by
  obtain (rfl | rfl) | h := turned_cases v
  · rfl
  · rfl
  · rw [h]

namespace MarkDef

/-- The definition with its direction turned, if it has one. -/
def turned (mark : MarkDef) : MarkDef :=
  Record.convert id (fun key v ↦ if key = "orient" then v.turned else v) mark

variable {mark : MarkDef} {key : String}

theorem get?_turned (mark : MarkDef) (key : String) :
    mark.turned.get? key =
      (mark.get? key).map fun v ↦ if key = "orient" then v.turned else v :=
  Record.get?_convert Function.injective_id mark key

theorem get?_turned_of_ne (h : key ≠ "orient") : mark.turned.get? key = mark.get? key := by
  rw [get?_turned]
  simp only [if_neg h, Option.map_id']

theorem value_turned_of_ne (h : key ≠ "orient") : mark.turned.value key = mark.value key := by
  rw [Record.value, Record.value, get?_turned_of_ne h]

theorem turned_of_not_has (h : mark.has "orient" = false) : mark.turned = mark := by
  apply Record.convert_eq_self
  intro m hm
  have hne : m.1 ≠ "orient" := by
    intro hkey
    have hhas : mark.has "orient" = true := List.any_eq_true.2 ⟨m, hm, by simp [hkey]⟩
    rw [h] at hhas
    cases hhas
  exact ⟨rfl, if_neg hne⟩

theorem turned_append (mark more : MarkDef) : turned (mark ++ more) = mark.turned ++ more.turned :=
  Record.convert_append mark more

theorem put_turned (h : key ≠ "orient") (v : Value) :
    mark.turned.put key v = turned (mark.put key v) := by
  have hput := Record.put_convert (g := fun key v ↦ if key = "orient" then v.turned else v)
    Function.injective_id mark key v
  rwa [if_neg h] at hput

theorem override_turned (mark more : MarkDef) :
    mark.turned.override more.turned = turned (mark.override more) :=
  Record.override_convert Function.injective_id mark more

theorem filter_turned (mark : MarkDef) :
    mark.turned.filter (fun m ↦ !m.2.isNull) = turned (mark.filter fun m ↦ !m.2.isNull) := by
  rw [turned, turned, Record.convert, Record.convert, List.filter_map]
  congr 1
  apply List.filter_congr
  intro m _
  by_cases hkey : m.1 = "orient"
  · simp [hkey, Value.isNull_turned]
  · simp [hkey]

theorem property_turned (mark : MarkDef) (settings : Settings) {name : String}
    (h : name ≠ "orient") : mark.turned.property settings name = mark.property settings name := by
  have hgiven : mark.turned.given? name none = mark.given? name none := get?_turned_of_ne h
  have hblock : mark.turned.block settings = mark.block settings := by
    rw [block, block, Record.require, Record.require, get?_turned_of_ne (by decide)]
  rw [property, property, hgiven, configured, configured, hblock]

end MarkDef

/-- A mark as a specification has it, turned if it is given by a definition. -/
def Mark.turned : Value → Value
  | .object members => .object (MarkDef.turned members)
  | v => v

theorem MarkDef.ofValue_turned (v : Value) : ofValue (Mark.turned v) = (ofValue v).turned := by
  cases v <;> rfl

theorem Mark.member?_turned_orient (v : Value) :
    (turned v).member? "orient" = (v.member? "orient").map Value.turned := by
  cases v with
  | object members => exact MarkDef.get?_turned members "orient"
  | _ => rfl

namespace Orientation

def turned : Orientation → Orientation
  | vertical => horizontal
  | horizontal => vertical
  | other v => other v

/-- Is this one of the two directions that there are? -/
def IsKnown (o : Orientation) : Prop := o = vertical ∨ o = horizontal

variable {o : Orientation}

theorem channel_turned (h : o.IsKnown) : o.turned.channel = Channel.mirror o.channel := by
  rcases h with rfl | rfl <;> rfl

theorem isXOrY_channel (o : Orientation) : Channel.isXOrY o.channel = true := by
  cases o <;> rfl

theorem toValue_turned (h : o.IsKnown) : o.turned.toValue = o.toValue.turned := by
  rcases h with rfl | rfl <;> rfl

theorem toValue_across_turned (h : o.IsKnown) :
    o.turned.across.toValue = o.across.toValue.turned := by
  rcases h with rfl | rfl <;> rfl

end Orientation

/-- The specification with its axes exchanged and its mark turned. -/
def mirroredSpec (spec : Record Value) : Record Value :=
  Record.convert id (fun key v ↦
    if key = "encoding" then Encoding.mirroredValue v
    else if key = "mark" then Mark.turned v else v) spec

section Specifications

variable {spec : Record Value}

theorem get?_mirroredSpec (spec : Record Value) (key : String) :
    (mirroredSpec spec).get? key = (spec.get? key).map fun v ↦
      if key = "encoding" then Encoding.mirroredValue v
      else if key = "mark" then Mark.turned v else v :=
  Record.get?_convert Function.injective_id spec key

theorem value_encoding_mirroredSpec :
    (mirroredSpec spec).value "encoding" = Encoding.mirroredValue (spec.value "encoding") := by
  rw [Record.value, Record.value, get?_mirroredSpec]
  cases spec.get? "encoding" <;> rfl

theorem value_mark_mirroredSpec :
    (mirroredSpec spec).value "mark" = Mark.turned (spec.value "mark") := by
  rw [Record.value, Record.value, get?_mirroredSpec]
  cases spec.get? "mark" <;> rfl

theorem value_params_mirroredSpec :
    (mirroredSpec spec).value "params" = spec.value "params" := by
  rw [Record.value, Record.value, get?_mirroredSpec]
  cases spec.get? "params" <;> rfl

theorem require_mark_mirroredSpec :
    (mirroredSpec spec).require "mark" = Mark.turned <$> spec.require "mark" := by
  rw [Record.require, Record.require, get?_mirroredSpec]
  cases spec.get? "mark" <;> rfl

theorem put_encoding_mirroredSpec (spec : Record Value) (encoding : Encoding) :
    (mirroredSpec spec).put "encoding" (.object encoding.mirrored) =
      mirroredSpec (spec.put "encoding" (.object encoding)) :=
  Record.put_convert Function.injective_id spec "encoding" (.object encoding)

theorem kept_mirroredSpec (spec : Record Value) :
    Expansion.kept (mirroredSpec spec) = Expansion.kept spec := by
  have hwithout := Record.without_convert (g := fun key v ↦
    if key = "encoding" then Encoding.mirroredValue v
    else if key = "mark" then Mark.turned v else v) Function.injective_id spec
    ["mark", "encoding", "params", "projection"]
  rw [List.map_id] at hwithout
  apply hwithout.trans
  apply Record.convert_eq_self
  intro m hm
  have hkept := (List.mem_filter.1 hm).2
  simp only [List.contains_cons, List.contains_nil, Bool.or_false, Bool.not_eq_true',
    Bool.or_eq_false_iff, beq_eq_false_iff_ne] at hkept
  exact ⟨rfl, by rw [if_neg hkept.2.1, if_neg hkept.1]⟩

end Specifications

namespace ContinuousAxis

/-- Is the direction of the mark known: because it is given, or because exactly one of the axes is
continuous? -/
def Directed (spec : Record Value) (encoding : Encoding) : Prop :=
  let orient := Value.ofOption ((spec.value "mark").member? "orient")
  (orient = .text "vertical" ∨ orient = .text "horizontal") ∨
    orient.truthy = false ∧
      isContinuous (encoding.value "x") ≠ isContinuous (encoding.value "y")

def mirrored (a : ContinuousAxis) : ContinuousAxis := { a with channel := Channel.mirror a.channel }

variable {spec : Record Value} {encoding : Encoding} {mark : String} {orient : Orientation}

theorem encodingOf_of_value (h : spec.value "encoding" = .object encoding) :
    encodingOf spec = .ok encoding := by
  rw [encodingOf, h]
  cases encoding <;> rfl

theorem directed_put_encoding (h : Directed spec encoding) (v : Value) :
    Directed (spec.put "encoding" v) encoding := by
  rwa [Directed, Record.value_put_of_ne (by decide)]

theorem orientation_of_value (h : spec.value "encoding" = .object encoding) :
    orientation spec mark =
      let explicit := Value.ofOption ((spec.value "mark").member? "orient")
      if explicit.truthy then .ok (.ofValue explicit)
      else
        match isContinuous (encoding.value "x"), isContinuous (encoding.value "y") with
        | true, true => between mark (encoding.value "x") (encoding.value "y")
        | true, false => .ok .horizontal
        | false, true => .ok .vertical
        | false, false => .error (.spec (.noContinuousAxis (.text mark))) := by
  rw [orientation, encodingOf_of_value h]
  rfl

theorem isKnown_of_orientation (hdirected : Directed spec encoding)
    (h : spec.value "encoding" = .object encoding) (ho : orientation spec mark = .ok orient) :
    orient.IsKnown := by
  rw [orientation_of_value h] at ho
  dsimp only at ho
  obtain (hv | hh) | ⟨hnone, hone⟩ := hdirected
  · rw [hv] at ho
    exact .inl (Except.ok.inj ho).symm
  · rw [hh] at ho
    exact .inr (Except.ok.inj ho).symm
  · rw [hnone] at ho
    cases hx : isContinuous (encoding.value "x") <;>
      cases hy : isContinuous (encoding.value "y") <;> rw [hx, hy] at ho
    · cases ho
    · exact .inl (Except.ok.inj ho).symm
    · exact .inr (Except.ok.inj ho).symm
    · exact absurd (hx.trans hy.symm) hone

theorem orientation_mirroredSpec (hdirected : Directed spec encoding)
    (h : spec.value "encoding" = .object encoding) :
    orientation (mirroredSpec spec) mark = Orientation.turned <$> orientation spec mark := by
  have h' : (mirroredSpec spec).value "encoding" = .object encoding.mirrored := by
    rw [value_encoding_mirroredSpec, h]
    rfl
  have hexplicit : Value.ofOption (((mirroredSpec spec).value "mark").member? "orient") =
      (Value.ofOption ((spec.value "mark").member? "orient")).turned := by
    rw [value_mark_mirroredSpec, Mark.member?_turned_orient]
    cases (spec.value "mark").member? "orient" <;> rfl
  have hx : (Encoding.mirrored encoding).value "x" = encoding.value "y" :=
    Encoding.value_mirrored encoding "y"
  have hy : (Encoding.mirrored encoding).value "y" = encoding.value "x" :=
    Encoding.value_mirrored encoding "x"
  rw [orientation_of_value h, orientation_of_value h']
  dsimp only
  rw [hexplicit, hx, hy]
  obtain (hv | hh) | ⟨hnone, hone⟩ := hdirected
  · rw [hv]
    rfl
  · rw [hh]
    rfl
  · rw [Value.truthy_turned, hnone]
    cases hx : isContinuous (encoding.value "x") <;>
      cases hy : isContinuous (encoding.value "y")
    · rfl
    · rfl
    · rfl
    · exact absurd (hx.trans hy.symm) hone

theorem ofSpec_mirroredSpec (horient : orient.IsKnown)
    (h : spec.value "encoding" = .object encoding) :
    ofSpec (mirroredSpec spec) orient.turned mark = mirrored <$> ofSpec spec orient mark := by
  have h' : (mirroredSpec spec).value "encoding" = .object encoding.mirrored := by
    rw [value_encoding_mirroredSpec, h]
    rfl
  have hvalue : (Encoding.mirrored encoding).value orient.turned.channel =
      encoding.value orient.channel := by
    rw [Orientation.channel_turned horient, Encoding.value_mirrored]
  rw [ofSpec, ofSpec, encodingOf_of_value h, encodingOf_of_value h', Report.lift_ok,
    Report.lift_ok, pure_bind, pure_bind, hvalue, Orientation.channel_turned horient]
  split
  · rfl
  · rw [map_bind]
    congr 1
    funext members
    split <;> rfl

theorem isXOrY_of_ofSpec {axis : ContinuousAxis}
    (h : (ofSpec spec orient mark).outcome = .ok axis) : Channel.isXOrY axis.channel = true := by
  rw [(given_of_ofSpec h).1]
  exact Orientation.isXOrY_channel orient

end ContinuousAxis

namespace Tooltip

def Split.mirrored (s : Split) : Split := { s with encoding := s.encoding.mirrored }

theorem split_mirrored (encoding : Encoding) :
    split encoding.mirrored = (split encoding).mirrored := by
  have hothers : Record.erase (Encoding.mirrored encoding) "tooltip" =
      Encoding.mirrored (Record.erase encoding "tooltip") :=
    Encoding.erase_mirrored encoding "tooltip"
  have htooltip : (Encoding.mirrored encoding).value "tooltip" = encoding.value "tooltip" :=
    Encoding.value_mirrored encoding "tooltip"
  have hadd : ∀ (others : Encoding) (v : Value), Encoding.mirrored others ++ [("tooltip", v)] =
      Encoding.mirrored (others ++ [("tooltip", v)]) :=
    fun others v ↦ (Record.convert_append others [("tooltip", v)]).symm
  unfold split
  rw [htooltip, hothers]
  split
  · dsimp only
    rw [hadd]
    split <;> rfl
  · dsimp only
    rw [hadd]
    split
    · rfl
    · split <;> rfl

theorem channel_mirrored (rows : List Row) (definition : Record Value) (encoding : Encoding)
    (withField : Bool) : channel rows definition encoding.mirrored withField =
      channel rows definition encoding withField := by
  have htooltip : (Encoding.mirrored encoding).get? "tooltip" = encoding.get? "tooltip" :=
    Encoding.get?_mirrored encoding "tooltip"
  rw [channel, channel, htooltip, ofFields, ofFields, Encoding.fieldDefs_mirrored]

/-- A tooltip is on no axis. -/
theorem mirrored_of_channel {rows : List Row} {definition : Record Value} {encoding : Encoding}
    {withField : Bool} {tooltip : Encoding}
    (h : channel rows definition encoding withField = .ok tooltip) :
    tooltip.mirrored = tooltip := by
  rw [channel] at h
  split at h
  · rw [← Except.ok.inj h]
    rfl
  · obtain ⟨summary, -, h⟩ := bind_eq_ok_iff.1 h
    obtain ⟨fields, -, h⟩ := bind_eq_ok_iff.1 h
    rw [← Except.ok.inj h]
    rfl

end Tooltip

namespace UnitLayer

def mirrored (l : UnitLayer) : UnitLayer :=
  { l with mark := l.mark.turned, encoding := l.encoding.mirrored }

end UnitLayer

namespace Part

/-- Does neither the definition nor the settings give a part a direction of its own? -/
def Undirected (mark : MarkDef) (settings : Record Value) (part : String) : Prop :=
  (styleMembers (settings.value part)).has "orient" = false ∧
    (styleMembers (mark.value part)).has "orient" = false

instance (mark : MarkDef) (settings : Record Value) (part : String) :
    Decidable (Undirected mark settings part) := inferInstanceAs (Decidable (_ ∧ _))

variable {mark : MarkDef} {settings : Record Value} {part : String}

theorem isDrawn_turned (hpart : part ≠ "orient") :
    isDrawn mark.turned settings part = isDrawn mark settings part := by
  rw [isDrawn, isDrawn, MarkDef.value_turned_of_ne hpart]

theorem handedOn_turned : handedOn mark.turned = handedOn mark := by
  simp only [handedOn, List.filterMap_cons, List.filterMap_nil]
  rw [MarkDef.value_turned_of_ne (by decide), MarkDef.value_turned_of_ne (by decide),
    MarkDef.value_turned_of_ne (by decide)]

theorem turned_handedOn : MarkDef.turned (handedOn mark) = handedOn mark := by
  apply MarkDef.turned_of_not_has
  simp only [handedOn, List.filterMap_cons, List.filterMap_nil]
  cases (mark.value "clip").truthy <;> cases (mark.value "color").truthy <;>
    cases (mark.value "opacity").truthy <;> rfl

theorem styled_turned (hpart : part ≠ "orient") (h : Undirected mark settings part)
    (base : MarkDef) :
    styled mark.turned settings part base.turned = (styled mark settings part base).turned := by
  have hown :
      MarkDef.turned (Record.override (styleMembers (settings.value part)) (handedOn mark)) =
        Record.override (styleMembers (settings.value part)) (handedOn mark) := by
    rw [← MarkDef.override_turned, MarkDef.turned_of_not_has h.1, turned_handedOn]
  rw [styled, styled, handedOn_turned, MarkDef.value_turned_of_ne hpart,
    MarkDef.value_turned_of_ne (by decide), ← MarkDef.override_turned,
    ← MarkDef.put_turned (by decide), ← MarkDef.override_turned, hown,
    MarkDef.turned_of_not_has h.2]

theorem layers_mirrored (hpart : part ≠ "orient") (h : Undirected mark settings part)
    (base : UnitLayer) : layers mark.turned settings part base.mirrored =
      (layers mark settings part base).map UnitLayer.mirrored := by
  rw [layers, layers, isDrawn_turned hpart]
  split
  · exact congrArg (fun mark ↦ [{ base.mirrored with mark }]) (styled_turned hpart h base.mark)
  · rfl

namespace Context

def mirrored (c : Context) : Context :=
  { c with mark := c.mark.turned, axis := c.axis.mirrored, encoding := c.encoding.mirrored }

variable {c : Context}

theorem encodingOf_mirrored (haxis : Channel.isXOrY c.axis.channel = true) (start : String)
    (stop : Option String) (extra : Encoding) :
    c.mirrored.encodingOf start stop extra.mirrored = (c.encodingOf start stop extra).mirrored := by
  unfold encodingOf
  dsimp only
  rw [← Encoding.override_mirrored, ← Encoding.override_mirrored]
  cases stop with
  | none => rfl
  | some stop =>
      have hend : c.mirrored.axis.channel ++ "2" = Channel.mirror (c.axis.channel ++ "2") :=
        (Channel.mirror_append_two haxis).symm
      dsimp only
      rw [hend]
      rfl

theorem make_mirrored (hpart : part ≠ "orient") (h : Undirected c.mark c.settings part)
    (haxis : Channel.isXOrY c.axis.channel = true) (base : MarkDef) (start : String)
    (stop : Option String) (extra : Encoding) :
    c.mirrored.make part base.turned start stop extra.mirrored =
      (c.make part base start stop extra).map UnitLayer.mirrored := by
  rw [make, make, encodingOf_mirrored haxis, MarkDef.filter_turned]
  exact layers_mirrored hpart h { mark := base.filter _, encoding := c.encodingOf start stop extra }

end Context

end Part

namespace Layer

mutual

def mirrored : Layer → Layer
  | unit layer => unit layer.mirrored
  | group transforms layers => group transforms (allMirrored layers)
termination_by structural layer => layer

def allMirrored : List Layer → List Layer
  | [] => []
  | layer :: rest => mirrored layer :: allMirrored rest
termination_by structural layers => layers

end

theorem allMirrored_map_unit (layers : List UnitLayer) :
    allMirrored (layers.map unit) = (layers.map UnitLayer.mirrored).map unit := by
  induction layers with
  | nil => rfl
  | cons layer rest ih =>
      rw [List.map_cons, allMirrored, ih]
      rfl

theorem allMirrored_append (layers more : List Layer) :
    allMirrored (layers ++ more) = allMirrored layers ++ allMirrored more := by
  induction layers with
  | nil => rfl
  | cons layer rest ih => rw [List.cons_append, allMirrored, allMirrored, ih, List.cons_append]

end Layer

def Drawing.mirrored : Drawing → Drawing
  | layers parts => layers (Layer.allMirrored parts)
  | single layer => single layer.mirrored
  | nothing => nothing

/-- The expansion with the axes of all its layers exchanged, and all marks in it turned. -/
def Expansion.mirrored (e : Expansion) : Expansion := { e with drawing := e.drawing.mirrored }

namespace Stages

variable {Look : Type} {s : Stages Look} {spec : Record Value} {turn : Look → Look}

theorem tellSelections_mirroredSpec :
    s.tellSelections (mirroredSpec spec) = s.tellSelections spec := by
  rw [tellSelections, tellSelections, value_params_mirroredSpec]

variable (hrefuse : ∀ encoding : Encoding,
    (s.refuse encoding.mirrored).result = (s.refuse encoding).result)
  (hlook : ∀ encoding, (Encoding.normalize (spec.value "encoding") s.parse).outcome = .ok encoding →
    ∀ mark : MarkDef,
      s.look (mirroredSpec (spec.put "encoding" (.object encoding))) encoding.mirrored mark.turned =
        turn <$> s.look (spec.put "encoding" (.object encoding)) encoding mark)

include hrefuse hlook

theorem result_lookOf_mirroredSpec :
    (s.lookOf (mirroredSpec spec)).result = (s.lookOf spec).result.map turn := by
  rw [lookOf, lookOf, Report.result_bind, Report.result_bind, value_encoding_mirroredSpec,
    Encoding.normalize_mirroredValue]
  cases hn : (Encoding.normalize (spec.value "encoding") s.parse).result with
  | none => rfl
  | some encoding =>
      have hlook := hlook encoding (Report.result_eq_some_iff.1 hn)
      have hrest : (do
            let mark ← (mirroredSpec spec).require "mark"
            s.tellSelections (mirroredSpec spec)
            s.look ((mirroredSpec spec).put "encoding" (.object encoding.mirrored))
              encoding.mirrored (.ofValue mark) : Report Look) =
          turn <$> (do
            let mark ← spec.require "mark"
            s.tellSelections spec
            s.look (spec.put "encoding" (.object encoding)) encoding (.ofValue mark) :
              Report Look) := by
        rw [require_mark_mirroredSpec, put_encoding_mirroredSpec, tellSelections_mirroredSpec,
          ← Report.map_lift, bind_map_left]
        simp only [MarkDef.ofValue_turned, hlook, map_bind]
      dsimp only [Option.map_some, Option.bind_some]
      rw [hrest, Report.result_bind, hrefuse, ← Report.result_bind, ← Report.result_map]
      simp only [map_bind]

/-- Where looks are turned, and turned looks are drawn as mirror images, the expansion of the mirror
image is the mirror image of the expansion. -/
theorem result_expand_mirroredSpec
    (hdraw : ∀ look, (s.lookOf spec).outcome = .ok look →
      s.draw (Expansion.kept spec) (turn look) =
        Expansion.mirrored <$> s.draw (Expansion.kept spec) look) :
    (s.expand (mirroredSpec spec)).result = (s.expand spec).result.map Expansion.mirrored := by
  rw [expand, expand, Report.result_bind, Report.result_bind,
    result_lookOf_mirroredSpec hrefuse hlook, kept_mirroredSpec]
  cases hok : (s.lookOf spec).result with
  | none => rfl
  | some look =>
      rw [Option.map_some, Option.bind_some, Option.bind_some, Report.result_lift,
        Report.result_lift, hdraw look (Report.result_eq_some_iff.1 hok), toOption_map]

end Stages

end ChartLowering
