import ChartLowering.Proofs.Composite.Toggles
import ChartLowering.Proofs.Errorbar.Drawing

/-!
# Switching one part of an error bar

Axis, extent and center do not depend on the parts. With one part switched off the other may be the
only layer that is left, which then is the specification itself, but is drawn from the same rows.
-/

namespace ChartLowering.Errorbar

namespace Look

def withMark (mark : MarkDef) (l : Look) : Look := { l with context := { l.context with mark } }

def ticks (l : Look) : List UnitLayer :=
  let tick := tick l.context.mark l.orient
  l.context.make "ticks" tick "lower" none l.tooltip ++
    l.context.make "ticks" tick "upper" none l.tooltip

def rule (l : Look) : List UnitLayer :=
  l.context.make "rule" (Errorbar.rule (l.context.mark.value "thickness")) "lower" "upper" l.tooltip

/-- What a part is drawn as after the steps of the author. -/
def drawn (l : Look) (authored : List Transform) (part : String) : List Leaf :=
  match part with
  | "ticks" => leavesAfter (authored ++ l.steps) l.ticks
  | "rule" => leavesAfter (authored ++ l.steps) l.rule
  | _ => []

theorem leaves_eq_flatMap_drawn {outer : Record Value} {l : Look} {e : Expansion}
    (h : draw outer l = .ok e) : e.leaves = parts.flatMap (l.drawn e.authored) := by
  have hlayers : layers l.context l.orient l.tooltip = l.ticks ++ l.rule := rfl
  rw [(leaves_of_draw h).2, hlayers, leavesAfter_append]
  simp only [parts, List.flatMap_cons, List.flatMap_nil, drawn, List.append_nil]

section SameBut

variable {part other : String} {l : Look} {mark' : MarkDef}

theorem drawn_of_sameBut (h : l.context.mark.SameBut part mark')
    (hpart : part ∉ MarkDef.sharedKeys) (authored : List Transform) (hmem : other ∈ parts)
    (hother : other ≠ part) :
    (l.withMark mark').drawn authored other = l.drawn authored other := by
  have hmake : ∀ (base : MarkDef) (start : String) (stop : Option String) (extra : Encoding),
      (l.withMark mark').context.make other base start stop extra =
        l.context.make other base start stop extra :=
    fun base start _ _ ↦ Part.Context.make_of_sameBut h hpart hother base start
  have hthickness : mark'.value "thickness" = l.context.mark.value "thickness" :=
    h.shared hpart (by decide)
  have hsize : mark'.value "size" = l.context.mark.value "size" := h.shared hpart (by decide)
  simp only [parts, List.mem_cons, List.not_mem_nil, or_false] at hmem
  rcases hmem with rfl | rfl
  · have htick : tick mark' l.orient = tick l.context.mark l.orient := by
      rw [tick, tick, hthickness, hsize]
    have hticks : (l.withMark mark').ticks = l.ticks := by
      rw [ticks, ticks, hmake, hmake]
      exact congrArg₂ (fun a b ↦ a ++ b) (by rw [← htick]; rfl) (by rw [← htick]; rfl)
    exact congrArg (leavesAfter _) hticks
  · have hrule : (l.withMark mark').rule = l.rule := by
      rw [rule, rule, hmake, ← hthickness]
      rfl
    exact congrArg (leavesAfter _) hrule

theorem drawn_of_not_drawn (hoff : Part.isDrawn l.context.mark l.context.settings part = false)
    (authored : List Transform) (hmem : part ∈ parts) : l.drawn authored part = [] := by
  have hmake : ∀ (base : MarkDef) (start : String) (stop : Option String) (extra : Encoding),
      l.context.make part base start stop extra = [] :=
    fun base start _ _ ↦ Part.Context.make_of_not_drawn hoff base start
  simp only [parts, List.mem_cons, List.not_mem_nil, or_false] at hmem
  rcases hmem with rfl | rfl
  · rw [drawn, ticks, hmake, hmake]
    rfl
  · rw [drawn, rule, hmake]
    rfl

end SameBut

end Look

section Specifications

variable {part : String} {spec : Record Value} {m m' : Value} {settings : Settings}
  {parse : Shorthand.Reader}

theorem lookAt_of_sameBut (h : (MarkDef.ofValue m).SameBut part (MarkDef.ofValue m'))
    (hpart : part ∉ MarkDef.sharedKeys) (encoding : Encoding) (v : Value) :
    lookAt ((spec.put "mark" m').put "encoding" v) encoding (.ofValue m') settings =
      Look.withMark (.ofValue m') <$>
        lookAt ((spec.put "mark" m).put "encoding" v) encoding (.ofValue m) settings := by
  have hextent : extentOf (.ofValue m') settings = extentOf (.ofValue m) settings := by
    rw [extentOf, extentOf, h.shared hpart (by decide)]
  have hcenter : ∀ extent, centerOf (.ofValue m') extent = centerOf (.ofValue m) extent := by
    intro extent
    rw [centerOf, centerOf, h.shared hpart (by decide)]
  have haxis := @ContinuousAxis.ofSpec_put_mark spec m m' v
  have hlook : ∀ axis orient center extent,
      lookAlong axis orient center extent encoding (.ofValue m') settings =
        Look.withMark (.ofValue m') <$>
          lookAlong axis orient center extent encoding (.ofValue m) settings := by
    intro axis orient center extent
    simp only [lookAlong, map_bind, map_pure]
    rfl
  rw [lookAt, lookAt, hextent, ContinuousAxis.orientation_of_sameBut h hpart]
  simp only [hcenter, haxis, hlook, map_bind, Report.map_lift]

theorem lookOf_of_sameBut (h : (MarkDef.ofValue m).SameBut part (MarkDef.ofValue m'))
    (hpart : part ∉ MarkDef.sharedKeys) :
    (stages settings parse).lookOf (spec.put "mark" m') =
      Look.withMark (.ofValue m') <$> (stages settings parse).lookOf (spec.put "mark" m) :=
  Stages.lookOf_put_mark fun v encoding ↦ lookAt_of_sameBut h hpart encoding v

/-- Whether an error bar can be drawn does not depend on its look. -/
theorem forget_draw (outer : Record Value) (look : Look) :
    (fun _ ↦ ()) <$> draw outer look = (fun _ ↦ ()) <$> Expansion.written outer := by
  simp only [draw, bind_pure_comp, Functor.map_map]

theorem forget_expand_of_sameBut (h : (MarkDef.ofValue m).SameBut part (MarkDef.ofValue m'))
    (hpart : part ∉ MarkDef.sharedKeys) :
    (fun _ ↦ ()) <$> expand (spec.put "mark" m') settings parse =
      (fun _ ↦ ()) <$> expand (spec.put "mark" m) settings parse := by
  rw [expand_eq, expand_eq]
  apply Stages.forget_expand_put_mark (lookOf_of_sameBut h hpart)
  intro outer look
  exact (forget_draw outer (look.withMark _)).trans (forget_draw outer look).symm

theorem given_of_lookOf {look : Look}
    (h : ((stages settings parse).lookOf (spec.put "mark" m)).outcome = .ok look) :
    look.context.mark = .ofValue m ∧
      look.context.settings = Settings.openBlock settings.errorbar.members := by
  obtain ⟨encoding, mark, -, -, hmark, h⟩ := Stages.exists_encoding_of_lookOf h
  rw [Record.require_put_self] at hmark
  obtain rfl := Except.ok.inj hmark
  exact (made_of_lookAt h).given

/-- What a part of the error bar of a specification is drawn as. -/
def drawnBy (spec : Record Value) (settings : Settings)
    (parse : Shorthand.Reader := Shorthand.members) : String → List Leaf :=
  (stages settings parse).drawnBy Look.drawn spec

theorem leaves_of_expand {e : Expansion} (h : (expand spec settings parse).outcome = .ok e) :
    e.leaves = parts.flatMap (drawnBy spec settings parse) := by
  rw [expand_eq] at h
  apply Stages.leaves_of_expand _ h
  intro outer look e hdraw
  exact ⟨(leaves_of_draw hdraw).1, Look.leaves_eq_flatMap_drawn hdraw⟩

theorem drawnBy_of_sameBut (h : (MarkDef.ofValue m).SameBut part (MarkDef.ofValue m'))
    (hpart : part ∉ MarkDef.sharedKeys) {other : String} (hmem : other ∈ parts)
    (hother : other ≠ part) :
    drawnBy (spec.put "mark" m') settings parse other =
      drawnBy (spec.put "mark" m) settings parse other := by
  apply Stages.drawnBy_put_mark (lookOf_of_sameBut h hpart)
  intro look hlook authored
  have hsame : look.context.mark.SameBut part (.ofValue m') := (given_of_lookOf hlook).1 ▸ h
  exact Look.drawn_of_sameBut hsame hpart authored hmem hother

theorem drawnBy_of_not_drawn
    (hoff : Part.isDrawn (.ofValue m) (Settings.openBlock settings.errorbar.members) part = false)
    (hmem : part ∈ parts) : drawnBy (spec.put "mark" m) settings parse part = [] := by
  apply Stages.drawnBy_eq_nil
  intro look hlook authored
  obtain ⟨hmark, hsettings⟩ := given_of_lookOf hlook
  apply Look.drawn_of_not_drawn _ authored hmem
  rw [hmark, hsettings]
  exact hoff

end Specifications

end ChartLowering.Errorbar
