import ChartLowering.Proofs.Boxplot.Drawing
import ChartLowering.Proofs.Composite.Toggles

/-!
# Switching one part of a boxplot

What the plan of a boxplot takes from a mark definition is not about its parts, so that switching
one of them changes no more than the definition in the look.
-/

namespace ChartLowering.Boxplot

namespace Look

def withMark (mark : MarkDef) (l : Look) : Look := { l with mark }

/-- The rules of the whiskers. -/
def rules (l : Look) : List UnitLayer :=
  let c := l.context (plainEncoding l.plan)
  c.make "rule" l.rule "lower_whisker" "lower_box" l.whiskerTooltip ++
  c.make "rule" l.rule "upper_box" "upper_whisker" l.whiskerTooltip

/-- The ticks at the ends of the whiskers. -/
def ticks (l : Look) : List UnitLayer :=
  let c := l.context (plainEncoding l.plan)
  c.make "ticks" l.tick "lower_whisker" none l.whiskerTooltip ++
  c.make "ticks" l.tick "upper_whisker" none l.whiskerTooltip

theorem whiskers_eq (l : Look) : l.whiskers = l.rules ++ l.ticks := by
  rw [whiskers, rules, ticks, List.append_assoc]

/-- The parts in the order in which they are drawn. -/
def drawingOrder : List String := ["outliers", "rule", "ticks", "box", "median"]

/-- What a part is drawn as after the steps of the author. -/
def drawn (l : Look) (authored : List Transform) (part : String) : List Leaf :=
  match part with
  | "outliers" => leavesAfter (authored ++ l.plan.quartilesOnRows) l.points
  | "rule" => leavesAfter (authored ++ l.whiskerSteps) l.rules
  | "ticks" => leavesAfter (authored ++ l.whiskerSteps) l.ticks
  | "box" => leavesAfter (authored ++ l.plan.statistics) l.box
  | "median" => leavesAfter (authored ++ l.plan.statistics) l.median
  | _ => []

theorem leaves_eq_flatMap_drawn {outer : Record Value} {l : Look} {e : Expansion}
    (h : draw outer l = .ok e) : e.leaves = drawingOrder.flatMap (l.drawn e.authored) := by
  rw [leaves_of_draw h, whiskers_eq, leavesAfter_append, leavesAfter_append]
  simp only [drawingOrder, List.flatMap_cons, List.flatMap_nil, drawn, List.append_nil,
    List.append_assoc]

theorem outer_of_draw {outer : Record Value} {l : Look} {e : Expansion}
    (h : draw outer l = .ok e) : e.outer = outer := by
  rw [draw] at h
  dsimp only at h
  split at h
  · obtain ⟨limits, -, h⟩ := bind_eq_ok_iff.1 h
    obtain ⟨rows, -, h⟩ := bind_eq_ok_iff.1 h
    exact Except.ok.inj h ▸ rfl
  · obtain ⟨written, -, h⟩ := bind_eq_ok_iff.1 h
    exact Except.ok.inj h ▸ rfl

section SameBut

variable {part other : String} {l : Look} {mark' : MarkDef}

theorem points_of_sameBut (h : l.mark.SameBut part mark') (hpart : part ∉ MarkDef.sharedKeys)
    (hother : "outliers" ≠ part) : (l.withMark mark').points = l.points := by
  have houtliers : ∀ limits, (l.withMark mark').outliers limits = l.outliers limits := by
    intro limits
    rw [outliers, outliers]
    congr 1
    funext position
    exact congrArg pure (Part.layers_of_sameBut h hpart hother _ _)
  rw [points, points, funext houtliers]
  rfl

theorem invalid_of_sameBut (h : l.mark.SameBut part mark') (hpart : part ∉ MarkDef.sharedKeys) :
    (l.withMark mark').invalid = l.invalid :=
  congrArg (Prod.mk "invalid") (h.shared hpart (by decide))

theorem make_of_sameBut (h : l.mark.SameBut part mark') (hpart : part ∉ MarkDef.sharedKeys)
    (hother : other ≠ part) (encoding : Encoding) (base : MarkDef) (start : String)
    (stop : Option String) (extra : Encoding) :
    ((l.withMark mark').context encoding).make other base start stop extra =
      (l.context encoding).make other base start stop extra :=
  @Part.Context.make_of_sameBut part other mark' (l.context encoding) stop extra h hpart hother
    base start

theorem rules_of_sameBut (h : l.mark.SameBut part mark') (hpart : part ∉ MarkDef.sharedKeys)
    (hother : "rule" ≠ part) : (l.withMark mark').rules = l.rules := by
  have hrule : (l.withMark mark').rule = l.rule := by
    rw [rule, rule, invalid_of_sameBut h hpart]
  rw [rules, rules, hrule, make_of_sameBut h hpart hother, make_of_sameBut h hpart hother]
  rfl

theorem ticks_of_sameBut (h : l.mark.SameBut part mark') (hpart : part ∉ MarkDef.sharedKeys)
    (hother : "ticks" ≠ part) : (l.withMark mark').ticks = l.ticks := by
  have htick : (l.withMark mark').tick = l.tick := by
    rw [tick, tick, invalid_of_sameBut h hpart]
    rfl
  rw [ticks, ticks, htick, make_of_sameBut h hpart hother, make_of_sameBut h hpart hother]
  rfl

theorem box_of_sameBut (h : l.mark.SameBut part mark') (hpart : part ∉ MarkDef.sharedKeys)
    (hother : "box" ≠ part) : (l.withMark mark').box = l.box := by
  rw [box, box, invalid_of_sameBut h hpart, make_of_sameBut h hpart hother]
  rfl

theorem median_of_sameBut (h : l.mark.SameBut part mark') (hpart : part ∉ MarkDef.sharedKeys)
    (hother : "median" ≠ part) : (l.withMark mark').median = l.median := by
  rw [median, median, invalid_of_sameBut h hpart, make_of_sameBut h hpart hother]
  rfl

theorem drawn_of_sameBut (h : l.mark.SameBut part mark') (hpart : part ∉ MarkDef.sharedKeys)
    (authored : List Transform) (hmem : other ∈ drawingOrder) (hother : other ≠ part) :
    (l.withMark mark').drawn authored other = l.drawn authored other := by
  simp only [drawingOrder, List.mem_cons, List.not_mem_nil, or_false] at hmem
  rcases hmem with rfl | rfl | rfl | rfl | rfl
  · exact congrArg (leavesAfter _) (points_of_sameBut h hpart hother)
  · exact congrArg (leavesAfter _) (rules_of_sameBut h hpart hother)
  · exact congrArg (leavesAfter _) (ticks_of_sameBut h hpart hother)
  · exact congrArg (leavesAfter _) (box_of_sameBut h hpart hother)
  · exact congrArg (leavesAfter _) (median_of_sameBut h hpart hother)

end SameBut

theorem points_of_not_drawn {l : Look}
    (hoff : Part.isDrawn l.mark l.partSettings "outliers" = false) : l.points = [] := by
  refine List.eq_nil_iff_forall_not_mem.2 fun layer h ↦ ?_
  obtain ⟨-, limits, outliers, -, houtliers, h⟩ := exists_outliers_of_mem_points h
  obtain ⟨base, -, rfl⟩ := exists_of_outliers houtliers
  rw [Part.layers_of_not_drawn hoff] at h
  cases h

/-- A part that is switched off is not drawn. -/
theorem drawn_of_not_drawn {part : String} {l : Look}
    (hoff : Part.isDrawn l.mark l.partSettings part = false) (authored : List Transform)
    (hmem : part ∈ drawingOrder) : l.drawn authored part = [] := by
  have hmake : ∀ (encoding : Encoding) (base : MarkDef) (start : String) (stop : Option String)
      (extra : Encoding), (l.context encoding).make part base start stop extra = [] :=
    fun _ base start _ _ ↦ Part.Context.make_of_not_drawn hoff base start
  simp only [drawingOrder, List.mem_cons, List.not_mem_nil, or_false] at hmem
  rcases hmem with rfl | rfl | rfl | rfl | rfl
  · rw [drawn, points_of_not_drawn hoff]
    rfl
  · rw [drawn, rules, hmake, hmake]
    rfl
  · rw [drawn, ticks, hmake, hmake]
    rfl
  · rw [drawn, box, hmake]
    rfl
  · rw [drawn, median, hmake]
    rfl

theorem ofPlan_of_sameBut {part : String} {mark mark' : MarkDef} (h : mark.SameBut part mark')
    (hpart : part ∉ MarkDef.sharedKeys) (plan : Plan) (settings : Settings) :
    ofPlan plan mark' settings = withMark mark' <$> ofPlan plan mark settings := by
  rw [ofPlan, ofPlan, h.property hpart (by decide)]
  simp only [map_bind]
  congr 1
  funext size
  congr 1
  funext median
  congr 1
  funext summary
  split <;> simp only [map_bind, pure_bind] <;> rfl

end Look

theorem extentOf_of_sameBut {part : String} {mark mark' : MarkDef} (h : mark.SameBut part mark')
    (hpart : part ∉ MarkDef.sharedKeys) (settings : Settings) :
    extentOf mark' settings = extentOf mark settings := by
  rw [extentOf, extentOf, h.shared hpart (by decide)]

section Specifications

variable {part : String} {spec : Record Value} {m m' : Value}

theorem ofSpec_of_sameBut (h : (MarkDef.ofValue m).SameBut part (MarkDef.ofValue m'))
    (hpart : part ∉ MarkDef.sharedKeys) (encoding : Encoding) (whiskers : Whiskers)
    (multiplier : Binary64) (countTitle : String) (v : Value) :
    Plan.ofSpec ((spec.put "mark" m').put "encoding" v) encoding whiskers multiplier countTitle =
      Plan.ofSpec ((spec.put "mark" m).put "encoding" v) encoding whiskers multiplier
        countTitle := by
  have haxis : ∀ orient,
      ContinuousAxis.ofSpec ((spec.put "mark" m').put "encoding" v) orient markName =
        ContinuousAxis.ofSpec ((spec.put "mark" m).put "encoding" v) orient markName :=
    fun orient ↦ ContinuousAxis.ofSpec_put_mark v orient markName
  rw [Plan.ofSpec, Plan.ofSpec, ContinuousAxis.orientation_of_sameBut h hpart]
  simp only [haxis]

theorem lookAt_of_sameBut (h : (MarkDef.ofValue m).SameBut part (MarkDef.ofValue m'))
    (hpart : part ∉ MarkDef.sharedKeys) (encoding : Encoding) (settings : Settings)
    (whiskers : Option Whiskers) (v : Value) :
    lookAt ((spec.put "mark" m').put "encoding" v) encoding (.ofValue m') settings whiskers =
      Look.withMark (.ofValue m') <$>
        lookAt ((spec.put "mark" m).put "encoding" v) encoding (.ofValue m) settings whiskers := by
  have hplan := @ofSpec_of_sameBut part spec m m' h hpart encoding
  have hlook := fun plan ↦ Look.ofPlan_of_sameBut h hpart plan settings
  rw [lookAt, lookAt, extentOf_of_sameBut h hpart]
  simp only [hplan, hlook, map_bind]
  congr 1
  funext whiskers
  congr 1
  funext multiplier
  congr 1
  funext plan
  cases Look.ofPlan plan (.ofValue m) settings <;> rfl

theorem lookOf_of_sameBut (h : (MarkDef.ofValue m).SameBut part (MarkDef.ofValue m'))
    (hpart : part ∉ MarkDef.sharedKeys) (settings : Settings) (whiskers : Option Whiskers)
    (parse : Shorthand.Reader) :
    (stages settings whiskers parse).lookOf (spec.put "mark" m') =
      Look.withMark (.ofValue m') <$> (stages settings whiskers parse).lookOf (spec.put "mark" m) :=
  Stages.lookOf_put_mark fun v encoding ↦ lookAt_of_sameBut h hpart encoding settings whiskers v

end Specifications

theorem forget_rowLayer (look : Look) (limits : Plan.Limits) :
    (fun _ ↦ ()) <$> rowLayer look limits =
      (fun _ ↦ ()) <$> Look.valuePosition look.plan.axis.definition := by
  rw [rowLayer, Look.outliers]
  cases Look.valuePosition look.plan.axis.definition with
  | error fault => rfl
  | ok position =>
      dsimp only [bind, Except.bind, pure, Except.pure]
      split <;> rfl

/-- Whether a boxplot can be drawn depends on its plan alone. -/
theorem forget_draw (outer : Record Value) (look : Look) :
    (fun _ ↦ ()) <$> draw outer look =
      if look.plan.whiskers = .tukey then
        look.plan.limits >>= fun _ ↦
          (fun _ ↦ ()) <$> Look.valuePosition look.plan.axis.definition
      else (fun _ ↦ ()) <$> Expansion.written outer := by
  by_cases htukey : look.plan.whiskers = .tukey
  · rw [draw, if_pos htukey, if_pos htukey, map_bind]
    simp only [bind_pure_comp, Functor.map_map, forget_rowLayer]
  · rw [draw, if_neg htukey, if_neg htukey]
    simp only [bind_pure_comp, Functor.map_map]

section Parts

variable {part : String} {spec : Record Value} {m m' : Value} {settings : Settings}
  {whiskers : Option Whiskers} {parse : Shorthand.Reader}

theorem forget_expand_of_sameBut (h : (MarkDef.ofValue m).SameBut part (MarkDef.ofValue m'))
    (hpart : part ∉ MarkDef.sharedKeys) :
    (fun _ ↦ ()) <$> expand (spec.put "mark" m') settings whiskers parse =
      (fun _ ↦ ()) <$> expand (spec.put "mark" m) settings whiskers parse := by
  rw [expand_eq, expand_eq]
  apply Stages.forget_expand_put_mark (lookOf_of_sameBut h hpart settings whiskers parse)
  intro outer look
  exact (forget_draw outer (look.withMark _)).trans (forget_draw outer look).symm

/-- What a part of the boxplot of a specification is drawn as. -/
def drawnBy (spec : Record Value) (settings : Settings) (whiskers : Option Whiskers)
    (parse : Shorthand.Reader := Shorthand.members) :
    String → List Leaf :=
  (stages settings whiskers parse).drawnBy Look.drawn spec

theorem leaves_of_expand {e : Expansion}
    (h : (expand spec settings whiskers parse).outcome = .ok e) :
    e.leaves = Look.drawingOrder.flatMap (drawnBy spec settings whiskers parse) := by
  rw [expand_eq] at h
  apply Stages.leaves_of_expand _ h
  intro outer look e hdraw
  exact ⟨Look.outer_of_draw hdraw, Look.leaves_eq_flatMap_drawn hdraw⟩

theorem given_of_lookOf {look : Look}
    (h : ((stages settings whiskers parse).lookOf (spec.put "mark" m)).outcome = .ok look) :
    look.mark = .ofValue m ∧ look.settings = settings := by
  obtain ⟨encoding, mark, -, -, hmark, h⟩ := Stages.exists_encoding_of_lookOf h
  rw [Record.require_put_self] at hmark
  obtain rfl := Except.ok.inj hmark
  exact mark_and_settings_of_lookAt h

theorem drawnBy_of_sameBut (h : (MarkDef.ofValue m).SameBut part (MarkDef.ofValue m'))
    (hpart : part ∉ MarkDef.sharedKeys) {other : String} (hmem : other ∈ Look.drawingOrder)
    (hother : other ≠ part) :
    drawnBy (spec.put "mark" m') settings whiskers parse other =
      drawnBy (spec.put "mark" m) settings whiskers parse other := by
  apply Stages.drawnBy_put_mark (lookOf_of_sameBut h hpart settings whiskers parse)
  intro look hlook authored
  have hsame : look.mark.SameBut part (.ofValue m') := (given_of_lookOf hlook).1 ▸ h
  exact Look.drawn_of_sameBut hsame hpart authored hmem hother

theorem drawnBy_of_not_drawn
    (hoff : Part.isDrawn (.ofValue m) (Settings.openBlock settings.boxplot.members) part = false)
    (hmem : part ∈ Look.drawingOrder) :
    drawnBy (spec.put "mark" m) settings whiskers parse part = [] := by
  apply Stages.drawnBy_eq_nil
  intro look hlook authored
  obtain ⟨hmark, hsettings⟩ := given_of_lookOf hlook
  apply Look.drawn_of_not_drawn _ authored hmem
  rw [hmark, Look.partSettings, hsettings]
  exact hoff

end Parts

end ChartLowering.Boxplot
