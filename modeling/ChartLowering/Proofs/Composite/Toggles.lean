import ChartLowering.Proofs.Composite.Stages

/-!
# Switching one part

A mark definition has one member for each part. Definitions that differ in that member alone style
all other parts alike, and give the composite mark the same direction and size.
-/

namespace ChartLowering

namespace MarkDef

/-- Definitions that give the same for everything but one part. -/
def SameBut (part : String) (mark mark' : MarkDef) : Prop :=
  ∀ key, key ≠ part → mark'.get? key = mark.get? key

/-- The members that a composite mark and its parts read besides the styles of the parts. -/
def sharedKeys : List String :=
  ["type", "clip", "color", "opacity", "extent", "invalid", "orient", "size", "thickness", "center"]

namespace SameBut

variable {part : String} {mark mark' : MarkDef}

theorem value (h : SameBut part mark mark') {key : String} (hkey : key ≠ part) :
    mark'.value key = mark.value key := by
  rw [Record.value, Record.value, h key hkey]

theorem get?_shared (h : SameBut part mark mark') (hpart : part ∉ sharedKeys) {key : String}
    (hkey : key ∈ sharedKeys) : mark'.get? key = mark.get? key := by
  apply h
  rintro rfl
  exact hpart hkey

theorem shared (h : SameBut part mark mark') (hpart : part ∉ sharedKeys) {key : String}
    (hkey : key ∈ sharedKeys) : mark'.value key = mark.value key := by
  rw [Record.value, Record.value, h.get?_shared hpart hkey]

theorem property (h : SameBut part mark mark') (hpart : part ∉ sharedKeys) {name : String}
    (hname : name ∈ sharedKeys) (settings : Settings) :
    mark'.property settings name = mark.property settings name := by
  have hgiven : mark'.given? name none = mark.given? name none := h.get?_shared hpart hname
  have hblock : mark'.block settings = mark.block settings := by
    rw [block, block, Record.require, Record.require, h.get?_shared hpart (by decide)]
  rw [MarkDef.property, MarkDef.property, hgiven, configured, configured, hblock]

end SameBut

theorem get?_ofValue (m : Value) {key : String} (hkey : key ≠ "type") :
    (ofValue m).get? key = m.member? key := by
  have hother : Record.get? [("type", m)] key = none := by
    rw [Record.get?_cons, if_neg hkey]
    rfl
  cases m with
  | object members => rfl
  | _ => exact hother

end MarkDef

namespace Part

variable {part other : String} {mark mark' : MarkDef}

theorem isDrawn_of_sameBut (h : mark.SameBut part mark') (hother : other ≠ part)
    (settings : Record Value) : isDrawn mark' settings other = isDrawn mark settings other := by
  rw [isDrawn, isDrawn, h.value hother]

theorem styled_of_sameBut (h : mark.SameBut part mark') (hpart : part ∉ MarkDef.sharedKeys)
    (hother : other ≠ part) (settings : Record Value) (base : MarkDef) :
    styled mark' settings other base = styled mark settings other base := by
  have hhanded : handedOn mark' = handedOn mark := by
    simp only [handedOn, List.filterMap_cons, List.filterMap_nil]
    rw [h.shared hpart (by decide), h.shared hpart (by decide), h.shared hpart (by decide)]
  rw [styled, styled, hhanded, h.value hother, h.shared hpart (by decide)]

theorem layers_of_sameBut (h : mark.SameBut part mark') (hpart : part ∉ MarkDef.sharedKeys)
    (hother : other ≠ part) (settings : Record Value) (base : UnitLayer) :
    layers mark' settings other base = layers mark settings other base := by
  rw [layers, layers, isDrawn_of_sameBut h hother, styled_of_sameBut h hpart hother]

theorem layers_of_not_drawn {settings : Record Value} (hoff : isDrawn mark settings part = false)
    (base : UnitLayer) : layers mark settings part base = [] := by
  rw [layers, hoff]
  rfl

namespace Context

variable {c : Context} {stop : Option String} {extra : Encoding}

theorem make_of_sameBut (h : c.mark.SameBut part mark') (hpart : part ∉ MarkDef.sharedKeys)
    (hother : other ≠ part) (base : MarkDef) (start : String) :
    { c with mark := mark' }.make other base start stop extra =
      c.make other base start stop extra :=
  layers_of_sameBut h hpart hother _ _

theorem make_of_not_drawn (hoff : isDrawn c.mark c.settings part = false) (base : MarkDef)
    (start : String) : c.make part base start stop extra = [] :=
  layers_of_not_drawn hoff _

end Context

end Part

namespace ContinuousAxis

variable {spec : Record Value} {m m' : Value} {part : String}

theorem value_mark_put (v : Value) : ((spec.put "mark" m).put "encoding" v).value "mark" = m :=
  (Record.value_put_of_ne (by decide)).trans Record.value_put_self

theorem encodingOf_put_mark (v : Value) :
    encodingOf ((spec.put "mark" m').put "encoding" v) =
      encodingOf ((spec.put "mark" m).put "encoding" v) := by
  rw [encodingOf, encodingOf, Record.value_put_self, Record.value_put_self]

theorem orientation_of_sameBut (h : (MarkDef.ofValue m).SameBut part (MarkDef.ofValue m'))
    (hpart : part ∉ MarkDef.sharedKeys) (v : Value) (name : String) :
    orientation ((spec.put "mark" m').put "encoding" v) name =
      orientation ((spec.put "mark" m).put "encoding" v) name := by
  have horient : m'.member? "orient" = m.member? "orient" := by
    rw [← MarkDef.get?_ofValue m' (by decide), ← MarkDef.get?_ofValue m (by decide)]
    exact h.get?_shared hpart (by decide)
  rw [orientation, orientation, value_mark_put, value_mark_put, horient, encodingOf_put_mark]

theorem ofSpec_put_mark (v : Value) (orient : Orientation) (name : String) :
    ofSpec ((spec.put "mark" m').put "encoding" v) orient name =
      ofSpec ((spec.put "mark" m).put "encoding" v) orient name := by
  rw [ofSpec, ofSpec, encodingOf_put_mark]

end ContinuousAxis

namespace Stages

variable {Look : Type} {s : Stages Look} {spec : Record Value} {m m' : Value}
  {change : Look → Look} {drawn : Look → List Transform → String → List Leaf} {part : String}

theorem lookOf_put_mark
    (hlook : ∀ v encoding, s.look ((spec.put "mark" m').put "encoding" v) encoding (.ofValue m') =
      change <$> s.look ((spec.put "mark" m).put "encoding" v) encoding (.ofValue m)) :
    s.lookOf (spec.put "mark" m') = change <$> s.lookOf (spec.put "mark" m) := by
  have htell : s.tellSelections (spec.put "mark" m') = s.tellSelections (spec.put "mark" m) := by
    rw [tellSelections, tellSelections, Record.value_put_of_ne (by decide),
      Record.value_put_of_ne (by decide)]
  rw [lookOf, lookOf, Record.value_put_of_ne (by decide), Record.value_put_of_ne (by decide),
    Record.require_put_self, Record.require_put_self, htell, Report.lift_ok, Report.lift_ok]
  simp only [pure_bind, map_bind, hlook]

variable (hlook : s.lookOf (spec.put "mark" m') = change <$> s.lookOf (spec.put "mark" m))

include hlook

/-- A change of the mark that keeps what is drawn from failing changes nothing that is told, and
not whether there is an expansion. -/
theorem forget_expand_put_mark (hdraw : ∀ outer look, (fun _ ↦ ()) <$> s.draw outer (change look) =
      (fun _ ↦ ()) <$> s.draw outer look) :
    (fun _ ↦ ()) <$> s.expand (spec.put "mark" m') =
      (fun _ ↦ ()) <$> s.expand (spec.put "mark" m) := by
  rw [expand, expand, hlook, Expansion.kept_put _ _ (by decide), Expansion.kept_put _ _ (by decide),
    bind_map_left, map_bind, map_bind]
  congr 1
  funext look
  rw [Report.map_lift, Report.map_lift, hdraw]

theorem drawnBy_put_mark (hdrawn : ∀ look, (s.lookOf (spec.put "mark" m)).outcome = .ok look →
      ∀ authored, drawn (change look) authored part = drawn look authored part) :
    s.drawnBy drawn (spec.put "mark" m') part = s.drawnBy drawn (spec.put "mark" m) part := by
  rw [drawnBy, drawnBy, hlook, Report.outcome_map, Expansion.kept_put _ _ (by decide),
    Expansion.kept_put _ _ (by decide)]
  cases hok : (s.lookOf (spec.put "mark" m)).outcome with
  | error fault => rfl
  | ok look => exact hdrawn look hok _

omit hlook

theorem drawnBy_eq_nil (hnil : ∀ look, (s.lookOf spec).outcome = .ok look →
      ∀ authored, drawn look authored part = []) : s.drawnBy drawn spec part = [] := by
  rw [drawnBy]
  cases hok : (s.lookOf spec).outcome with
  | error fault => rfl
  | ok look => exact hnil look hok _

end Stages

/-- What each part contributes, part by part in the order given. -/
def contributions (order : List String) (drawn : String → List Leaf) : List (String × Leaf) :=
  order.flatMap fun part ↦ (drawn part).map fun leaf ↦ (part, leaf)

section Contributions

variable {order : List String} {drawn drawn' : String → List Leaf} {part : String}

theorem contributions_map_snd :
    (contributions order drawn).map Prod.snd = order.flatMap drawn := by
  simp [contributions, List.map_flatMap, Function.comp_def]

theorem filter_contributions (h : ∀ other ∈ order, other ≠ part → drawn' other = drawn other) :
    (contributions order drawn').filter (·.1 ≠ part) =
      (contributions order drawn).filter (·.1 ≠ part) := by
  rw [contributions, contributions, List.filter_flatMap, List.filter_flatMap]
  apply List.flatMap_congr
  intro other hother
  obtain rfl | hne := eq_or_ne other part
  · have hnone : ∀ leaves : List Leaf,
        (leaves.map fun leaf ↦ (other, leaf)).filter (·.1 ≠ other) = [] := by
      intro leaves
      simp [List.filter_eq_nil_iff]
    rw [hnone, hnone]
  · rw [h other hother hne]

/-- A part that contributes nothing leaves those of the others. -/
theorem filter_contributions_of_nil (hnil : drawn part = []) :
    (contributions order drawn).filter (·.1 ≠ part) = contributions order drawn := by
  rw [List.filter_eq_self, contributions]
  intro m hm
  obtain ⟨other, -, hm⟩ := List.mem_flatMap.1 hm
  obtain ⟨leaf, hleaf, rfl⟩ := List.mem_map.1 hm
  apply decide_eq_true
  rintro rfl
  rw [hnil] at hleaf
  cases hleaf

end Contributions

end ChartLowering
