import ChartLowering.Composite.Registry
import ChartLowering.Proofs.Boxplot.Toggles
import ChartLowering.Proofs.Errorbar.Toggles

/-!
# Parts are independent of each other

Without its outliers a boxplot is nested in another way, and an error bar with one part left has no
layers at all. The leaves of all other parts stay the same, with the same steps before them.
-/

namespace ChartLowering

namespace Composite

/-- The leaves of an expansion in their order, each with the part that it is drawn for. -/
def contributions : Composite → Record Value → Settings →
    (parse : Shorthand.Reader := Shorthand.members) → List (String × Leaf)
  | boxplot whiskers, spec, settings, parse =>
      ChartLowering.contributions Boxplot.Look.drawingOrder
        (Boxplot.drawnBy spec settings whiskers parse)
  | errorbar, spec, settings, parse =>
      ChartLowering.contributions Errorbar.parts (Errorbar.drawnBy spec settings parse)

variable {part : String} {spec : Record Value} {settings : Settings} {parse : Shorthand.Reader}
  {m m' : Value}

theorem notMem_sharedKeys {c : Composite} (hpart : part ∈ c.parts) :
    part ∉ MarkDef.sharedKeys := by
  have hboxplot : ∀ part ∈ Boxplot.parts, part ∉ MarkDef.sharedKeys := by decide
  have herrorbar : ∀ part ∈ Errorbar.parts, part ∉ MarkDef.sharedKeys := by decide
  cases c with
  | boxplot whiskers => exact hboxplot part hpart
  | errorbar => exact herrorbar part hpart

theorem leaves_of_expand {c : Composite} {e : Expansion}
    (h : (c.expand spec settings parse).outcome = .ok e) :
    e.leaves = (c.contributions spec settings parse).map Prod.snd := by
  cases c with
  | boxplot whiskers => exact (Boxplot.leaves_of_expand h).trans contributions_map_snd.symm
  | errorbar => exact (Errorbar.leaves_of_expand h).trans contributions_map_snd.symm

theorem forget_expand_of_sameBut {c : Composite} (hpart : part ∈ c.parts)
    (h : (MarkDef.ofValue m).SameBut part (MarkDef.ofValue m')) :
    (fun _ ↦ ()) <$> c.expand (spec.put "mark" m') settings parse =
      (fun _ ↦ ()) <$> c.expand (spec.put "mark" m) settings parse := by
  have hshared := notMem_sharedKeys hpart
  cases c with
  | boxplot whiskers => exact Boxplot.forget_expand_of_sameBut h hshared
  | errorbar => exact Errorbar.forget_expand_of_sameBut h hshared

theorem filter_contributions_of_sameBut {c : Composite} (hpart : part ∈ c.parts)
    (h : (MarkDef.ofValue m).SameBut part (MarkDef.ofValue m')) :
    (c.contributions (spec.put "mark" m') settings parse).filter (·.1 ≠ part) =
      (c.contributions (spec.put "mark" m) settings parse).filter (·.1 ≠ part) := by
  have hshared := notMem_sharedKeys hpart
  cases c with
  | boxplot whiskers =>
      apply filter_contributions
      intro other hmem hother
      exact Boxplot.drawnBy_of_sameBut h hshared hmem hother
  | errorbar =>
      apply filter_contributions
      intro other hmem hother
      exact Errorbar.drawnBy_of_sameBut h hshared hmem hother

theorem filter_contributions_of_not_drawn {c : Composite} (hpart : part ∈ c.parts)
    (hoff : Part.isDrawn (.ofValue m) (c.members settings) part = false) :
    (c.contributions (spec.put "mark" m) settings parse).filter (·.1 ≠ part) =
      c.contributions (spec.put "mark" m) settings parse := by
  cases c with
  | boxplot whiskers =>
      have hmem : part ∈ Boxplot.Look.drawingOrder := by
        revert hpart
        simp only [parts, Boxplot.parts, Boxplot.Look.drawingOrder, List.mem_cons,
          List.not_mem_nil, or_false]
        rintro (rfl | rfl | rfl | rfl | rfl) <;> decide
      exact filter_contributions_of_nil (Boxplot.drawnBy_of_not_drawn hoff hmem)
  | errorbar => exact filter_contributions_of_nil (Errorbar.drawnBy_of_not_drawn hoff hpart)

/-- Changing what a mark definition says about one part changes neither whether the mark expands
nor what is told on the way. The leaves of all other parts stay as they are, in the same order and
with all their steps; a part that is switched off leaves just these. -/
theorem other_parts_unchanged (c : Composite) (spec : Record Value) (settings : Settings)
    (parse : Shorthand.Reader) {m m' : Value} (hpart : part ∈ c.parts)
    (h : (MarkDef.ofValue m).SameBut part (MarkDef.ofValue m')) :
    (fun _ ↦ ()) <$> c.expand (spec.put "mark" m') settings parse =
        (fun _ ↦ ()) <$> c.expand (spec.put "mark" m) settings parse ∧
      ∀ e e' : Expansion, (c.expand (spec.put "mark" m) settings parse).outcome = .ok e →
        (c.expand (spec.put "mark" m') settings parse).outcome = .ok e' →
        e.leaves = (c.contributions (spec.put "mark" m) settings parse).map Prod.snd ∧
        e'.leaves = (c.contributions (spec.put "mark" m') settings parse).map Prod.snd ∧
        (c.contributions (spec.put "mark" m') settings parse).filter (·.1 ≠ part) =
          (c.contributions (spec.put "mark" m) settings parse).filter (·.1 ≠ part) ∧
        (Part.isDrawn (.ofValue m') (c.members settings) part = false →
          e'.leaves = ((c.contributions (spec.put "mark" m) settings parse).filter
            (·.1 ≠ part)).map Prod.snd) := by
  refine ⟨forget_expand_of_sameBut hpart h, ?_⟩
  intro e e' he he'
  have hothers := @filter_contributions_of_sameBut part spec settings parse m m' c hpart h
  refine ⟨leaves_of_expand he, leaves_of_expand he', hothers, ?_⟩
  intro hoff
  rw [← hothers, filter_contributions_of_not_drawn hpart hoff]
  exact leaves_of_expand he'

def grouped : Record Value :=
  [("encoding", .object [("x", .text "g:N"), ("y", .text "v:Q")])]

def withoutPoints : Value := .object [("type", .text "boxplot"), ("outliers", .bool false)]

/-- Without its points a boxplot keeps the leaves of all other parts. -/
theorem other_parts_unchanged_withoutPoints :
    ∃ e e', ((boxplot none).expand (grouped.put "mark" (.text "boxplot")) {}).outcome = .ok e ∧
      ((boxplot none).expand (grouped.put "mark" withoutPoints) {}).outcome = .ok e' ∧
      e.leaves = ((boxplot none).contributions (grouped.put "mark" (.text "boxplot")) {}).map
        Prod.snd ∧
      e'.leaves = (((boxplot none).contributions (grouped.put "mark" (.text "boxplot")) {}).filter
        (·.1 ≠ "outliers")).map Prod.snd := by
  have hsame : (MarkDef.ofValue (.text "boxplot")).SameBut "outliers"
      (MarkDef.ofValue withoutPoints) := by
    intro key hkey
    rw [withoutPoints, MarkDef.ofValue, Record.get?_cons, Record.get?_cons, if_neg hkey]
    exact (Record.get?_cons _ _ _ _).symm
  have hrun : (do
      let _ ← ((boxplot none).expand (grouped.put "mark" (.text "boxplot")) {}).outcome
      let _ ← ((boxplot none).expand (grouped.put "mark" withoutPoints) {}).outcome
      pure ()) = .ok () := by
    decide +kernel
  obtain ⟨e, he, hrun⟩ := bind_eq_ok_iff.1 hrun
  obtain ⟨e', he', -⟩ := bind_eq_ok_iff.1 hrun
  have hleaves :=
    (other_parts_unchanged (boxplot none) grouped {} _ (by decide) hsame).2 e e' he he'
  exact ⟨e, e', he, he', hleaves.1, hleaves.2.2.2 (by decide +kernel)⟩

end Composite

end ChartLowering
