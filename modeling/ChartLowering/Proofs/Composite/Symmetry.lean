import ChartLowering.Composite.Registry
import ChartLowering.Proofs.Boxplot.Mirror
import ChartLowering.Proofs.Errorbar.Mirror

/-!
# Horizontal and vertical composite marks

Exchanging the axes of a specification and turning its mark does the same to all that it expands
into.
-/

namespace ChartLowering.Composite

/-- Where the direction of a composite mark is known, by its definition or because exactly one of
its axes is continuous, and no style of a part has a direction of its own, the mirror image of a
specification expands exactly if it does itself, and into the mirror image. -/
theorem expands_to_mirror_image (c : Composite) (spec : Record Value) (settings : Settings)
    (parse : Shorthand.Reader)
    (hdirected : ∀ encoding,
      (Encoding.normalize (spec.value "encoding") parse).outcome = .ok encoding →
        ContinuousAxis.Directed spec encoding)
    (hstyles : ∀ mark, spec.require "mark" = .ok mark → ∀ part ∈ c.parts,
      Part.Undirected (.ofValue mark) (c.members settings) part) :
    (c.expand (mirroredSpec spec) settings parse).result =
      (c.expand spec settings parse).result.map Expansion.mirrored := by
  cases c with
  | boxplot whiskers => exact Boxplot.result_expand_mirroredSpec hdirected hstyles
  | errorbar => exact Errorbar.result_expand_mirroredSpec hdirected hstyles

def upright : Record Value :=
  [("mark", .text "boxplot"), ("encoding", .object [("x", .text "g:N"), ("y", .text "v:Q")])]

def sideways : Record Value :=
  [("mark", .text "boxplot"), ("encoding", .object [("y", .text "g:N"), ("x", .text "v:Q")])]

/-- The boxplot along x is the mirror image of the one along y. -/
theorem expands_to_mirror_image_sideways :
    ∃ e, ((boxplot none).expand upright {}).outcome = .ok e ∧
      ((boxplot none).expand sideways {}).outcome = .ok e.mirrored := by
  have haxes : (do
      let encoding ← (Encoding.normalize (upright.value "encoding")).outcome
      pure (ContinuousAxis.isContinuous (encoding.value "x"),
        ContinuousAxis.isContinuous (encoding.value "y"))) = .ok (false, true) := by
    decide +kernel
  have hdirected : ∀ encoding,
      (Encoding.normalize (upright.value "encoding")).outcome = .ok encoding →
        ContinuousAxis.Directed upright encoding := by
    intro encoding hencoding
    rw [hencoding] at haxes
    obtain ⟨hx, hy⟩ := Prod.mk.inj (Except.ok.inj haxes)
    refine .inr ⟨rfl, ?_⟩
    rw [hx, hy]
    decide
  have hstyles : ∀ mark, upright.require "mark" = .ok mark → ∀ part ∈ (boxplot none).parts,
      Part.Undirected (.ofValue mark) ((boxplot none).members {}) part := by
    intro mark hmark
    obtain rfl := Except.ok.inj hmark
    decide +kernel
  have hmirror := expands_to_mirror_image (boxplot none) upright {} _ hdirected hstyles
  have hrun : (do
      let _ ← ((boxplot none).expand upright {}).outcome
      pure ()) = .ok () := by
    decide +kernel
  obtain ⟨e, he, -⟩ := bind_eq_ok_iff.1 hrun
  rw [Report.result_eq_some_iff.2 he] at hmirror
  exact ⟨e, he, Report.result_eq_some_iff.1 hmirror⟩

end ChartLowering.Composite
