import ChartLowering.Proofs.Composite.Leaves
import ChartLowering.Proofs.Report

/-!
# Stages of an expansion

All composite marks are expanded in the same stages. The encoding is brought into normal form, then
comes what all parts share, and last the parts themselves are drawn.
-/

namespace ChartLowering

/-- What is particular to one composite mark, given a reader of shorthands. -/
structure Stages (Look : Type) where
  stage : Stage
  name : String
  /-- What reads the shorthands of the encoding. -/
  parse : Shorthand.Reader
  /-- Encodings that the mark does not take. -/
  refuse : Encoding → Report Unit
  /-- What the parts share. -/
  look : Record Value → Encoding → MarkDef → Report Look
  draw : Record Value → Look → Except Fault Expansion

namespace Stages

variable {Look : Type} {s : Stages Look} {spec : Record Value} {look : Look} {e : Expansion}

/-- Tells of selections, which are lost. -/
def tellSelections (s : Stages Look) (spec : Record Value) : Report Unit :=
  if !(spec.value "params").isNull then Report.warn s.stage (.selection (.text s.name))
  else pure ()

def lookOf (s : Stages Look) (spec : Record Value) : Report Look := do
  let encoding ← Encoding.normalize (spec.value "encoding") s.parse
  s.refuse encoding
  let mark ← spec.require "mark"
  s.tellSelections spec
  s.look (spec.put "encoding" (.object encoding)) encoding (.ofValue mark)

def expand (s : Stages Look) (spec : Record Value) : Report Expansion :=
  s.lookOf spec >>= fun look ↦ s.draw (Expansion.kept spec) look

theorem exists_look_of_expand (h : (s.expand spec).outcome = .ok e) :
    ∃ look, (s.lookOf spec).outcome = .ok look ∧ s.draw (Expansion.kept spec) look = .ok e := by
  rw [expand] at h
  exact Report.outcome_bind_eq_ok_iff.1 h

theorem exists_encoding_of_lookOf (h : (s.lookOf spec).outcome = .ok look) :
    ∃ encoding mark, (Encoding.normalize (spec.value "encoding") s.parse).outcome = .ok encoding ∧
      (s.refuse encoding).outcome = .ok () ∧ spec.require "mark" = .ok mark ∧
      (s.look (spec.put "encoding" (.object encoding)) encoding (.ofValue mark)).outcome =
        .ok look := by
  rw [lookOf] at h
  obtain ⟨encoding, hencoding, h⟩ := Report.outcome_bind_eq_ok_iff.1 h
  obtain ⟨⟨⟩, hrefuse, h⟩ := Report.outcome_bind_eq_ok_iff.1 h
  obtain ⟨mark, hmark, h⟩ := Report.outcome_bind_eq_ok_iff.1 h
  obtain ⟨-, -, h⟩ := Report.outcome_bind_eq_ok_iff.1 h
  exact ⟨encoding, mark, hencoding, hrefuse, hmark, h⟩

/-- What a part is drawn as, where the parts of a look are known. -/
def drawnBy (s : Stages Look) (drawn : Look → List Transform → String → List Leaf)
    (spec : Record Value) (part : String) : List Leaf :=
  match (s.lookOf spec).outcome with
  | .ok look => drawn look ((Expansion.written (Expansion.kept spec)).toOption.getD []) part
  | .error _ => []

/-- Where the leaves of a look are those of its parts, so are those of the expansion. -/
theorem leaves_of_expand {drawn : Look → List Transform → String → List Leaf} {order : List String}
    (hdraw : ∀ outer look e, s.draw outer look = .ok e →
      e.outer = outer ∧ e.leaves = order.flatMap (drawn look e.authored))
    (h : (s.expand spec).outcome = .ok e) : e.leaves = order.flatMap (s.drawnBy drawn spec) := by
  obtain ⟨look, hlook, hok⟩ := exists_look_of_expand h
  obtain ⟨houter, hleaves⟩ := hdraw _ look e hok
  have hdrawn : s.drawnBy drawn spec = drawn look e.authored := by
    funext part
    rw [drawnBy, hlook, Expansion.authored, houter]
  rw [hdrawn]
  exact hleaves

end Stages

/-- Parts lie along the axis of their direction, which has a field. -/
theorem ContinuousAxis.given_of_ofSpec {spec : Record Value} {orient : Orientation} {mark : String}
    {axis : ContinuousAxis} (h : (ofSpec spec orient mark).outcome = .ok axis) :
    axis.channel = orient.channel ∧ axis.definition.has "field" = true := by
  rw [ofSpec] at h
  obtain ⟨encoding, -, h⟩ := Report.outcome_bind_eq_ok_iff.1 h
  split at h
  · cases h
  · obtain ⟨members, -, h⟩ := Report.outcome_bind_eq_ok_iff.1 h
    split at h
    · rename_i hfield
      obtain rfl := Except.ok.inj h
      exact ⟨rfl, hfield⟩
    · cases h

end ChartLowering
