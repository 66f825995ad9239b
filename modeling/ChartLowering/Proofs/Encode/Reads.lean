import ChartLowering.Encode.Position
import ChartLowering.Proofs.Encoding.Replaced

/-!
# What the encoders read of a field definition

The scale and the entries of a channel follow from a few members of its field definition. Two
definitions that agree on these are drawn alike, whatever else they have.
-/

namespace ChartLowering

open ChannelDef

/-- Two field definitions that differ at most in their titles and in further members other than the
place inside a band. -/
def FieldDef.DrawnAlike (fd fd' : FieldDef) : Prop :=
  ∃ title extras, fd' = { fd with title, extras } ∧
    extras.value "bandPosition" = fd.extras.value "bandPosition"

/-- Two objects are field definitions that agree on what the encoders read. -/
structure ChannelDef.ReadAlike (members others : Record Value) : Prop where
  isField : isFieldDef (.object members) = true
  isField' : isFieldDef (.object others) = true
  reading : (∃ fault, FieldDef.ofMembers members = .error fault ∧
      FieldDef.ofMembers others = .error fault) ∨
    ∃ fd fd', FieldDef.ofMembers members = .ok fd ∧ FieldDef.ofMembers others = .ok fd' ∧
      fd.DrawnAlike fd'
  datum : others.get? "datum" = members.get? "datum"
  condition : others.value "condition" = members.value "condition"

namespace FieldDef.DrawnAlike

variable {fd fd' : FieldDef}

theorem defaultType_eq (h : fd.DrawnAlike fd') (channel : String) (datum mark : Value) :
    Scale.defaultType channel (some fd') datum mark =
      Scale.defaultType channel (some fd) datum mark := by
  obtain ⟨title, extras, rfl, -⟩ := h
  rfl

theorem zeroOf_eq (h : fd.DrawnAlike fd') (channel : String) (parameters : Record Value)
    (type : Value) : Scale.zeroOf channel (some fd') parameters type =
      Scale.zeroOf channel (some fd) parameters type := by
  obtain ⟨title, extras, rfl, -⟩ := h
  rfl

theorem bandPosition_eq (h : fd.DrawnAlike fd') (settings : Settings) (mark : MarkDef) :
    ValueRef.bandPosition settings mark fd' = ValueRef.bandPosition settings mark fd := by
  obtain ⟨title, extras, rfl, hband⟩ := h
  rw [ValueRef.bandPosition, ValueRef.bandPosition, hband]
  rfl

theorem ofBand_eq (h : fd.DrawnAlike fd') (c : ValueRef.Context) (band : Value) :
    ValueRef.ofBand c fd' band = ValueRef.ofBand c fd band := by
  obtain ⟨title, extras, rfl, -⟩ := h
  rfl

theorem ofField_eq (h : fd.DrawnAlike fd') (scale suffix : Option String) (offset : Value) :
    ValueRef.ofField scale fd' suffix offset = ValueRef.ofField scale fd suffix offset := by
  obtain ⟨title, extras, rfl, -⟩ := h
  rfl

end FieldDef.DrawnAlike

namespace ChannelDef.ReadAlike

variable {members others : Record Value} (h : ReadAlike members others)

include h

theorem fieldDef?_eq : (∃ fault, fieldDef? (.object members) = .error fault ∧
      fieldDef? (.object others) = .error fault) ∨
    ∃ fd fd', fieldDef? (.object members) = .ok (some fd) ∧
      fieldDef? (.object others) = .ok (some fd') ∧ fd.DrawnAlike fd' := by
  rw [fieldDef?, fieldDef?, h.isField, h.isField', if_pos rfl, if_pos rfl, FieldDef.read,
    FieldDef.read]
  rcases h.reading with ⟨fault, hfault, hfault'⟩ | ⟨fd, fd', hfd, hfd', halike⟩
  · rw [hfault, hfault']
    exact .inl ⟨fault, rfl, rfl⟩
  · rw [hfd, hfd']
    exact .inr ⟨fd, fd', rfl, rfl, halike⟩

theorem ofMembers_eq (hscale : others.get? "scale" = members.get? "scale") (name channel : String)
    (mark : MarkDef) :
    Scale.ofMembers name channel mark others = Scale.ofMembers name channel mark members := by
  have hvalue : others.value "scale" = members.value "scale" := by
    rw [Record.value, hscale, Record.value]
  have hdatum : others.value "datum" = members.value "datum" := by
    rw [Record.value, h.datum, Record.value]
  rw [Scale.ofMembers, Scale.ofMembers, hscale, Scale.parametersOf, Scale.parametersOf, hvalue,
    hdatum]
  rcases h.fieldDef?_eq with ⟨fault, hfault, hfault'⟩ | ⟨fd, fd', hfd, hfd', halike⟩
  · rw [hfault, hfault']
  · rw [hfd, hfd']
    split
    · rfl
    · simp only [Scale.impliedType, halike.defaultType_eq, halike.zeroOf_eq, ok_bind]

theorem initScale?_eq (hscale : others.get? "scale" = members.get? "scale") (view channel : String)
    (mark : MarkDef) : UnitModel.initScale? view mark channel (.object others) =
      UnitModel.initScale? view mark channel (.object members) := by
  rw [UnitModel.initScale?, UnitModel.initScale?, Scale.ofDefinition?, Scale.ofDefinition?,
    Scale.scaledDef?, Scale.scaledDef?, h.isField, h.isField', Bool.true_or, if_pos rfl,
    Bool.true_or, if_pos rfl]
  dsimp only
  rw [h.ofMembers_eq hscale]
  rfl

theorem ofDefinition_eq (scale suffix : Option String) (offset : Value) :
    ValueRef.ofDefinition scale (.object others) suffix offset =
      ValueRef.ofDefinition scale (.object members) suffix offset := by
  have hdatum : (Value.object others).member? "datum" = (Value.object members).member? "datum" :=
    h.datum
  rw [ValueRef.ofDefinition, ValueRef.ofDefinition, hdatum]
  split
  · rfl
  · rcases h.fieldDef?_eq with ⟨fault, hfault, hfault'⟩ | ⟨fd, fd', hfd, hfd', halike⟩
    · rw [hfault, hfault']
      rfl
    · rw [hfd, hfd', ok_bind, ok_bind]
      exact halike.ofField_eq scale suffix offset

theorem ofShown_eq (c : ValueRef.Context) :
    ValueRef.ofShown c (.object others) = ValueRef.ofShown c (.object members) := by
  rw [ValueRef.ofShown, ValueRef.ofShown]
  simp only [h.ofDefinition_eq]
  rcases h.fieldDef?_eq with ⟨fault, hfault, hfault'⟩ | ⟨fd, fd', hfd, hfd', halike⟩
  · rw [hfault, hfault']
  · rw [hfd, hfd', ok_bind, ok_bind]
    dsimp only
    rw [halike.bandPosition_eq]
    simp only [halike.ofBand_eq]
    obtain ⟨title, extras, rfl, -⟩ := halike
    rfl

theorem midPoint_eq (c : ValueRef.Context) (default : Except Fault (Option ValueRef)) :
    ValueRef.midPoint c (.object others) default =
      ValueRef.midPoint c (.object members) default := by
  rw [ValueRef.midPoint, ValueRef.midPoint, h.isField, h.isField', Bool.true_or, if_pos rfl,
    Bool.true_or, if_pos rfl, h.ofShown_eq]

theorem override?_eq (settings : Settings) (mark : MarkDef) (channel : String)
    (scaleName : Option String) (scale : Option Scale) :
    InvalidData.override? settings mark channel scaleName scale (.object others) =
      InvalidData.override? settings mark channel scaleName scale (.object members) := by
  rw [InvalidData.override?, InvalidData.override?]
  rcases h.fieldDef?_eq with ⟨fault, hfault, hfault'⟩ | ⟨fd, fd', hfd, hfd', halike⟩
  · rw [hfault, hfault']
  · rw [hfd, hfd']
    obtain ⟨title, extras, rfl, -⟩ := halike
    rfl

theorem isConditional_eq : isConditional (.object others) = isConditional (.object members) := by
  rw [isConditional, isConditional, h.condition]

theorem conditions_eq :
    Encode.conditions (.object others) = Encode.conditions (.object members) := by
  rw [Encode.conditions, Encode.conditions, h.isConditional_eq]
  split
  · rename_i hconditional
    rw [isConditional] at hconditional
    have hget (r : Record Value) (hr : r.value "condition" = members.value "condition") :
        r.get? "condition" = some (members.value "condition") := by
      refine Record.get?_of_value hr fun hnull ↦ ?_
      rw [hnull] at hconditional
      cases hconditional
    show (do pure (← others.require "condition").itemsOrSelf : Except Fault (List Value)) =
      (do pure (← members.require "condition").itemsOrSelf)
    rw [Record.require, Record.require, hget others h.condition, hget members rfl]
  · rfl

end ChannelDef.ReadAlike

namespace UnitModel

variable {channel : String} {members others : Record Value} {s : Surroundings}
  {scale : Option Scale}

/-- Two units that show a channel in the same way: by the same scale, if any, and the same
entries. -/
structure DrawsAlike (m m' : UnitModel) (channel : String) : Prop where
  scale? : m'.scale? channel = m.scale? channel
  pointPosition : ∀ position drawn,
    m'.pointPosition channel position drawn = m.pointPosition channel position drawn
  nonPosition : ∀ fallback drawn,
    m'.nonPosition channel fallback drawn = m.nonPosition channel fallback drawn

theorem drawsAlike_of_readAlike (hchannel : channel ∉ s.first.keys)
    (h : ReadAlike members others) : (s.unit channel (some (.object members)) scale).DrawsAlike
      (s.unit channel (some (.object others)) scale) channel := by
  refine ⟨rfl, fun position drawn ↦ ?_, fun fallback drawn ↦ ?_⟩
  · simp only [UnitModel.pointPosition, invalidOverride?, s.definition_unit hchannel,
      h.midPoint_eq, h.override?_eq]
    rfl
  · simp only [UnitModel.nonPosition, fallbackRef, invalidOverride?, s.definition_unit hchannel,
      h.isConditional_eq, Encode.wrapped, h.conditions_eq, h.midPoint_eq, h.override?_eq]
    rfl

end UnitModel

end ChartLowering
