import ChartLowering.Proofs.Encode.Reads
import ChartLowering.Proofs.FieldDef.Checked

/-!
# Definitions that are spelled out alike

Types and bins are spelled out from a few members of a field definition. Definitions that agree on
these are read alike afterwards.
-/

namespace ChartLowering

open ChannelDef

namespace Encoding

variable {channel key : String} {members others spelled : Record Value} {type : FieldType}

theorem get?_of_spellField (htype : key ≠ "type") (hbin : key ≠ "bin")
    (h : spellField channel members = .ok spelled) : spelled.get? key = members.get? key := by
  obtain ⟨type, -, rfl⟩ := spellField_eq_ok_iff.1 h
  cases (members.put "type" (.text type.name)).get? "bin" with
  | none => exact Record.get?_put_of_ne _ _ htype
  | some bin =>
      rw [Option.elim_some, Record.get?_put_of_ne _ _ hbin, Record.get?_put_of_ne _ _ htype]

theorem value_bin_of_spellField (h : spellField channel members = .ok spelled) :
    spelled.value "bin" = spelledBin channel (members.value "bin") := by
  obtain ⟨type, -, rfl⟩ := spellField_eq_ok_iff.1 h
  have hbin : (members.put "type" (.text type.name)).get? "bin" = members.get? "bin" :=
    Record.get?_put_of_ne _ _ (by decide)
  rw [hbin, Record.value]
  cases hget : members.get? "bin" with
  | none =>
      rw [Option.elim_none, Record.get?_put_of_ne _ _ (by decide), Record.value, hget]
      rfl
  | some bin =>
      rw [Option.elim_some, Record.get?_put_self, Record.value, hget]
      rfl

theorem value_type_of_spellField (h : spellField channel members = .ok spelled)
    (htype : typeOf channel members = .ok type) : spelled.value "type" = .text type.name := by
  obtain ⟨found, hfound, rfl⟩ := spellField_eq_ok_iff.1 h
  obtain rfl := Except.ok.inj (htype.symm.trans hfound)
  cases (members.put "type" (.text type.name)).get? "bin" with
  | none => exact Record.value_put_self
  | some bin => rw [Option.elim_some, Record.value_put_of_ne (by decide), Record.value_put_self]

theorem value_bandPosition_without (members : Record Value) (key : String)
    (hkey : key ≠ "bandPosition") :
    (members.without (key :: Value.attributeKeys)).value "bandPosition" =
      members.value "bandPosition" := by
  rw [Record.value, Record.get?_without_of_notMem, Record.value]
  rw [List.mem_cons, not_or]
  exact ⟨Ne.symm hkey, by decide⟩

/-- Two field definitions that come to the same once their types and bins are spelled out. -/
structure Agree (channel : String) (members others : Record Value) : Prop where
  isField : isFieldDef (.object members) = true
  isField' : isFieldDef (.object others) = true
  type : typeOf channel others = typeOf channel members
  field : others.value "field" = members.value "field"
  aggregate : others.value "aggregate" = members.value "aggregate"
  bin : Value.optional Binning.ofValue? (spelledBin channel (others.value "bin")) =
    Value.optional Binning.ofValue? (spelledBin channel (members.value "bin"))
  timeUnit : others.value (FieldDef.timeUnitKey others) =
    members.value (FieldDef.timeUnitKey members)
  bandPosition : others.value "bandPosition" = members.value "bandPosition"
  datum : others.get? "datum" = members.get? "datum"
  condition : others.value "condition" = members.value "condition"

theorem timeUnitKey_of_spellField (h : spellField channel members = .ok spelled) :
    FieldDef.timeUnitKey spelled = FieldDef.timeUnitKey members := by
  rw [FieldDef.timeUnitKey, FieldDef.timeUnitKey, has_of_spellField (by decide) (by decide) h]

theorem ofMembers_of_spellField (h : spellField channel members = .ok spelled)
    (htype : typeOf channel members = .ok type) : FieldDef.ofMembers spelled = (do
      let field ← Value.optional Value.text? (members.value "field")
      let aggregate ← Value.optional Operation.ofValue? (members.value "aggregate")
      let bin ← Value.optional Binning.ofValue? (spelledBin channel (members.value "bin"))
      let timeUnit ← Value.optional Operation.ofValue?
        (members.value (FieldDef.timeUnitKey members))
      pure
        { field, type := some type, aggregate, bin, timeUnit, title := spelled.value "title"
          extras := spelled.without (FieldDef.timeUnitKey members :: Value.attributeKeys) }) := by
  have hvalue {key : String} (htype : key ≠ "type") (hbin : key ≠ "bin") :
      spelled.value key = members.value key := by
    rw [Record.value, get?_of_spellField htype hbin h, Record.value]
  have hunit : spelled.value (FieldDef.timeUnitKey members) =
      members.value (FieldDef.timeUnitKey members) :=
    hvalue (FieldDef.timeUnitKey_ne members (by decide) (by decide)).symm
      (FieldDef.timeUnitKey_ne members (by decide) (by decide)).symm
  rw [FieldDef.ofMembers, value_type_of_spellField h htype, readType_name, ok_bind,
    hvalue (by decide) (by decide), hvalue (by decide) (by decide), value_bin_of_spellField h,
    timeUnitKey_of_spellField h, hunit]

theorem Agree.exists_spellField_iff (h : Agree channel members others) :
    (∃ spelled, spellField channel members = .ok spelled) ↔
      ∃ spelled, spellField channel others = .ok spelled := by
  simp only [spellField_eq_ok_iff, h.type]
  constructor
  · rintro ⟨_, type, htype, -⟩
    exact ⟨_, type, htype, rfl⟩
  · rintro ⟨_, type, htype, -⟩
    exact ⟨_, type, htype, rfl⟩

theorem Agree.readAlike {spelled' : Record Value} (h : Agree channel members others)
    (hspelled : spellField channel members = .ok spelled)
    (hspelled' : spellField channel others = .ok spelled') : ReadAlike spelled spelled' := by
  obtain ⟨type, htype, -⟩ := spellField_eq_ok_iff.1 hspelled
  have hread := ofMembers_of_spellField hspelled htype
  have hread' := ofMembers_of_spellField hspelled' (h.type.trans htype)
  rw [h.field, h.aggregate, h.bin, h.timeUnit] at hread'
  have hband : (spelled'.without (FieldDef.timeUnitKey others :: Value.attributeKeys)).value
      "bandPosition" = (spelled.without (FieldDef.timeUnitKey members ::
        Value.attributeKeys)).value "bandPosition" := by
    rw [value_bandPosition_without _ _ (FieldDef.timeUnitKey_ne _ (by decide) (by decide)).symm,
      value_bandPosition_without _ _ (FieldDef.timeUnitKey_ne _ (by decide) (by decide)).symm,
      Record.value, get?_of_spellField (by decide) (by decide) hspelled', Record.value,
      get?_of_spellField (by decide) (by decide) hspelled]
    exact h.bandPosition
  refine ⟨(isFieldDef_of_spellField hspelled).trans h.isField,
    (isFieldDef_of_spellField hspelled').trans h.isField', ?_, ?_, ?_⟩
  · rw [hread, hread']
    cases Value.optional Value.text? (members.value "field") with
    | error fault => exact .inl ⟨fault, rfl, rfl⟩
    | ok field =>
    cases Value.optional Operation.ofValue? (members.value "aggregate") with
    | error fault => exact .inl ⟨fault, rfl, rfl⟩
    | ok aggregate =>
    cases Value.optional Binning.ofValue? (spelledBin channel (members.value "bin")) with
    | error fault => exact .inl ⟨fault, rfl, rfl⟩
    | ok bin =>
    cases Value.optional Operation.ofValue? (members.value (FieldDef.timeUnitKey members)) with
    | error fault => exact .inl ⟨fault, rfl, rfl⟩
    | ok timeUnit => exact .inr ⟨_, _, rfl, rfl, _, _, rfl, hband⟩
  · rw [get?_of_spellField (by decide) (by decide) hspelled',
      get?_of_spellField (by decide) (by decide) hspelled]
    exact h.datum
  · rw [Record.value, get?_of_spellField (by decide) (by decide) hspelled', Record.value,
      get?_of_spellField (by decide) (by decide) hspelled]
    exact h.condition

end Encoding

end ChartLowering
