import ChartLowering.Proofs.Encoding.Settled

/-!
# Types in normal encodings

Whatever is found when the field definitions of a normal encoding are gone through has a type, be it
the definition of a channel, an item of a list, or a condition.
-/

namespace ChartLowering

namespace Encoding

open ChannelDef

section Definitions

variable {parse : Shorthand.Reader} {channel : String} {v w : Value} {kept : Option Value}
  {members : Record Value} {fd : FieldDef}

/-- An object that is a field definition in its last form, or else has none but such a one for its
condition. -/
def Typed (v : Value) : Prop :=
  ∃ members : Record Value, v = .object members ∧ (isFieldDef v = true → Spelled members) ∧
    (isFieldDef v = false → ∀ condition, members.get? "condition" = some condition →
      isFieldDef condition = true → ∃ inner, condition = .object inner ∧ Spelled inner)

theorem exists_of_spellCondition (h : spellCondition channel v = .ok w)
    (hfield : isFieldDef v = true) : ∃ inner, w = .object inner ∧ Spelled inner := by
  obtain ⟨members, -, h⟩ := bind_eq_ok_iff.1 h
  rw [hfield, if_pos rfl] at h
  obtain ⟨spelled, hspelled, h⟩ := bind_eq_ok_iff.1 h
  exact ⟨spelled, (Except.ok.inj h).symm, spelled_of_spellField hspelled⟩

theorem typed_of_normalizeDef (h : (normalizeDef channel v parse).outcome = .ok (some w)) :
    Typed w := by
  obtain ⟨members, -, ⟨hfield, spelled, hspelled, hkept⟩ |
    ⟨hfield, spelled, hspelled, ⟨-, hkept⟩ | ⟨-, hkept⟩⟩⟩ := exists_of_normalizeDef h
  · obtain rfl := Option.some.inj hkept
    refine ⟨spelled, rfl, fun _ ↦ spelled_of_spellField hspelled, fun hno ↦ ?_⟩
    rw [isFieldDef_of_spellField hspelled, hfield] at hno
    cases hno
  · obtain rfl := Option.some.inj hkept
    refine ⟨spelled, rfl, fun hyes ↦ ?_, fun _ condition hcondition hyes ↦ ?_⟩
    · rw [isFieldDef_of_spellConditions hspelled, hfield] at hyes
      cases hyes
    · obtain ⟨_, kept, -, -, rfl⟩ | ⟨given, last, -, hgiven, hlast, rfl⟩ | ⟨hother, rfl⟩ :=
        exists_of_spellConditions hspelled
      · rw [Record.get?_put_self] at hcondition
        obtain rfl := Option.some.inj hcondition
        cases hyes
      · rw [Record.get?_put_self] at hcondition
        obtain rfl := Option.some.inj hcondition
        exact exists_of_spellCondition hlast hgiven
      · rw [(hother condition hcondition).2] at hyes
        cases hyes
  · cases hkept

theorem typed_of_normalizeChannel (h : (normalizeChannel channel v parse).outcome = .ok (some w)) :
    ∀ x ∈ w.itemsOrSelf, Typed x := by
  have hsingle (h : (normalizeDef channel v parse).outcome = .ok (some w)) :
      ∀ x ∈ w.itemsOrSelf, Typed x := by
    have htyped := typed_of_normalizeDef h
    obtain ⟨members, rfl, -⟩ := id htyped
    exact List.forall_mem_singleton.2 htyped
  cases v with
  | null => cases h
  | list items =>
      obtain ⟨found, hfound, h⟩ := Report.outcome_bind_eq_ok_iff.1 h
      rw [Report.outcome_mapM] at hfound
      have h := Except.ok.inj h
      split at h
      · cases h
      · obtain rfl := Option.some.inj h
        intro x hx
        obtain ⟨kept, hmem, rfl⟩ := List.mem_filterMap.1 hx
        obtain ⟨item, -, hitem⟩ := (mem_of_mapM_eq_ok hfound).1 hmem
        exact typed_of_normalizeDef hitem
  | _ => exact hsingle h

theorem type_isSome_of_ofMembers (hspelled : Spelled members)
    (h : FieldDef.ofMembers members = .ok fd) : fd.type.isSome = true := by
  obtain ⟨⟨type, htype⟩, -⟩ := hspelled
  have hread : FieldDef.readType (members.value "type") = .ok (some type) := by
    rw [htype, readType_name]
  obtain ⟨found, hfound, h⟩ := bind_eq_ok_iff.1 h
  obtain rfl := Except.ok.inj (hread.symm.trans hfound)
  obtain ⟨_, -, h⟩ := bind_eq_ok_iff.1 h
  obtain ⟨_, -, h⟩ := bind_eq_ok_iff.1 h
  obtain ⟨_, -, h⟩ := bind_eq_ok_iff.1 h
  obtain ⟨_, -, h⟩ := bind_eq_ok_iff.1 h
  obtain rfl := Except.ok.inj h
  rfl

/-- The field definition that is found in a definition is the definition itself or its
condition. -/
theorem anyFieldDef?_object_eq_some_iff :
    anyFieldDef? (.object members) = .ok (some fd) ↔
      (isFieldDef (.object members) = true ∧ FieldDef.ofMembers members = .ok fd) ∨
        (isFieldDef (.object members) = false ∧ ∃ condition inner,
          members.get? "condition" = some condition ∧ isFieldDef condition = true ∧
            condition.asRecord = .ok inner ∧ FieldDef.ofMembers inner = .ok fd) := by
  have hmember : (Value.object members).member? "condition" = members.get? "condition" := rfl
  cases hfield : isFieldDef (.object members) with
  | true =>
      rw [anyFieldDef?, fieldDef?, if_pos hfield]
      cases hread : FieldDef.ofMembers members with
      | error fault => simp [FieldDef.read, hread, bind, Except.bind, Functor.map, Except.map]
      | ok found =>
          simp [FieldDef.read, hread, bind, Except.bind, Functor.map, Except.map, pure, Except.pure]
  | false =>
      rw [anyFieldDef?, fieldDef?, if_neg (ne_true_of_eq_false hfield)]
      have hcondition : conditionalFieldDef? (.object members) = .ok (some fd) ↔
          ∃ condition inner, members.get? "condition" = some condition ∧
            isFieldDef condition = true ∧ condition.asRecord = .ok inner ∧
              FieldDef.ofMembers inner = .ok fd := by
        rw [conditionalFieldDef?, hmember]
        cases members.get? "condition" with
        | none => simp [pure, Except.pure]
        | some condition =>
            cases hcond : isFieldDef condition with
            | false => simp [hcond, pure, Except.pure]
            | true =>
                simp [hcond, bind_eq_ok_iff, pure, Except.pure]
      simpa [bind, Except.bind, pure, Except.pure] using hcondition

theorem Typed.type_isSome (htyped : Typed v) (h : anyFieldDef? v = .ok (some fd)) :
    fd.type.isSome = true := by
  obtain ⟨members, rfl, hself, hconditions⟩ := htyped
  obtain ⟨hfield, h⟩ | ⟨hfield, condition, inner, hcondition, hyes, hinner, h⟩ :=
    anyFieldDef?_object_eq_some_iff.1 h
  · exact type_isSome_of_ofMembers (hself hfield) h
  · obtain ⟨_, rfl, hspelled⟩ := hconditions hfield condition hcondition hyes
    obtain rfl := Except.ok.inj hinner
    exact type_isSome_of_ofMembers hspelled h

end Definitions

section Encodings

variable {parse : Shorthand.Reader} {members e : Record Value} {raw : Value}

theorem typed_of_normalizeMembers (h : (normalizeMembers members parse).outcome = .ok e) :
    ∀ d ∈ definitions e, Typed d.2 := by
  induction members generalizing e with
  | nil =>
      obtain rfl := Except.ok.inj h
      intro d hd
      cases hd
  | cons m rest ih =>
      obtain ⟨kept, hkept, h⟩ := Report.outcome_bind_eq_ok_iff.1 h
      obtain ⟨others, hothers, h⟩ := Report.outcome_bind_eq_ok_iff.1 h
      obtain rfl := Except.ok.inj h
      cases kept with
      | none => exact ih hothers
      | some w =>
          dsimp only
          rw [definitions_cons, List.forall_mem_append, List.forall_mem_map]
          exact ⟨typed_of_normalizeChannel hkept, ih hothers⟩

theorem typed_of_normalize (h : (normalize raw parse).outcome = .ok e) :
    ∀ d ∈ definitions e, Typed d.2 := by
  rw [normalize] at h
  split at h
  · obtain ⟨members, -, h⟩ := Report.outcome_bind_eq_ok_iff.1 h
    exact typed_of_normalizeMembers h
  · obtain rfl := Except.ok.inj h
    intro d hd
    cases hd

theorem nodup_keys_of_normalize (h : (normalize raw parse).outcome = .ok e)
    (hraw : ∀ members, raw.members = .ok members → members.keys.Nodup) : e.keys.Nodup := by
  rw [normalize] at h
  split at h
  · obtain ⟨members, hmembers, h⟩ := Report.outcome_bind_eq_ok_iff.1 h
    exact (hraw members hmembers).sublist (keys_sublist_of_normalizeMembers h)
  · obtain rfl := Except.ok.inj h
    exact List.nodup_nil

end Encodings

end Encoding

end ChartLowering
