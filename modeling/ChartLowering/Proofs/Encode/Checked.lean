import ChartLowering.Proofs.Encoding.Agree
import ChartLowering.Proofs.FieldDef.Checked

/-!
# Drawing checked field definitions

A unit draws a checked field definition like the object that it was read from, unless that object
gives `null` for its scale.
-/

namespace ChartLowering

open ChannelDef

namespace FieldDef

variable {channel key : String} {d base members others : Record Value} {fd : FieldDef}

/-- The members of a definition over those of its shorthand, which itself is taken out. -/
def LaidOver (base d members : Record Value) : Prop :=
  ∀ key, key ≠ "shorthand" → members.get? key = (d.get? key).or (base.get? key)

theorem laidOver_erase (d : Record Value) : LaidOver [] d (d.erase "shorthand") := by
  intro key hkey
  rw [Record.get?_erase_of_ne _ hkey, Record.get?_nil, Option.or_none]

theorem laidOver_override (hkeys : d.keys.Nodup) (base : Record Value) :
    LaidOver base d (base.override (d.erase "shorthand")) := by
  intro key hkey
  have herased : (d.erase "shorthand").keys.Nodup :=
    hkeys.sublist (List.filter_sublist.map Prod.fst)
  rw [Record.get?_override herased, Record.get?_erase_of_ne _ hkey]

section Below

variable {parse : Shorthand.Reader}

theorem below_of_text {s : String} {found : Record Value}
    (hget : d.get? "shorthand" = some (.text s)) (hfound : parse s = .ok found) :
    below d parse = found := by
  simp only [below, hget, hfound]
  rfl

theorem below_of_plain (h : (d.value "shorthand").isText = false) : below d parse = [] := by
  rw [below]
  split
  · rename_i s hget
    rw [Record.value_of_get? hget] at h
    cases h
  · rfl

theorem mem_below (hparse : Shorthand.Documented parse) {m : String × Value}
    (hm : m ∈ below d parse) : m.1 ∈ Shorthand.keys ∧ m.2 ≠ .null := by
  rw [below] at hm
  split at hm
  · rename_i s hs
    cases hfound : parse s with
    | error fault =>
        rw [hfound] at hm
        cases hm
    | ok found =>
        rw [hfound] at hm
        exact hparse.given s found hfound m hm
  · cases hm

theorem get?_below (hparse : Shorthand.Documented parse) (hkey : key ∉ Shorthand.keys) :
    (below d parse).get? key = none := by
  by_contra hsome
  obtain ⟨v, hv⟩ := Option.ne_none_iff_exists'.1 hsome
  exact hkey (mem_below hparse (Record.mem_of_get? hv)).1

/-- Nothing comes up from below where `null` was given. -/
theorem Kept.get?_below (hkept : Kept d parse) (hnull : d.get? key = some .null) :
    (below d parse).get? key = none := by
  refine Record.get?_of_notMem fun hmem ↦ ?_
  exact hkept.shorthand key hmem hnull

end Below

section Alike

variable {parse : Shorthand.Reader} (hparse : Shorthand.Documented parse) (hkeys : d.keys.Nodup)
  (hread : ofMembers d = .ok fd) (hkept : Kept d parse)
  (hmembers : LaidOver (below d parse) d members)
  (hothers : LaidOver (below d parse) fd.stored others)

include hmembers hothers

theorem get?_eq_of_kept (hkey : key ≠ "shorthand") (hnull : d.get? key ≠ some .null)
    (hget : fd.stored.get? key = (d.value key).given?) : others.get? key = members.get? key := by
  rw [hothers key hkey, hget, hmembers key hkey, Record.value]
  cases hd : d.get? key with
  | none => rfl
  | some v =>
      cases v with
      | null => exact (hnull hd).elim
      | _ => rfl

include hkept

theorem value_eq_of_kept (hkey : key ≠ "shorthand")
    (hget : fd.stored.get? key = (d.value key).given?) :
    others.value key = members.value key := by
  by_cases hnull : d.get? key = some .null
  · rw [Record.value, hothers key hkey, hget, hkept.get?_below hnull, Record.value, Record.value,
      hmembers key hkey, hnull]
    rfl
  · rw [Record.value, get?_eq_of_kept hmembers hothers hkey hnull hget, Record.value]

include hkeys hread

theorem aggregate_alike : others.value "aggregate" = members.value "aggregate" :=
  value_eq_of_kept hkept hmembers hothers (by decide) (hkept.get?_aggregate hkeys hread)

omit hkept in
theorem typeOf_alike_of_given (hgiven : d.value "type" ≠ .null) (channel : String) :
    Encoding.typeOf channel others = Encoding.typeOf channel members := by
  obtain ⟨htype, -⟩ := ofMembers_eq_ok_iff.1 hread
  obtain ⟨type, hnamed, hsome⟩ := exists_of_readType hgiven htype
  have hother := hothers "type" (by decide)
  rw [get?_stored_type hkeys hread, hsome, Option.map_some, Option.some_or] at hother
  have hmember : members.value "type" = d.value "type" := by
    rw [Record.value, hmembers _ (by decide), Record.value]
    cases hd : d.get? "type" with
    | none => exact (hgiven (Record.value_of_none hd)).elim
    | some v => rfl
  rw [Encoding.typeOf_of_read (Record.value_of_get? hother) Value.noConfusion
      (FieldType.read_name type), Encoding.typeOf_of_read hmember hgiven hnamed]

theorem isFieldDef_alike (hfield : d.has "field" = true) :
    isFieldDef (.object members) = true ∧ isFieldDef (.object others) = true := by
  constructor
  · have hhas : members.has "field" = true := by
      rw [Record.has_eq_isSome] at hfield ⊢
      rw [hmembers _ (by decide), Option.isSome_or, hfield, Bool.true_or]
    rw [isFieldDef, hhas, Bool.true_or]
  · rcases hkept.field with hgiven | hcount
    · have hhas : others.has "field" = true := by
        rw [Record.has_eq_isSome, hothers _ (by decide), hkept.get?_field hkeys hread]
        cases hv : d.value "field" with
        | null => exact (hgiven hv).elim
        | _ => rfl
      rw [isFieldDef, hhas, Bool.true_or]
    · have hothersCount : others.value "aggregate" = .text "count" := by
        have hget := hkept.get?_aggregate hkeys hread
        rw [hcount] at hget
        exact Record.value_of_get? ((hothers _ (by decide)).trans (by rw [hget]; rfl))
      rw [isFieldDef, hothersCount, beq_self_eq_true, Bool.or_true]

include hparse

theorem timeUnit_alike_of_has {v : Value} (hd : d.get? "timeUnit" = some v) :
    others.value (timeUnitKey others) = members.value (timeUnitKey members) ∧
      others.value "timeUnit" = members.value "timeUnit" := by
  have hkey := timeUnitKey_of_get? hd
  have hmember := hmembers "timeUnit" (by decide)
  rw [hd, Option.some_or] at hmember
  have hother := hothers "timeUnit" (by decide)
  rw [hkept.get?_timeUnit hkeys hread, hkey, Record.value_of_get? hd] at hother
  rw [timeUnitKey_of_get? hmember, Record.value_of_get? hmember]
  by_cases hnull : v = .null
  · subst hnull
    have hnone : others.get? "timeUnit" = none := by
      rw [hother, hkept.get?_below hd]
      rfl
    have hgone : others.get? "time_unit" = none := by
      have hextra : fd.stored.get? "time_unit" = none := by
        rw [hkept.get?_extra hkeys hread (by rw [hkey]; decide), hkept.timeUnit hd]
        rfl
      rw [hothers _ (by decide), hextra, get?_below hparse (by decide)]
      rfl
    rw [timeUnitKey_of_none hnone, Record.value_of_none hgone, Record.value_of_none hnone]
    exact ⟨rfl, rfl⟩
  · have hsome : others.get? "timeUnit" = some v := by
      rw [hother]
      cases v <;> first | rfl | exact (hnull rfl).elim
    rw [timeUnitKey_of_get? hsome, Record.value_of_get? hsome]
    exact ⟨rfl, rfl⟩

theorem timeUnit_alike_of_other (hd : d.get? "timeUnit" = none) :
    others.value (timeUnitKey others) = members.value (timeUnitKey members) ∧
      (d.value "type" = .null → (below d parse).get? "type" = none →
        (others.value "timeUnit").truthy = (members.value "timeUnit").truthy) := by
  have hmember := hmembers "timeUnit" (by decide)
  rw [hd, Option.none_or] at hmember
  have hother := hothers "timeUnit" (by decide)
  rw [hkept.get?_timeUnit hkeys hread, timeUnitKey_of_none hd] at hother
  cases hbelow : (below d parse).get? "timeUnit" with
  | some u =>
      have halone : d.value "time_unit" = .null := by
        apply hkept.alone
        rw [Record.has_eq_isSome, hbelow]
        rfl
      rw [halone, hbelow] at hother
      have hother : others.get? "timeUnit" = some u := hother
      rw [hbelow] at hmember
      rw [timeUnitKey_of_get? hmember, timeUnitKey_of_get? hother, Record.value_of_get? hmember,
        Record.value_of_get? hother]
      exact ⟨rfl, fun _ _ ↦ rfl⟩
  | none =>
      rw [hbelow] at hmember hother
      have hmember' : members.value "time_unit" = d.value "time_unit" := by
        rw [Record.value, hmembers _ (by decide), get?_below hparse (by decide), Option.or_none,
          Record.value]
      rw [timeUnitKey_of_none hmember, hmember', Record.value_of_none hmember]
      by_cases hnull : d.value "time_unit" = .null
      · rw [hnull] at hother
        have hother : others.get? "timeUnit" = none := hother
        have hgone : others.get? "time_unit" = none := by
          rw [hothers _ (by decide), get?_stored_otherName hkeys hread hd,
            get?_below hparse (by decide)]
          rfl
        rw [timeUnitKey_of_none hother, Record.value_of_none hgone, Record.value_of_none hother,
          hnull]
        exact ⟨rfl, fun _ _ ↦ rfl⟩
      · have hsome : others.get? "timeUnit" = some (d.value "time_unit") := by
          rw [hother]
          cases hv : d.value "time_unit" <;> first | rfl | exact (hnull hv).elim
        rw [timeUnitKey_of_get? hsome, Record.value_of_get? hsome]
        exact ⟨rfl, hkept.type hd⟩

/-- The time unit is the same, and without a type it decides on the default type in the same
way. -/
theorem timeUnit_alike : others.value (timeUnitKey others) = members.value (timeUnitKey members) ∧
    (d.value "type" = .null → (below d parse).get? "type" = none →
      (others.value "timeUnit").truthy = (members.value "timeUnit").truthy) := by
  cases hd : d.get? "timeUnit" with
  | some v =>
      obtain ⟨hunit, hsame⟩ := timeUnit_alike_of_has hparse hkeys hread hkept hmembers hothers hd
      exact ⟨hunit, fun _ _ ↦ congrArg Value.truthy hsame⟩
  | none => exact timeUnit_alike_of_other hparse hkeys hread hkept hmembers hothers hd

theorem bin_alike (channel : String) :
    Encoding.asksBinning (others.value "bin") = Encoding.asksBinning (members.value "bin") ∧
      Value.optional Binning.ofValue? (Encoding.spelledBin channel (others.value "bin")) =
        Value.optional Binning.ofValue? (Encoding.spelledBin channel (members.value "bin")) := by
  have hbelow : (below d parse).get? "bin" = none := get?_below hparse (by decide)
  have hmember : members.value "bin" = d.value "bin" := by
    rw [Record.value, hmembers _ (by decide), hbelow, Option.or_none, Record.value]
  have hother : others.value "bin" = fd.stored.value "bin" := by
    rw [Record.value, hothers _ (by decide), hbelow, Option.or_none, Record.value]
  rw [hmember, hother]
  exact hkept.bin_alike hkeys hread channel

theorem typeOf_alike_of_null (hnull : d.value "type" = .null) (channel : String) :
    Encoding.typeOf channel others = Encoding.typeOf channel members := by
  obtain ⟨htype, -⟩ := ofMembers_eq_ok_iff.1 hread
  rw [hnull] at htype
  have hother := hothers "type" (by decide)
  rw [get?_stored_type hkeys hread, ← Except.ok.inj htype, Option.map_none, Option.none_or]
    at hother
  have hsame : others.value "type" = members.value "type" := by
    rw [Record.value, hother, Record.value, hmembers _ (by decide)]
    cases hd : d.get? "type" with
    | none => rfl
    | some v =>
        obtain rfl : v = .null := (Record.value_of_get? hd).symm.trans hnull
        rw [hkept.get?_below hd]
        rfl
  cases hbelow : (below d parse).get? "type" with
  | some v =>
      have hgiven := (mem_below hparse (Record.mem_of_get? hbelow)).2
      have hvalue : others.value "type" = v := Record.value_of_get? (hother.trans hbelow)
      rw [Encoding.typeOf, Encoding.typeOf, ← hsame, hvalue]
      cases v <;> first | rfl | exact (hgiven rfl).elim
  | none =>
      obtain ⟨-, htruthy⟩ := timeUnit_alike hparse hkeys hread hkept hmembers hothers
      have hdefault :
          Encoding.defaultType others channel = Encoding.defaultType members channel := by
        rw [Encoding.defaultType, Encoding.defaultType, htruthy hnull hbelow,
          (bin_alike hparse hkeys hread hkept hmembers hothers channel).1,
          aggregate_alike hkeys hread hkept hmembers hothers]
      rw [Encoding.typeOf, Encoding.typeOf, hsame, hdefault]

/-- Types are found alike, be they given, spelled in the shorthand, or implied. -/
theorem typeOf_alike (channel : String) :
    Encoding.typeOf channel others = Encoding.typeOf channel members := by
  by_cases hnull : d.value "type" = .null
  · exact typeOf_alike_of_null hparse hkeys hread hkept hmembers hothers hnull channel
  · exact typeOf_alike_of_given hkeys hread hmembers hothers hnull channel

theorem agree (hfield : d.has "field" = true) (channel : String) :
    Encoding.Agree channel members others := by
  have hvalue {key : String} (hkey : key ≠ "shorthand")
      (hget : fd.stored.get? key = (d.value key).given?) : others.value key = members.value key :=
    value_eq_of_kept hkept hmembers hothers hkey hget
  obtain ⟨hisField, hisField'⟩ := isFieldDef_alike hkeys hread hkept hmembers hothers hfield
  refine
    { isField := hisField
      isField' := hisField'
      type := typeOf_alike hparse hkeys hread hkept hmembers hothers channel
      field := hvalue (by decide) (hkept.get?_field hkeys hread)
      aggregate := aggregate_alike hkeys hread hkept hmembers hothers
      bin := (bin_alike hparse hkeys hread hkept hmembers hothers channel).2
      timeUnit := (timeUnit_alike hparse hkeys hread hkept hmembers hothers).1
      bandPosition := ?_, datum := ?_, condition := ?_ }
  · exact hvalue (by decide) (hkept.get?_further hkeys hread (by decide) (by decide) (by decide))
  · exact get?_eq_of_kept hmembers hothers (by decide) hkept.datum
      (hkept.get?_further hkeys hread (by decide) (by decide) (by decide))
  · exact hvalue (by decide) (hkept.get?_further hkeys hread (by decide) (by decide) (by decide))

end Alike

section Spelling

variable {v : Value} {raw : Record Value} {parse : Shorthand.Reader}

theorem spelledMembers_of_text {s : String}
    (hraw : Encoding.rawMembers channel v parse = .ok raw)
    (hs : raw.get? "shorthand" = some (.text s)) : Encoding.spelledMembers channel v parse =
      (·.override (raw.erase "shorthand")) <$> Encoding.shorthandMembers s parse := by
  rw [Encoding.spelledMembers, hraw, ok_bind]
  dsimp only
  rw [hs]
  rfl

theorem spelledMembers_of_plain
    (hraw : Encoding.rawMembers channel v parse = .ok raw)
    (hs : (raw.value "shorthand").isText = false) :
    Encoding.spelledMembers channel v parse = .ok (raw.erase "shorthand") := by
  rw [Encoding.spelledMembers, hraw, ok_bind]
  dsimp only
  split
  · rename_i s hget
    rw [Record.value_of_get? hget] at hs
    cases hs
  · rfl

end Spelling

theorem members_of_shorthandMembers {s : String} {parse : Shorthand.Reader}
    (h : Encoding.shorthandMembers s parse = .ok base) : parse s = .ok base := by
  obtain ⟨found, hfound, h⟩ := bind_eq_ok_iff.1 h
  split at h
  · cases h
  · obtain rfl := Except.ok.inj h
    exact hfound

/-- A definition and the checked one agree once they are spelled out. What is given for the scale is
lost if it is `null`. -/
structure SpelledAlike (channel : String) (d members others : Record Value) : Prop where
  agree : Encoding.Agree channel members others
  scale : members.get? "scale" = d.get? "scale"
  scale' : others.get? "scale" = (d.value "scale").given?

theorem SpelledAlike.scale_eq {members others : Record Value}
    (h : SpelledAlike channel d members others) (hnull : d.get? "scale" ≠ some .null) :
    others.get? "scale" = members.get? "scale" := by
  rw [h.scale', h.scale, Record.value]
  cases hd : d.get? "scale" with
  | none => rfl
  | some v =>
      cases v with
      | null => exact (hnull hd).elim
      | _ => rfl

theorem SpelledAlike.scale_ne {members others : Record Value}
    (h : SpelledAlike channel d members others) (hnull : d.get? "scale" = some .null) :
    members.get? "scale" = some .null ∧ others.get? "scale" ≠ some .null := by
  rw [h.scale', h.scale, Record.value_of_get? hnull]
  exact ⟨hnull, fun h ↦ by cases h⟩

theorem LaidOver.spelledAlike {parse : Shorthand.Reader} (hparse : Shorthand.Documented parse)
    (hkeys : d.keys.Nodup) (hfield : d.has "field" = true) (hread : ofMembers d = .ok fd)
    (hkept : Kept d parse) (hmembers : LaidOver (below d parse) d members)
    (hothers : LaidOver (below d parse) fd.stored others) (channel : String) :
    SpelledAlike channel d members others := by
  have hbelow : (below d parse).get? "scale" = none := get?_below hparse (by decide)
  have hscale : fd.stored.get? "scale" = (d.value "scale").given? :=
    hkept.get?_further hkeys hread (by decide) (by decide) (by decide)
  refine ⟨FieldDef.agree hparse hkeys hread hkept hmembers hothers hfield channel, ?_, ?_⟩
  · rw [hmembers _ (by decide), hbelow, Option.or_none]
  · rw [hothers _ (by decide), hscale, hbelow, Option.or_none]

theorem spelledMembers_checked {parse : Shorthand.Reader} (hparse : Shorthand.Documented parse)
    (hkeys : d.keys.Nodup) (hfield : d.has "field" = true) (hread : ofMembers d = .ok fd)
    (hkept : Kept d parse) (channel : String) :
    (∃ fault, Encoding.spelledMembers channel (.object d) parse = .error fault ∧
      Encoding.spelledMembers channel fd.toValue parse = .error fault) ∨
    ∃ members others, Encoding.spelledMembers channel (.object d) parse = .ok members ∧
      Encoding.spelledMembers channel fd.toValue parse = .ok others ∧
      SpelledAlike channel d members others := by
  have hraw : Encoding.rawMembers channel (.object d) parse = .ok d := rfl
  have hraw' : Encoding.rawMembers channel fd.toValue parse = .ok fd.stored := rfl
  have hshorthand : fd.stored.get? "shorthand" = (d.value "shorthand").given? :=
    hkept.get?_further hkeys hread (by decide) (by decide) (by decide)
  cases htext : (d.value "shorthand").isText with
  | true =>
      obtain ⟨s, hs⟩ : ∃ s, d.value "shorthand" = .text s := by
        cases hv : d.value "shorthand" with
        | text s => exact ⟨s, rfl⟩
        | _ =>
            rw [hv] at htext
            cases htext
      have hget := Record.get?_of_value hs Value.noConfusion
      rw [hs] at hshorthand
      rw [spelledMembers_of_text hraw hget, spelledMembers_of_text hraw' hshorthand]
      cases hparsed : Encoding.shorthandMembers s parse with
      | error fault => exact .inl ⟨fault, rfl, rfl⟩
      | ok base =>
          obtain rfl := below_of_text hget (members_of_shorthandMembers hparsed)
          exact .inr ⟨_, _, rfl, rfl, LaidOver.spelledAlike hparse hkeys hfield hread hkept
            (laidOver_override hkeys _) (laidOver_override (nodup_keys_stored hkeys hread) _)
            channel⟩
  | false =>
      have hplain : (fd.stored.value "shorthand").isText = false := by
        rw [Record.value, hshorthand, Value.ofOption_given?, htext]
      rw [spelledMembers_of_plain hraw htext, spelledMembers_of_plain hraw' hplain]
      have hbelow : below d parse = [] := below_of_plain htext
      refine .inr ⟨_, _, rfl, rfl,
        LaidOver.spelledAlike hparse hkeys hfield hread hkept ?_ ?_ channel⟩
      · rw [hbelow]
        exact laidOver_erase d
      · rw [hbelow]
        exact laidOver_erase fd.stored

end FieldDef

namespace UnitModel

variable {channel view name : String} {mark : MarkDef} {v : Value} {settings : Settings}
  {spec d members others spelled : Record Value} {fd : FieldDef} {kept : Option Value}
  {parse : Shorthand.Reader}

theorem normalizeDef_field_iff (hspelled : Encoding.spelledMembers channel v parse = .ok members)
    (hfield : isFieldDef (.object members) = true) :
    (Encoding.normalizeDef channel v parse).outcome = .ok kept ↔
      ∃ spelled, Encoding.spellField channel members = .ok spelled ∧
        kept = some (.object spelled) := by
  rw [Encoding.normalizeDef, hspelled, Report.lift_ok, pure_bind, hfield, if_pos rfl,
    Report.outcome_bind_eq_ok_iff, Report.outcome_lift]
  constructor
  · rintro ⟨spelled, hok, h⟩
    exact ⟨spelled, hok, (Except.ok.inj h).symm⟩
  · rintro ⟨spelled, hok, rfl⟩
    exact ⟨spelled, hok, rfl⟩

theorem normalizeDef_ne_ok {fault : Fault}
    (hspelled : Encoding.spelledMembers channel v parse = .error fault) :
    (Encoding.normalizeDef channel v parse).outcome ≠ .ok kept := by
  rw [Encoding.normalizeDef, hspelled]
  intro h
  cases h

theorem initScale?_field (hscaled : Channel.isScaled channel = true)
    (hfield : isFieldDef (.object spelled) = true) :
    initScale? view mark channel (.object spelled) =
      Scale.ofMembers (scaleName view channel) channel mark spelled := by
  rw [initScale?, hscaled, Scale.ofDefinition?, Scale.scaledDef?, hfield, Bool.true_or, if_pos rfl]
  rfl

/-- A definition has a scale unless it gives `null` for it. -/
theorem eq_none_iff_of_initScale? {own : Option Scale}
    (hscaled : Channel.isScaled channel = true) (hfield : isFieldDef (.object spelled) = true)
    (h : initScale? view mark channel (.object spelled) = .ok own) :
    own = none ↔ spelled.get? "scale" = some .null := by
  rw [initScale?_field hscaled hfield, Scale.ofMembers] at h
  split at h
  · rename_i hnull
    exact iff_of_true (Except.ok.inj h).symm (eq_of_beq hnull)
  · rename_i hnull
    refine iff_of_false ?_ fun heq ↦ hnull (beq_of_eq heq)
    obtain ⟨fd, -, h⟩ := bind_eq_ok_iff.1 h
    obtain ⟨parameters, -, h⟩ := bind_eq_ok_iff.1 h
    obtain ⟨type, -, h⟩ := bind_eq_ok_iff.1 h
    obtain ⟨zero, -, h⟩ := bind_eq_ok_iff.1 h
    obtain rfl := Except.ok.inj h
    exact Option.some_ne_none _

section Scale

variable (h : FieldDef.SpelledAlike channel d members others) {spelled' : Record Value}
  (hspelled : Encoding.spellField channel members = .ok spelled)
  (hspelled' : Encoding.spellField channel others = .ok spelled')

include h hspelled hspelled'

theorem initScale?_eq_of_spelledAlike (hnull : d.get? "scale" ≠ some .null) :
    initScale? view mark channel (.object spelled') =
      initScale? view mark channel (.object spelled) := by
  refine (h.agree.readAlike hspelled hspelled').initScale?_eq ?_ view channel mark
  rw [Encoding.get?_of_spellField (by decide) (by decide) hspelled',
    Encoding.get?_of_spellField (by decide) (by decide) hspelled, h.scale_eq hnull]

theorem initScale?_ne_of_spelledAlike {scale scale' : Option Scale}
    (hscaled : Channel.isScaled channel = true) (hnull : d.get? "scale" = some .null)
    (hscale : initScale? view mark channel (.object spelled) = .ok scale)
    (hscale' : initScale? view mark channel (.object spelled') = .ok scale') :
    scale' ≠ scale := by
  have hfields := h.agree.readAlike hspelled hspelled'
  obtain ⟨hgiven, hlost⟩ := h.scale_ne hnull
  rw [← Encoding.get?_of_spellField (by decide) (by decide) hspelled] at hgiven
  rw [← Encoding.get?_of_spellField (by decide) (by decide) hspelled'] at hlost
  have hnone := (eq_none_iff_of_initScale? hscaled hfields.isField hscale).2 hgiven
  rintro rfl
  exact hlost ((eq_none_iff_of_initScale? hscaled hfields.isField' hscale').1 hnone)

end Scale

/-- A field definition is drawn in the same way when it is checked beforehand, exactly if it does
not ask for no scale. -/
theorem drawsAlike_checked_iff (hparse : Shorthand.Documented parse) (hkeys : d.keys.Nodup)
    (hfield : d.has "field" = true) (hread : FieldDef.ofMembers d = .ok fd)
    (hkept : FieldDef.Kept d parse) (hscaled : Channel.isScaled channel = true)
    (hmembers : members.keys.Nodup) :
    (∀ m,
      (ofSpec (specWith spec members channel (.object d)) settings name parse).outcome = .ok m →
        ((∃ m',
          (ofSpec (specWith spec members channel fd.toValue) settings name parse).outcome =
              .ok m' ∧
            m.DrawsAlike m' channel) ↔ d.get? "scale" ≠ some .null)) ∧
    (d.get? "scale" ≠ some .null → ∀ m',
      (ofSpec (specWith spec members channel fd.toValue) settings name parse).outcome = .ok m' →
        ∃ m,
          (ofSpec (specWith spec members channel (.object d)) settings name parse).outcome =
            .ok m) := by
  rcases exists_surroundings spec members channel settings name parse with
    hnone | ⟨s, hchannel, hclear, hs⟩
  · exact ⟨fun m hm ↦ (hnone _ m hm).elim, fun _ m' hm' ↦ (hnone _ m' hm').elim⟩
  have hclear := hclear hmembers
  have hbare : Encoding.normalizeChannel channel (.object d) parse =
      Encoding.normalizeDef channel (.object d) parse := rfl
  have hchecked : Encoding.normalizeChannel channel fd.toValue parse =
      Encoding.normalizeDef channel fd.toValue parse := rfl
  simp only [hs, hbare, hchecked]
  rcases FieldDef.spelledMembers_checked hparse hkeys hfield hread hkept channel with
    ⟨fault, hfault, hfault'⟩ | ⟨own, own', hown, hown', halike⟩
  · constructor
    · rintro m ⟨kept, scale, hkept, -⟩
      exact (normalizeDef_ne_ok hfault hkept).elim
    · rintro - m' ⟨kept, scale, hkept, -⟩
      exact (normalizeDef_ne_ok hfault' hkept).elim
  simp only [normalizeDef_field_iff hown halike.agree.isField,
    normalizeDef_field_iff hown' halike.agree.isField']
  constructor
  · rintro m ⟨kept, scale, ⟨spelled, hspelled, rfl⟩, hscale, rfl⟩
    constructor
    · rintro ⟨m', ⟨kept', scale', ⟨spelled', hspelled', rfl⟩, hscale', rfl⟩, hdraws⟩ hnull
      have hboth : scale' = scale := by
        have := hdraws.scale?
        rwa [hclear.scale?_unit, hclear.scale?_unit] at this
      exact initScale?_ne_of_spelledAlike halike hspelled hspelled' hscaled hnull hscale hscale'
        hboth
    · intro hnull
      obtain ⟨spelled', hspelled'⟩ := halike.agree.exists_spellField_iff.1 ⟨spelled, hspelled⟩
      exact ⟨_, ⟨_, scale, ⟨spelled', hspelled', rfl⟩,
        (initScale?_eq_of_spelledAlike halike hspelled hspelled' hnull).trans hscale, rfl⟩,
        drawsAlike_of_readAlike hchannel (halike.agree.readAlike hspelled hspelled')⟩
  · rintro hnull m' ⟨kept', scale, ⟨spelled', hspelled', rfl⟩, hscale, rfl⟩
    obtain ⟨spelled, hspelled⟩ := halike.agree.exists_spellField_iff.2 ⟨spelled', hspelled'⟩
    exact ⟨_, _, scale, ⟨spelled, hspelled, rfl⟩,
      (initScale?_eq_of_spelledAlike halike hspelled hspelled' hnull).symm.trans hscale, rfl⟩

/-- A measurement on a logarithmic scale, with a guide of no kind. -/
def logarithmic : Record Value :=
  [("field", .text "a"), ("type", .text "Q"), ("bin", .null), ("title", .null),
    ("scale", .object [("type", .text "log")]), ("axis", .null), ("bandPosition", .int 0)]

/-- A measurement that is shown as it is. -/
def unscaled : Record Value :=
  [("field", .text "a"), ("type", .text "quantitative"), ("scale", .null)]

def points : Record Value := [("mark", .text "point")]

theorem drawsAlike_checked_iff_logarithmic :
    ∃ fd m m', FieldDef.ofMembers logarithmic = .ok fd ∧
      (ofSpec (specWith points [] "x" (.object logarithmic))).outcome = .ok m ∧
      (ofSpec (specWith points [] "x" fd.toValue)).outcome = .ok m' ∧ m.DrawsAlike m' "x" := by
  have hrun : (do
      let _ ← FieldDef.ofMembers logarithmic
      let _ ← (ofSpec (specWith points [] "x" (.object logarithmic))).outcome
      pure ()) = .ok () := by
    decide +kernel
  obtain ⟨fd, hfd, hrun⟩ := bind_eq_ok_iff.1 hrun
  obtain ⟨m, hm, -⟩ := bind_eq_ok_iff.1 hrun
  have hkept : FieldDef.Kept logarithmic := by constructor <;> decide +kernel
  obtain ⟨m', hm', hdraws⟩ :=
    ((drawsAlike_checked_iff Shorthand.documented_members (by decide) (by decide) hfd hkept
      (by decide) (by decide)).1 m hm).2 (by decide)
  exact ⟨fd, m, m', hfd, hm, hm', hdraws⟩

/-- A definition that asks for no scale gets one when it is checked beforehand. -/
theorem not_drawsAlike_unscaled :
    ∃ fd m m', FieldDef.ofMembers unscaled = .ok fd ∧
      (ofSpec (specWith points [] "x" (.object unscaled))).outcome = .ok m ∧
      (ofSpec (specWith points [] "x" fd.toValue)).outcome = .ok m' ∧ ¬m.DrawsAlike m' "x" ∧
      m.scale? "x" = none ∧ m'.scaleName? "x" = some "x" := by
  have hrun : (do
      let fd ← FieldDef.ofMembers unscaled
      let m ← (ofSpec (specWith points [] "x" (.object unscaled))).outcome
      let m' ← (ofSpec (specWith points [] "x" fd.toValue)).outcome
      pure (m.scale? "x", m'.scaleName? "x")) = .ok (none, some "x") := by
    decide +kernel
  obtain ⟨fd, hfd, hrun⟩ := bind_eq_ok_iff.1 hrun
  obtain ⟨m, hm, hrun⟩ := bind_eq_ok_iff.1 hrun
  obtain ⟨m', hm', hrun⟩ := bind_eq_ok_iff.1 hrun
  obtain ⟨hscale, hname⟩ := Prod.mk.inj (Except.ok.inj hrun)
  refine ⟨fd, m, m', hfd, hm, hm', fun hdraws ↦ ?_, hscale, hname⟩
  rw [scaleName?, hdraws.scale?, hscale] at hname
  cases hname

end UnitModel

end ChartLowering
