import ChartLowering.Proofs.Encoding.Contributions
import ChartLowering.Proofs.Encoding.Remaining

/-!
# Lifting one by one

Each definition of an encoding is visited once, and what is lifted from it is gathered in that
order. Nothing more can be lifted from the definition that is written in its place, unless it
brings a time unit by its second name to light. It stands where the first one stood, unless the end
of a bin comes to stand there.
-/

namespace ChartLowering

open ChannelDef

namespace Lifted

variable {fd : FieldDef} {d members shown : Record Value} {l : Lifted} {v : Value}
  {channel countTitle output : String}

section Rest

/-- Is nothing lifted from this definition? -/
def AtRest (channel : String) (v : Value) : Prop :=
  ∀ countTitle, ∃ columns, ofDef countTitle channel v = .ok { groupby := columns, definition := v }

/-- A member that asks for no time unit. -/
def Idle (v : Value) : Prop := v = .null ∨ v = .text "" ∨ v = .object []

/-- Does a definition that a column is derived for have a time unit by its second name too? It is
not read, since the first name is there, but it is kept where the first one is not. -/
def HasSecondUnit (v : Value) : Prop :=
  isFieldDef v = true ∧ ∃ (d : Record Value) (fd : FieldDef), v = .object d ∧
    FieldDef.ofMembers d = .ok fd ∧ isDerived fd = true ∧ d.has "timeUnit" = true ∧
      ¬Idle (d.value "time_unit").stored

/-- Does a definition show the members that it was written with, but for what depends on the kind
of transform? -/
structure Reshapes (members shown : Record Value) : Prop where
  field : ∃ name, shown.value "field" = .text name
  type : shown.value "type" = members.value "type" ∨
    shown.value "type" = .text FieldType.quantitative.name
  bin : shown.value "bin" = members.value "bin" ∨ shown.value "bin" = .text "binned"
  same : ∀ key ∈ ["aggregate", "timeUnit", "time_unit"], shown.get? key = members.get? key

/-- Is no transform left in a definition, other than a time unit by its second name? -/
structure Cleared (d : Record Value) : Prop where
  field : ∃ name, d.value "field" = .text name
  type : ∃ type, FieldDef.readType (d.value "type") = .ok type
  aggregate : d.value "aggregate" = .null
  bin : d.value "bin" = .null ∨ d.value "bin" = .text "binned"
  timeUnit : d.get? "timeUnit" = none

theorem value_congr {key : String} (h : shown.get? key = members.get? key) :
    shown.value key = members.value key := by
  rw [Record.value, h, Record.value]

theorem Reshapes.of_get? (hfield : ∃ name, shown.value "field" = .text name)
    (h : ∀ key, key ∉ ["field", "formatType", "legend", "axis"] →
      shown.get? key = members.get? key) : Reshapes members shown where
  field := hfield
  type := .inl (value_congr (h "type" (by decide)))
  bin := .inl (value_congr (h "bin" (by decide)))
  same key hkey := by
    have hapart : ∀ key ∈ ["aggregate", "timeUnit", "time_unit"],
        key ∉ ["field", "formatType", "legend", "axis"] := by
      decide
    exact h key (hapart key hkey)

theorem Reshapes.binned (hfield : members.value "field" = .text output) :
    Reshapes members (binned channel members) where
  field := ⟨output, value_field_binned.trans hfield⟩
  type := by
    rw [Lifted.binned]
    split
    · exact .inl (Record.value_put_of_ne (by decide))
    · exact .inr Record.value_put_self
  bin := by
    rw [Lifted.binned]
    split
    · exact .inr Record.value_put_self
    · exact .inr ((Record.value_put_of_ne (by decide)).trans Record.value_put_self)
  same key hkey := by
    refine get?_binned ?_ ?_ <;> rintro rfl <;> exact absurd hkey (by decide)

theorem Shows.get?_eq {formats : Bool} {key : String} (h : Shows formats channel members shown key)
    (hkey : key ∉ ["formatType", "legend", "axis"]) : shown.get? key = members.get? key := by
  cases h with
  | same hother h => exact h
  | format hformats hchannel => exact absurd (mem_of_formatKey? hchannel) hkey
  | guide hformats hchannel => exact absurd (mem_of_formatKey? hchannel) hkey

/-- What takes the place of a definition that a column is derived for is an object. -/
theorem exists_reshapes_of_ofDef (h : ofDef countTitle channel v = .ok l)
    (hdef : isFieldDef v = true) (hread : FieldDef.read v = .ok fd)
    (hderived : isDerived fd = true) :
    ∃ output members shown, readDerived fd output countTitle = .ok members ∧
      l.definition = .object shown ∧ Reshapes members shown := by
  cases arises_of_ofDef h with
  | other hother => exact absurd hdef (ne_true_of_eq_false hother)
  | plain _ hfd haggregate hbin hunit =>
      obtain rfl := Except.ok.inj (hread.symm.trans hfd)
      rw [isDerived, haggregate, isBinned_eq_isSome, hbin, hunit] at hderived
      cases hderived
  | aggregate _ hfd _ hmembers h =>
      obtain rfl := Except.ok.inj (hread.symm.trans hfd)
      have hfield := value_field_of_readDerived hmembers
      obtain ⟨_, named, name, rfl, hname, -⟩ := exists_of_ofAggregate hfield h
      obtain ⟨shown, hshown, hsame⟩ := exists_shown_of_ofAggregate h
      obtain rfl := Value.object.inj hshown
      refine ⟨_, _, named, hmembers, rfl, .of_get? ⟨name, hname⟩ fun key hkey ↦ hsame key ?_⟩
      rintro rfl
      exact hkey List.mem_cons_self
  | bin _ hfd _ _ hmembers h =>
      obtain rfl := Except.ok.inj (hread.symm.trans hfd)
      obtain ⟨ending, range, -, rfl⟩ := exists_of_ofBin h
      exact ⟨_, _, _, hmembers, rfl, .binned (value_field_of_readDerived hmembers)⟩
  | timeUnit _ hfd _ _ _ hmembers h =>
      obtain rfl := Except.ok.inj (hread.symm.trans hfd)
      obtain ⟨shown, hshown, hshows⟩ := exists_shown_of_ofTimeUnit h
      have hsame : ∀ key, key ∉ ["formatType", "legend", "axis"] →
          shown.get? key = _ := fun key hkey ↦ (hshows key).get?_eq hkey
      have hfield := value_congr (hsame "field" (by decide))
      rw [value_field_of_readDerived hmembers] at hfield
      refine ⟨_, _, shown, hmembers, hshown, .of_get? ⟨_, hfield⟩ fun key hkey ↦ hsame key ?_⟩
      exact fun hmem ↦ hkey (List.mem_cons_of_mem _ hmem)

/-- What was to be lifted is not among the members that a derived definition is written with. -/
theorem get?_lifted_of_readDerived {key : String}
    (hmembers : readDerived fd output countTitle = .ok members)
    (hkey : key ∈ ["aggregate", "bin", "timeUnit"]) : members.get? key = none := by
  have hwithout : key ∈ ["field", "aggregate", "bin", "timeUnit"] := List.mem_cons_of_mem _ hkey
  have hfield : key ≠ "field" := fun h ↦ absurd (h ▸ hkey) (by decide)
  have hother : key ≠ "title" := fun h ↦ absurd (h ▸ hkey) (by decide)
  obtain ⟨title, htitle, rfl⟩ := exists_title_of_readDerived hmembers
  rw [Record.get?_put_of_ne _ _ hfield, ← Option.not_isSome_iff_eq_none, ← Record.has_eq_isSome,
    Record.has_override_eq, Record.has_without_of_mem hwithout, Bool.or_false, Record.has_eq_isSome,
    Record.get?_of_notMem (htitle key hother)]
  exact Bool.false_ne_true

theorem Reshapes.cleared (hkeys : d.keys.Nodup) (hread : FieldDef.ofMembers d = .ok fd)
    (hmembers : readDerived fd output countTitle = .ok members) (h : Reshapes members shown) :
    Cleared shown where
  field := h.field
  type := by
    obtain hsame | hquantitative := h.type
    · have hvalue : members.value "type" = Value.ofOption (fd.type.map fun t ↦ .text t.name) := by
        rw [Record.value, get?_readDerived hkeys hread hmembers (by decide),
          FieldDef.get?_stored_type hkeys hread]
      rw [hsame, hvalue]
      cases fd.type with
      | none => exact ⟨none, rfl⟩
      | some type => exact ⟨some type, Encoding.readType_name type⟩
    · rw [hquantitative]
      exact ⟨_, Encoding.readType_name _⟩
  aggregate := by
    rw [value_congr (h.same "aggregate" (by decide))]
    exact Record.value_of_none (get?_lifted_of_readDerived hmembers (by decide))
  bin := by
    refine h.bin.imp_left fun hsame ↦ hsame.trans ?_
    exact Record.value_of_none (get?_lifted_of_readDerived hmembers (by decide))
  timeUnit := by
    rw [h.same "timeUnit" (by decide)]
    exact get?_lifted_of_readDerived hmembers (by decide)

theorem atRest_of_not_isFieldDef (hdef : isFieldDef v = false) : AtRest channel v := by
  intro countTitle
  refine ⟨[], ?_⟩
  rw [ofDef, fieldDef?, if_neg (ne_true_of_eq_false hdef)]
  rfl

theorem atRest_of_read (hdef : isFieldDef v = true) (hread : FieldDef.read v = .ok fd)
    (haggregate : givenAggregate? fd = none) (hbin : fd.bin.filter Binning.asks = none)
    (hunit : fd.givenTimeUnit? = none) : AtRest channel v := by
  intro countTitle
  have hfound : fieldDef? v = .ok (some fd) := by
    rw [fieldDef?, if_pos hdef, hread]
    rfl
  refine ⟨if fd.path = "" then [] else [fd.path], ?_⟩
  rw [ofDef, hfound, ok_bind]
  dsimp only
  rw [ofFieldDef, haggregate, hbin, hunit]
  rfl

theorem exists_unit_of_idle (h : Idle v) :
    ∃ unit, Value.optional Operation.ofValue? v = .ok unit ∧
      unit.filter (fun u ↦ u.toValue.truthy) = none := by
  obtain rfl | rfl | rfl := h
  · exact ⟨none, rfl, rfl⟩
  · exact ⟨some (.named ""), rfl, rfl⟩
  · exact ⟨some (.with []), rfl, rfl⟩

theorem idle_of_optional {unit : Option Operation}
    (hread : Value.optional Operation.ofValue? v = .ok unit)
    (h : unit.filter (fun u ↦ u.toValue.truthy) = none) : Idle v := by
  obtain ⟨rfl, -⟩ | ⟨-, u, hu, rfl⟩ := Value.optional_eq_ok_iff.1 hread
  · exact .inl rfl
  · have hfalse : u.toValue.truthy = false := by simpa using h
    cases v with
    | text name =>
        obtain rfl := Option.some.inj hu
        obtain rfl : name = "" := by simpa [Operation.toValue, Value.truthy] using hfalse
        exact .inr (.inl rfl)
    | object parameters =>
        obtain rfl := Option.some.inj hu
        obtain rfl : parameters = [] := by simpa [Operation.toValue, Value.truthy] using hfalse
        exact .inr (.inr rfl)
    | null | bool | int | float | list | set | fieldDef => cases hu

section Cleared

variable (h : Cleared d)

include h

/-- A cleared definition has no aggregate, asks for no bins, and has the time unit that stands under
the second name. -/
theorem Cleared.read (hread : FieldDef.ofMembers d = .ok fd) :
    givenAggregate? fd = none ∧ fd.bin.filter Binning.asks = none ∧
      Value.optional Operation.ofValue? (d.value "time_unit") = .ok fd.timeUnit := by
  obtain ⟨-, -, haggregate, hbin, hunit, -⟩ := FieldDef.ofMembers_eq_ok_iff.1 hread
  rw [h.aggregate] at haggregate
  rw [FieldDef.timeUnitKey_of_none h.timeUnit] at hunit
  refine ⟨?_, ?_, hunit⟩
  · rw [givenAggregate?, ← Except.ok.inj haggregate]
    rfl
  · obtain hnull | hbinned := h.bin
    · rw [hnull] at hbin
      rw [← Except.ok.inj hbin]
      rfl
    · rw [hbinned] at hbin
      rw [← Except.ok.inj hbin]
      rfl

theorem Cleared.exists_read {unit : Option Operation}
    (hunit : Value.optional Operation.ofValue? (d.value "time_unit") = .ok unit) :
    ∃ fd, FieldDef.ofMembers d = .ok fd ∧ fd.timeUnit = unit := by
  obtain ⟨name, hfield⟩ := h.field
  obtain ⟨type, htype⟩ := h.type
  obtain ⟨bin, hbin⟩ : ∃ bin, Value.optional Binning.ofValue? (d.value "bin") = .ok bin := by
    obtain hnull | hbinned := h.bin
    · rw [hnull]
      exact ⟨none, rfl⟩
    · rw [hbinned]
      exact ⟨some (.named "binned"), rfl⟩
  refine ⟨⟨some name, type, none, bin, unit, d.value "title",
    d.without (FieldDef.timeUnitKey d :: Value.attributeKeys)⟩, ?_, rfl⟩
  refine FieldDef.ofMembers_eq_ok_iff.2 ⟨htype, ?_, ?_, hbin, ?_, rfl, rfl⟩
  · rw [hfield]
    rfl
  · rw [h.aggregate]
    rfl
  · rwa [FieldDef.timeUnitKey_of_none h.timeUnit]

theorem Cleared.atRest_iff : AtRest channel (.object d) ↔ Idle (d.value "time_unit") := by
  obtain ⟨name, hname⟩ := h.field
  have hdef : isFieldDef (.object d) = true := isFieldDef_of_value_field hname
  constructor
  · intro hrest
    obtain ⟨columns, hof⟩ := hrest ""
    generalize hl : ({ groupby := columns, definition := .object d } : Lifted) = l at hof
    cases arises_of_ofDef hof with
    | other hother => exact absurd hdef (ne_true_of_eq_false hother)
    | plain _ hread _ _ hunit =>
        exact idle_of_optional (h.read hread).2.2 hunit
    | aggregate _ hread haggregate =>
        rw [(h.read hread).1] at haggregate
        cases haggregate
    | bin _ hread _ hbin =>
        rw [(h.read hread).2.1] at hbin
        cases hbin
    | timeUnit _ _ _ _ _ _ hlift =>
        obtain ⟨shown, -, rfl⟩ := exists_of_ofTimeUnit hlift
        cases congrArg Lifted.timeUnits hl
  · intro hidle countTitle
    obtain ⟨unit, hunit, hnone⟩ := exists_unit_of_idle hidle
    obtain ⟨fd, hread, rfl⟩ := h.exists_read hunit
    obtain ⟨haggregate, hbin, -⟩ := h.read hread
    exact atRest_of_read hdef hread haggregate hbin hnone countTitle

end Cleared

theorem Reshapes.value_timeUnit (hkeys : d.keys.Nodup) (hread : FieldDef.ofMembers d = .ok fd)
    (hmembers : readDerived fd output countTitle = .ok members) (h : Reshapes members shown) :
    shown.value "time_unit" =
      if d.has "timeUnit" = true then (d.value "time_unit").stored else .null := by
  have hstored : shown.value "time_unit" = Value.ofOption (fd.stored.get? "time_unit") := by
    rw [Record.value, h.same _ (by decide), get?_readDerived hkeys hread hmembers (by decide)]
  rw [hstored]
  split
  · rename_i hhas
    have hextra : "time_unit" ∉ FieldDef.timeUnitKey d :: Value.attributeKeys := by
      rw [FieldDef.timeUnitKey, if_pos hhas]
      decide
    rw [FieldDef.get?_stored_extra hkeys hread hextra, Value.ofOption_map_stored_given?]
  · rename_i hhas
    have hnone : d.get? "timeUnit" = none := by
      rwa [Record.has_eq_isSome, Option.not_isSome_iff_eq_none] at hhas
    rw [FieldDef.get?_stored_otherName hkeys hread hnone]
    rfl

theorem hasSecondUnit_iff (hdef : isFieldDef (.object d) = true)
    (hread : FieldDef.ofMembers d = .ok fd) :
    HasSecondUnit (.object d) ↔ isDerived fd = true ∧ d.has "timeUnit" = true ∧
      ¬Idle (d.value "time_unit").stored := by
  constructor
  · rintro ⟨-, d', fd', hd, hfd, hall⟩
    obtain rfl := Value.object.inj hd
    obtain rfl := Except.ok.inj (hread.symm.trans hfd)
    exact hall
  · exact fun hall ↦ ⟨hdef, d, fd, rfl, hread, hall⟩

/-- Nothing is lifted from a rewritten definition, unless the one before had a second time unit. -/
theorem atRest_definition_iff (htyped : Encoding.Typed v) (hdistinct : v.Distinct)
    (h : ofDef countTitle channel v = .ok l) :
    AtRest channel l.definition ↔ ¬HasSecondUnit v := by
  obtain ⟨d, rfl, -⟩ := htyped
  have hkeys : d.keys.Nodup := hdistinct.nodup_keys
  have hderive {fd : FieldDef} (hdef : isFieldDef (.object d) = true)
      (hread : FieldDef.ofMembers d = .ok fd) (hderived : isDerived fd = true) :
      AtRest channel l.definition ↔ ¬HasSecondUnit (.object d) := by
    obtain ⟨output, members, shown, hmembers, hshown, hreshapes⟩ :=
      exists_reshapes_of_ofDef h hdef hread hderived
    rw [hshown, (hreshapes.cleared hkeys hread hmembers).atRest_iff, hasSecondUnit_iff hdef hread,
      hreshapes.value_timeUnit hkeys hread hmembers]
    split
    · rename_i hhas
      simp [hderived, hhas]
    · rename_i hhas
      exact iff_of_true (.inl rfl) fun hall ↦ hhas hall.2.1
  cases arises_of_ofDef h with
  | other hother =>
      refine iff_of_true (atRest_of_not_isFieldDef hother) fun hsecond ↦ ?_
      exact absurd hsecond.1 (ne_true_of_eq_false hother)
  | plain hdef hread haggregate hbin hunit =>
      refine iff_of_true (atRest_of_read hdef hread haggregate hbin hunit) fun hsecond ↦ ?_
      have hderived := ((hasSecondUnit_iff hdef hread).1 hsecond).1
      rw [isDerived, haggregate, isBinned_eq_isSome, hbin, hunit] at hderived
      cases hderived
  | aggregate hdef hread haggregate =>
      refine hderive hdef hread ?_
      rw [isDerived, haggregate]
      rfl
  | bin hdef hread _ hbin =>
      refine hderive hdef hread ?_
      rw [isDerived, isBinned_eq_isSome, hbin, Option.isSome_some, Bool.or_true, Bool.true_or]
  | timeUnit hdef hread _ _ hunit =>
      refine hderive hdef hread ?_
      rw [isDerived, hunit, Option.isSome_some, Bool.or_true]

end Rest

section Ends

/-- Does a definition ask for bins that are lifted from it? -/
def AsksBins (v : Value) : Prop :=
  isFieldDef v = true ∧ ∃ fd, FieldDef.read v = .ok fd ∧ readsBins fd = true

theorem not_asksBins_of_read (hread : FieldDef.read v = .ok fd) (h : readsBins fd = false) :
    ¬AsksBins v := by
  rintro ⟨-, fd', hfd, hreads⟩
  obtain rfl := Except.ok.inj (hread.symm.trans hfd)
  exact ne_true_of_eq_false h hreads

theorem secondary_isSome_iff (h : ofDef countTitle channel v = .ok l) :
    l.secondary.isSome = true ↔ Channel.isXOrY channel = true ∧ AsksBins v := by
  have hneither (hsecondary : l.secondary = none) (hasks : ¬AsksBins v) :
      l.secondary.isSome = true ↔ Channel.isXOrY channel = true ∧ AsksBins v := by
    rw [hsecondary]
    exact iff_of_false Bool.false_ne_true fun hboth ↦ hasks hboth.2
  cases arises_of_ofDef h with
  | other hother => exact hneither rfl fun hasks ↦ ne_true_of_eq_false hother hasks.1
  | plain _ hread _ hbin =>
      refine hneither rfl (not_asksBins_of_read hread ?_)
      rw [readsBins, isBinned_eq_isSome, hbin, Option.isSome_none, Bool.and_false]
  | aggregate _ hread haggregate hmembers h =>
      obtain ⟨m, shown, name, rfl, -, -⟩ :=
        exists_of_ofAggregate (value_field_of_readDerived hmembers) h
      refine hneither rfl (not_asksBins_of_read hread ?_)
      rw [readsBins, haggregate]
      rfl
  | bin hdef hread haggregate hbin _ h =>
      obtain ⟨ending, range, -, rfl⟩ := exists_of_ofBin h
      have hasks : AsksBins v := by
        refine ⟨hdef, _, hread, ?_⟩
        rw [readsBins, haggregate, isBinned_eq_isSome, hbin]
        rfl
      cases Channel.isXOrY channel <;> simp [hasks]
  | timeUnit _ hread _ hbin _ _ h =>
      obtain ⟨shown, -, rfl⟩ := exists_of_ofTimeUnit h
      refine hneither rfl (not_asksBins_of_read hread ?_)
      rw [readsBins, isBinned_eq_isSome, hbin, Option.isSome_none, Bool.and_false]

end Ends

end Lifted

namespace Extraction

open Lifted (LiftsOnce AtRest HasSecondUnit AsksBins)

variable {parse : Shorthand.Reader} {e e' r : Extraction} {raw v w : Value}
  {encoding before : Encoding}
  {channel key title countTitle : String} {lifted : List Lifted} {l : Lifted}

section Ends

/-- Do the definitions on one channel bring the end of a bin to another one? -/
structure BringsEnd (channel : String) (v : Value) (key : String) : Prop where
  isXOrY : Channel.isXOrY channel = true
  key : key = channel ++ "2"
  asks : ∃ x ∈ v.itemsOrSelf, AsksBins x

/-- Does the end of a bin come to a channel after definitions of its own? -/
def Displaced (encoding : Encoding) (key : String) : Prop :=
  ∃ before channel v after, encoding = before ++ (channel, v) :: after ∧
    key ∈ Record.keys before ∧ BringsEnd channel v key

theorem Displaced.mem_keys (h : Displaced encoding key) : key ∈ encoding.keys := by
  obtain ⟨before, channel, v, after, rfl, hkey, -⟩ := h
  rw [Record.keys, List.map_append]
  exact List.mem_append_left _ hkey

theorem displaced_append_singleton :
    Displaced (before ++ [(channel, v)]) key ↔
      Displaced before key ∨ key ∈ before.keys ∧ BringsEnd channel v key := by
  constructor
  · rintro ⟨start, channel', v', after, hsplit, hkey, hbrings⟩
    obtain rfl | ⟨after, last, rfl⟩ := List.eq_nil_or_concat after
    · obtain ⟨rfl, hlast⟩ := List.append_inj' hsplit rfl
      obtain ⟨rfl, rfl⟩ := Prod.mk.inj (List.cons.inj hlast).1
      exact .inr ⟨hkey, hbrings⟩
    · rw [List.concat_eq_append, ← List.cons_append, ← List.append_assoc] at hsplit
      obtain ⟨rfl, -⟩ := List.append_inj' hsplit rfl
      exact .inl ⟨start, channel', v', after, rfl, hkey, hbrings⟩
  · rintro (⟨start, channel', v', after, rfl, hkey, hbrings⟩ | ⟨hkey, hbrings⟩)
    · exact ⟨start, channel', v', after ++ [(channel, v)], by simp, hkey, hbrings⟩
    · exact ⟨before, channel, v, [], rfl, hkey, hbrings⟩

/-- The last end of a bin is the one that stays. -/
theorem get?_foldl_add_of_secondary (hl : l ∈ lifted) (hw : l.secondary = some w) :
    ∃ l' ∈ lifted, ∃ w', l'.secondary = some w' ∧
      (lifted.foldl (fun e l ↦ e.add channel l) e).encoding.get? (channel ++ "2") = some w' := by
  induction lifted generalizing e with
  | nil => cases hl
  | cons first rest ih =>
      obtain rfl | hl := List.mem_cons.1 hl
      · obtain hsame | ⟨-, l', hl', w', hw', hget⟩ :=
          get?_foldl_add rest (e.add channel l) channel (channel ++ "2")
        · refine ⟨l, List.mem_cons_self, w, hw, hsame.trans ?_⟩
          rw [add, hw]
          exact Record.get?_put_self _ _ _
        · exact ⟨l', List.mem_cons_of_mem _ hl', w', hw', hget⟩
      · obtain ⟨l', hl', hlast⟩ := ih hl (e := e.add channel first)
        exact ⟨l', List.mem_cons_of_mem _ hl', hlast⟩

/-- Other channels are left alone, unless the end of a bin is brought to them. -/
theorem get?_of_addChannel_of_ne (h : e.addChannel title channel v = .ok e')
    (hkey : key ≠ channel) :
    (BringsEnd channel v key →
        ∃ b ∈ e'.bins, e'.encoding.get? key = some b.endDefinition) ∧
      (¬BringsEnd channel v key → e'.encoding.get? key = e.encoding.get? key) := by
  obtain ⟨lifted, w, hlifted, -, -, rfl⟩ := exists_of_addChannel h
  dsimp only
  rw [Record.get?_put_of_ne _ _ hkey]
  constructor
  · rintro ⟨hxy, rfl, x, hx, hasks⟩
    obtain ⟨l, hl, hof⟩ := exists_of_mapM_eq_ok hlifted hx
    obtain ⟨w, hw⟩ :=
      Option.isSome_iff_exists.1 ((Lifted.secondary_isSome_iff hof).2 ⟨hxy, hasks⟩)
    obtain ⟨l', hl', w', hw', hget⟩ := get?_foldl_add_of_secondary hl hw (e := e)
    obtain ⟨x', -, hof'⟩ := (mem_of_mapM_eq_ok hlifted).1 hl'
    obtain ⟨-, b, hb, rfl⟩ := Lifted.exists_bin_of_secondary hof' hw'
    exact ⟨b, (includes_foldl_add hl').bins hb, hget⟩
  · intro hnone
    obtain hsame | ⟨rfl, l, hl, w, hw, -⟩ := get?_foldl_add lifted e channel key
    · exact hsame
    · obtain ⟨x, hx, hof⟩ := (mem_of_mapM_eq_ok hlifted).1 hl
      obtain ⟨hxy, hasks⟩ := (Lifted.secondary_isSome_iff hof).1 (by rw [hw]; rfl)
      exact absurd ⟨hxy, rfl, x, hx, hasks⟩ hnone

/-- On each channel stands what was made of its own definitions, unless the end of a bin has come
there since. -/
theorem stands_of_ofEncoding (hkeys : encoding.keys.Nodup)
    (h : ofEncoding encoding countTitle = .ok r) (hmem : (channel, v) ∈ encoding) :
    ∃ w, r.encoding.get? channel = some w ∧
      (Displaced encoding channel → ∃ b ∈ r.bins, w = b.endDefinition) ∧
      (¬Displaced encoding channel → r.RewritesAll (titleFor countTitle) channel v w) := by
  let P (before : Encoding) (e : Extraction) : Prop :=
    ∀ channel v, (channel, v) ∈ before → ∃ w, e.encoding.get? channel = some w ∧
      (Displaced before channel → ∃ b ∈ e.bins, w = b.endDefinition) ∧
      (¬Displaced before channel → e.RewritesAll (titleFor countTitle) channel v w)
  have hall : P encoding r := by
    refine induction_before (fun _ _ hmem ↦ nomatch hmem) ?_ h
    intro before added v after e e' hsplit he hadded channel v' hmem
    have hfresh : added ∉ Record.keys before := by
      rw [hsplit, Record.keys, List.map_append, List.map_cons, List.nodup_append] at hkeys
      exact fun hmem ↦ hkeys.2.2 added hmem added List.mem_cons_self rfl
    rw [displaced_append_singleton]
    -- The channel that is added is new, so that only its own definitions can stand there yet.
    obtain ⟨hbelow, ⟨rfl, w, hget, hrewrites⟩ | ⟨hne, -⟩⟩ := get?_of_addChannel hadded channel
    · obtain hmem | hmem := List.mem_append.1 hmem
      · exact absurd (List.mem_map_of_mem (f := Prod.fst) hmem) hfresh
      · obtain ⟨-, rfl⟩ := Prod.mk.inj (List.mem_singleton.1 hmem)
        refine ⟨w, hget, fun hdisplaced ↦ absurd ?_ hfresh, fun _ ↦ hrewrites⟩
        exact hdisplaced.elim Displaced.mem_keys fun hbrought ↦ hbrought.1
    · obtain hmem | hmem := List.mem_append.1 hmem
      · -- A channel from before keeps what it has, unless the end of a bin is brought to it now.
        obtain ⟨hbrings, hsame⟩ := get?_of_addChannel_of_ne hadded hne
        by_cases hend : BringsEnd added v channel
        · obtain ⟨b, hb, hget⟩ := hbrings hend
          refine ⟨_, hget, fun _ ↦ ⟨b, hb, rfl⟩, fun hstays ↦ absurd (.inr ⟨?_, hend⟩) hstays⟩
          exact List.mem_map_of_mem (f := Prod.fst) hmem
        · obtain ⟨w, hget, hdisplaced, hstays⟩ := he channel v' hmem
          refine ⟨w, (hsame hend).trans hget, fun hold ↦ ?_, fun hno ↦ ?_⟩
          · obtain ⟨b, hb, hw⟩ := hdisplaced (hold.resolve_right fun hnew ↦ hend hnew.2)
            exact ⟨b, hbelow.bins hb, hw⟩
          · exact (hstays fun hold ↦ hno (.inl hold)).mono hbelow
      · exact absurd (Prod.mk.inj (List.mem_singleton.1 hmem)).1 hne
  exact hall channel v hmem

end Ends

section Visits

/-- A visit to a definition: where it stands, what is lifted from it, and what is written in its
place. -/
structure Visit where
  channel : String
  given : Value
  lifted : Option Lifted.Transform
  rewritten : Value

namespace Visit

def place (s : Visit) : String × Value := (s.channel, s.given)

def measure? (s : Visit) : Option Measure := s.lifted.bind Lifted.Transform.measure?

def bin? (s : Visit) : Option BinTransform := s.lifted.bind Lifted.Transform.bin?

def timeUnit? (s : Visit) : Option TimeUnitTransform := s.lifted.bind Lifted.Transform.timeUnit?

/-- Does a visit tell what the definition contributes? -/
structure Tells (title : String) (s : Visit) (l : Lifted) : Prop where
  ofDef : Lifted.ofDef title s.channel s.given = .ok l
  rewritten : s.rewritten = l.definition
  lifts : LiftsOnce s.given s.lifted s.rewritten
  contributes : l.Contributes s.lifted

end Visit

/-- Are these the visits to the definitions of an encoding, in their order, and is in the extraction
what is lifted on them and nothing else? -/
structure Visits (encoding : Encoding) (r : Extraction) (visits : List Visit) : Prop where
  order : visits.map Visit.place = encoding.definitions
  lifts : ∀ s ∈ visits, LiftsOnce s.given s.lifted s.rewritten
  measures : r.measures = visits.filterMap Visit.measure?
  bins : r.bins = visits.filterMap Visit.bin?
  timeUnits : r.timeUnits = visits.filterMap Visit.timeUnit?
  groupby : r.groupby.Nodup

variable {visits : List Visit} {definitions : List (String × Value)}

theorem exists_tells
    (h : List.Forall₂ (fun d l ↦ Lifted.ofDef title d.1 d.2 = .ok l) definitions lifted) :
    ∃ visits : List Visit, visits.map Visit.place = definitions ∧
      List.Forall₂ (Visit.Tells title) visits lifted := by
  induction h with
  | nil => exact ⟨[], rfl, .nil⟩
  | @cons d l _ _ hof _ ih =>
      obtain ⟨visits, hplaces, htells⟩ := ih
      obtain ⟨t, hlifts, hcontributes⟩ := Lifted.exists_liftsOnce hof
      refine ⟨⟨d.1, d.2, t, l.definition⟩ :: visits, ?_,
        .cons ⟨hof, rfl, hlifts, hcontributes⟩ htells⟩
      rw [List.map_cons, hplaces]
      rfl

theorem flatMap_of_tells {α : Type} {list : Lifted → List α} {pick : Lifted.Transform → Option α}
    (hlist : ∀ {l t}, l.Contributes t → list l = (t.bind pick).toList)
    (h : List.Forall₂ (Visit.Tells title) visits lifted) :
    lifted.flatMap list = visits.filterMap fun s ↦ s.lifted.bind pick := by
  induction h with
  | nil => rfl
  | @cons s l _ _ htells _ ih =>
      rw [List.flatMap_cons, List.filterMap_cons, ih, hlist htells.contributes]
      cases s.lifted.bind pick <;> rfl

theorem exists_of_mem_visits (h : List.Forall₂ (Visit.Tells title) visits lifted) {s : Visit}
    (hs : s ∈ visits) : ∃ l, s.Tells title l := by
  induction h with
  | nil => cases hs
  | cons htells _ ih =>
      obtain rfl | hs := List.mem_cons.1 hs
      · exact ⟨_, htells⟩
      · exact ih hs

theorem filter_definitions (hkeys : encoding.keys.Nodup) (hmem : (channel, v) ∈ encoding) :
    encoding.definitions.filter (fun d ↦ d.1 == channel) =
      v.itemsOrSelf.map fun x ↦ (channel, x) := by
  have hnone (part : Encoding) (hpart : channel ∉ part.keys) :
      part.definitions.filter (fun d ↦ d.1 == channel) = [] := by
    refine List.filter_eq_nil_iff.2 fun d hd hchannel ↦ hpart ?_
    obtain ⟨w, hw, -⟩ := mem_definitions_iff.1 hd
    rw [beq_iff_eq.1 hchannel] at hw
    exact List.mem_map_of_mem (f := Prod.fst) hw
  obtain ⟨before, after, rfl⟩ := List.append_of_mem hmem
  rw [Record.keys, List.map_append, List.map_cons, List.nodup_middle, List.nodup_cons,
    List.mem_append, not_or] at hkeys
  have hself : (v.itemsOrSelf.map fun x ↦ (channel, x)).filter (fun d ↦ d.1 == channel) =
      v.itemsOrSelf.map fun x ↦ (channel, x) := by
    simp
  have hsplit : Encoding.definitions (before ++ (channel, v) :: after) =
      Encoding.definitions before ++ ((v.itemsOrSelf.map fun x ↦ (channel, x)) ++
        Encoding.definitions after) := by
    simp [Encoding.definitions]
  rw [hsplit, List.filter_append, List.filter_append, hnone before hkeys.1.1, hself,
    hnone after hkeys.1.2, List.nil_append, List.append_nil]

/-- What stands on a channel is what was written on the visits to its definitions. -/
theorem RewritesAll.itemsOrSelf_eq (hkeys : encoding.keys.Nodup) (hmem : (channel, v) ∈ encoding)
    (horder : visits.map Visit.place = encoding.definitions)
    (htells : List.Forall₂ (Visit.Tells title) visits lifted)
    (h : r.RewritesAll title channel v w) :
    w.itemsOrSelf = (visits.filter fun s ↦ s.channel == channel).map Visit.rewritten := by
  -- What is written for a definition depends on the definition and its channel alone.
  let Writes (d : String × Value) (y : Value) : Prop :=
    ∃ l, Lifted.ofDef title d.1 d.2 = .ok l ∧ y = l.definition
  have hunique : Relator.RightUnique Writes := by
    rintro d y z ⟨l, hl, rfl⟩ ⟨l', hl', rfl⟩
    rw [Except.ok.inj (hl.symm.trans hl')]
  have hplaces : (visits.filter fun s ↦ s.channel == channel).map Visit.place =
      v.itemsOrSelf.map fun x ↦ (channel, x) := by
    rw [← filter_definitions hkeys hmem, ← horder, List.filter_map]
    rfl
  have hchannel : List.Forall₂ Writes (v.itemsOrSelf.map fun x ↦ (channel, x)) w.itemsOrSelf := by
    rw [List.forall₂_map_left_iff]
    exact h.items.imp fun x y ⟨l, hl, hy, _⟩ ↦ ⟨l, hl, hy⟩
  have hvisits : List.Forall₂ Writes (v.itemsOrSelf.map fun x ↦ (channel, x))
      ((visits.filter fun s ↦ s.channel == channel).map Visit.rewritten) := by
    rw [← hplaces, List.forall₂_map_left_iff, List.forall₂_map_right_iff, List.forall₂_same]
    intro s hs
    obtain ⟨l, hl⟩ := exists_of_mem_visits htells (List.mem_filter.1 hs).1
    exact ⟨l, hl.ofDef, hl.rewritten⟩
  exact hunique.forall₂ hchannel hvisits

theorem exists_visits (h : ofEncoding encoding countTitle = .ok r) :
    ∃ visits lifted, List.Forall₂ (Visit.Tells (titleFor countTitle)) visits lifted ∧
      Visits encoding r visits := by
  obtain ⟨lifted, hlifted, hgathers⟩ := exists_gathers h
  obtain ⟨visits, horder, htells⟩ := exists_tells hlifted
  refine ⟨visits, lifted, htells, horder, fun s hs ↦ ?_, ?_, ?_, ?_, hgathers.groupby⟩
  · obtain ⟨l, hl⟩ := exists_of_mem_visits htells hs
    exact hl.lifts
  · exact hgathers.measures.trans (flatMap_of_tells (fun h ↦ h.measures) htells)
  · exact hgathers.bins.trans (flatMap_of_tells (fun h ↦ h.bins) htells)
  · exact hgathers.timeUnits.trans (flatMap_of_tells (fun h ↦ h.timeUnits) htells)

/-- Each definition of a normal encoding is lifted exactly once, in the order of the channels and
the items of lists. Nothing is lifted from what is written in its place, except for a second time
unit. It is then found on its channel, except where the end of a bin has come there since. -/
theorem lift_one_by_one (hraw : (Encoding.normalize raw parse).outcome = .ok encoding)
    (hkeys : encoding.keys.Nodup) (hdistinct : ∀ d ∈ encoding.definitions, d.2.Distinct)
    (h : ofEncoding encoding countTitle = .ok r) :
    ∃ visits, Visits encoding r visits ∧
      (∀ s ∈ visits, AtRest s.channel s.rewritten ↔ ¬HasSecondUnit s.given) ∧
      ∀ channel v, (channel, v) ∈ encoding → ∃ w, r.encoding.get? channel = some w ∧
        (Displaced encoding channel → ∃ b ∈ r.bins, w = b.endDefinition) ∧
        (¬Displaced encoding channel → w.isList = v.isList ∧
          w.itemsOrSelf = (visits.filter fun s ↦ s.channel == channel).map Visit.rewritten) := by
  obtain ⟨visits, lifted, htells, hvisits⟩ := exists_visits h
  refine ⟨visits, hvisits, fun s hs ↦ ?_, fun channel v hmem ↦ ?_⟩
  · obtain ⟨l, hl⟩ := exists_of_mem_visits htells hs
    have hplace : s.place ∈ encoding.definitions := by
      rw [← hvisits.order]
      exact List.mem_map_of_mem hs
    rw [hl.rewritten]
    exact Lifted.atRest_definition_iff (Encoding.typed_of_normalize hraw _ hplace)
      (hdistinct _ hplace) hl.ofDef
  · obtain ⟨w, hget, hdisplaced, hstays⟩ := stands_of_ofEncoding hkeys h hmem
    refine ⟨w, hget, hdisplaced, fun hno ↦ ⟨(hstays hno).isList, ?_⟩⟩
    exact (hstays hno).itemsOrSelf_eq hkeys hmem hvisits.order htells

/-- A mean for each month, told in a list with another field. -/
def monthlyMeans : Encoding :=
  [("x", .object [("field", .text "t"), ("type", .text "temporal"), ("timeUnit", .text "month")]),
   ("tooltip", .list [.object [("field", .text "g"), ("type", .text "nominal")],
      .object [("field", .text "v"), ("type", .text "quantitative"), ("aggregate", .text "mean")]])]

theorem lift_one_by_one_monthlyMeans : ∃ r visits, ofEncoding monthlyMeans "" = .ok r ∧
    Visits monthlyMeans r visits ∧ (∀ s ∈ visits, AtRest s.channel s.rewritten) ∧
    ∃ w, r.encoding.get? "tooltip" = some w ∧
      w.itemsOrSelf = (visits.filter fun s ↦ s.channel == "tooltip").map Visit.rewritten := by
  have hrun : (do
      let _ ← ofEncoding monthlyMeans ""
      pure ()) = (.ok () : Except Fault Unit) := by
    decide +kernel
  obtain ⟨r, hr, -⟩ := bind_eq_ok_iff.1 hrun
  have hflat : ∀ d ∈ Encoding.definitions monthlyMeans, ∃ members : Record Value,
      d.2 = .object members ∧ members.keys.Nodup ∧ (∀ m ∈ members, m.2.isObject = false) ∧
        members.value "time_unit" = .null := by
    refine List.forall_mem_cons.2 ⟨?_, List.forall_mem_cons.2 ⟨?_, List.forall_mem_singleton.2 ?_⟩⟩
    all_goals exact ⟨_, rfl, by decide, by decide, rfl⟩
  have hdistinct : ∀ d ∈ Encoding.definitions monthlyMeans, d.2.Distinct := by
    intro d hd
    obtain ⟨members, hmembers, hkeys, hleaves, -⟩ := hflat d hd
    rw [hmembers]
    exact Value.distinct_object hkeys fun m hm ↦ Value.distinct_of_not_object (hleaves m hm)
  have hstays : ¬Displaced monthlyMeans "tooltip" := by
    rintro ⟨_, axis, _, _, -, -, haxis, hkey, -⟩
    obtain rfl | rfl : axis = "x" ∨ axis = "y" := by simpa [Channel.isXOrY] using haxis
    all_goals exact absurd hkey (by decide)
  obtain ⟨visits, hvisits, hrest, hplaces⟩ := lift_one_by_one
    (by decide +kernel : (Encoding.normalize (.object monthlyMeans)).outcome = .ok monthlyMeans)
    (by decide) hdistinct hr
  obtain ⟨w, hget, -, hw⟩ := hplaces "tooltip" _ (List.mem_of_mem_getLast? rfl)
  refine ⟨r, visits, hr, hvisits, fun s hs ↦ (hrest s hs).2 ?_, w, hget, (hw hstays).2⟩
  rintro ⟨-, d, -, hgiven, -, -, -, hunit⟩
  have hplace : s.place ∈ Encoding.definitions monthlyMeans := by
    rw [← hvisits.order]
    exact List.mem_map_of_mem hs
  obtain ⟨members, hmembers, -, -, hnull⟩ := hflat _ hplace
  obtain rfl := Value.object.inj (hgiven.symm.trans hmembers)
  rw [hnull] at hunit
  exact hunit (.inl rfl)

/-- A field of the second end, told before the bins. -/
def endFirst : Encoding :=
  [("x2", .object [("field", .text "e"), ("type", .text "quantitative")]),
   ("x", .object [("field", .text "v"), ("type", .text "quantitative"),
      ("bin", .object [("maxbins", .int 10)])])]

/-- A definition that nothing is lifted from is gone. -/
theorem not_lift_one_by_one_endFirst : ∃ r given,
    (Encoding.normalize (.object endFirst)).outcome = .ok endFirst ∧
    ofEncoding endFirst "" = .ok r ∧ ("x2", given) ∈ endFirst ∧ LiftsOnce given none given ∧
    r.encoding.get? "x2" ≠ some given := by
  have hrun : (do
      let r ← ofEncoding endFirst ""
      pure (r.encoding.get? "x2")) =
      .ok (some (.object [("field", .text "bin_maxbins_10_v_end")])) := by
    decide +kernel
  obtain ⟨r, hr, hrun⟩ := bind_eq_ok_iff.1 hrun
  have hread : FieldDef.read (.object [("field", .text "e"), ("type", .text "quantitative")]) =
      .ok ⟨some "e", some .quantitative, none, none, none, .null, []⟩ := by
    decide +kernel
  refine ⟨r, _, by decide +kernel, hr, List.mem_cons_self, .plain rfl hread rfl rfl rfl, ?_⟩
  rw [Except.ok.inj hrun]
  decide

end Visits

end Extraction

end ChartLowering
