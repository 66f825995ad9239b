import ChartLowering.Proofs.Encoding.Places
import ChartLowering.Proofs.Encoding.Typed
import ChartLowering.Proofs.FieldDef.Checked
import ChartLowering.Proofs.Settings.Layers

/-!
# What lifting leaves alone

A definition that a column is derived for is written anew: it reads the column, asks for no
transform, and may have its labels formatted as times. All of its other members are meant to stay.
Those that are `null` are lost, though, and what JSON does not have is written as something else.
-/

namespace ChartLowering

namespace Value

variable {v w : Value} {r : Record Value} {key : String}

theorem get?_storedMembers (r : Record Value) (key : String) :
    Record.get? (storedMembers r) key = (r.get? key).map stored := by
  induction r with
  | nil => rfl
  | cons m rest ih =>
      obtain ⟨k, v⟩ := m
      rw [storedMembers, Record.get?_cons, Record.get?_cons, ih]
      split <;> rfl

theorem keys_storedMembers (r : Record Value) : Record.keys (storedMembers r) = r.keys := by
  rw [storedMembers_eq_map, Record.keys, List.map_map]
  rfl

theorem stored_object_eq_self (hkeys : r.keys.Nodup)
    (h : ∀ key v, r.get? key = some v → v.stored = v) : stored (.object r) = .object r := by
  have hsame : ∀ m ∈ r, (m.1, stored m.2) = m := by
    intro m hm
    rw [h m.1 m.2 (Record.get?_of_mem hkeys hm)]
  rw [stored, storedMembers_eq_map, List.map_congr_left hsame, List.map_id']

theorem map_stored_given?_eq_some_iff :
    v.given?.map stored = some w ↔ v ≠ .null ∧ w = v.stored := by
  cases v with
  | null => simp [given?]
  | _ => simp [given?, eq_comm]

theorem ofOption_map_stored_given? (v : Value) : ofOption (v.given?.map stored) = v.stored := by
  cases v <;> rfl

/-- Does one object have all that another one has, and beyond that at most a type of format? -/
def AddsFormatType (v w : Value) : Prop :=
  ∃ guide guide' : Record Value, v = .object guide ∧ w = .object guide' ∧
    (∀ key value, guide.get? key = some value → guide'.get? key = some value) ∧
    ∀ key, key ≠ "formatType" → guide'.has key = guide.has key

theorem AddsFormatType.stored_eq_self (hv : v.Distinct) (h : v.AddsFormatType v.stored) :
    v.stored = v := by
  obtain ⟨guide, guide', rfl, hguide', hkeep, -⟩ := h
  obtain rfl : storedMembers guide = guide' := Value.object.inj hguide'
  refine stored_object_eq_self hv.nodup_keys fun key value hget ↦ ?_
  have hsame := hkeep key value hget
  rw [get?_storedMembers, hget] at hsame
  exact Option.some.inj hsame

end Value

namespace Lifted

open ChannelDef

section Guides

variable {v w : Value}

theorem timeGuide_object (guide : Record Value) : timeGuide (.object guide) =
    .ok (.object (Record.override [("formatType", .text "time")] guide)) := by
  cases guide <;> rfl

theorem isObject_of_timeGuide (h : timeGuide v = .ok w) : w.isObject = true := by
  rw [timeGuide] at h
  split at h
  · obtain ⟨own, -, h⟩ := bind_eq_ok_iff.1 h
    rw [← Except.ok.inj h]
    rfl
  · rw [← Except.ok.inj h]
    rfl

/-- A guide comes through the formatting of times if it is an object that is written as it is. -/
theorem timeGuide_keeps_iff (hv : v.Distinct) (h : timeGuide v.stored = .ok w) :
    w = v ∨ v.AddsFormatType w ↔ v.isObject = true ∧ v.stored = v := by
  constructor
  · intro hkept
    have hobject : v.isObject = true := by
      obtain rfl | ⟨guide, -, rfl, -⟩ := hkept
      · exact isObject_of_timeGuide h
      · rfl
    refine ⟨hobject, ?_⟩
    obtain ⟨guide, rfl⟩ := Value.exists_of_isObject hobject
    have hstored : (Record.keys (Value.storedMembers guide)).Nodup := by
      rw [Value.keys_storedMembers]
      exact hv.nodup_keys
    rw [Value.stored, timeGuide_object] at h
    obtain rfl := Except.ok.inj h
    refine Value.stored_object_eq_self hv.nodup_keys fun key value hget ↦ ?_
    have hsame : (Record.override [("formatType", .text "time")]
        (Value.storedMembers guide)).get? key = some value := by
      obtain hkept | ⟨_, _, hguide, hguide', hkeep, -⟩ := hkept
      · rwa [Value.object.inj hkept]
      · obtain rfl := Value.object.inj hguide
        obtain rfl := Value.object.inj hguide'
        exact hkeep key value hget
    rw [Record.get?_override hstored, Value.get?_storedMembers, hget] at hsame
    exact Option.some.inj hsame
  · rintro ⟨hobject, hstored⟩
    obtain ⟨guide, rfl⟩ := Value.exists_of_isObject hobject
    rw [hstored, timeGuide_object] at h
    obtain rfl := Except.ok.inj h
    refine .inr ⟨guide, _, rfl, rfl, fun key value hget ↦ ?_, fun key hne ↦ ?_⟩
    · rw [Record.get?_override hv.nodup_keys, hget]
      rfl
    · rw [Record.has_override_eq, Record.has_cons, beq_eq_false_iff_ne.2 hne.symm]
      rfl

end Guides

/-- The members that lifting replaces. -/
def replacedKeys : List String := ["field", "aggregate", "bin", "timeUnit", "title"]

/-- Is a column derived for this definition? -/
def isDerived (fd : FieldDef) : Bool :=
  (givenAggregate? fd).isSome || fd.isBinned || fd.givenTimeUnit?.isSome

/-- Does this definition come to read bins? Those are quantitative. -/
def readsBins (fd : FieldDef) : Bool := (givenAggregate? fd).isNone && fd.isBinned

/-- Are labels formatted as times for this definition? Those of temporal fields are anyway. -/
def formatsTimes (fd : FieldDef) : Bool :=
  (givenAggregate? fd).isNone && !fd.isBinned && fd.givenTimeUnit?.isSome &&
    fd.type != some .temporal

/-- The member that says on a channel how labels are formatted. -/
def formatKey? (channel : String) : Option String :=
  if channel == "text" || channel == "tooltip" then some "formatType"
  else if Channel.isNonPosition channel then some "legend"
  else if Channel.isXOrY channel then some "axis"
  else none

/-- Is this a member of a definition that is not about what is lifted from it? -/
structure IsRest (fd : FieldDef) (d : Record Value) (key : String) (v : Value) : Prop where
  get? : d.get? key = some v
  notMem : key ∉ replacedKeys
  type : key = "type" → readsBins fd = false

/-- Is a member still there, at most with a type of format added to a guide? -/
def Keeps (fd : FieldDef) (shown : Record Value) (key : String) (v : Value) : Prop :=
  ∃ w, shown.get? key = some w ∧
    (w = v ∨ (key = "axis" ∨ key = "legend") ∧ formatsTimes fd = true ∧ v.AddsFormatType w)

/-- Is this a member that lifting spares? It is a value of JSON but not `null`, it is no second name
of the time unit, and it leaves room for the format of times where that is needed. -/
structure Spared (channel : String) (fd : FieldDef) (d : Record Value) (key : String) (v : Value) :
    Prop where
  ne_null : v ≠ .null
  stored : v.stored = v
  name : key = "time_unit" → d.has "timeUnit" = true
  format : formatsTimes fd = true → formatKey? channel = some key →
    if key = "formatType" then v = .text "time" else v.isObject = true

/-- How a member of a derived definition is shown: as it is, unless it says how labels are formatted
and times are to be formatted. -/
inductive Shows (formats : Bool) (channel : String) (members shown : Record Value)
    (key : String) : Prop
  | same (hother : formats = true → formatKey? channel ≠ some key)
      (h : shown.get? key = members.get? key)
  | format (hformats : formats = true) (hchannel : formatKey? channel = some key)
      (hkey : key = "formatType") (h : shown.get? key = some (.text "time"))
  | guide {w : Value} (hformats : formats = true) (hchannel : formatKey? channel = some key)
      (hkey : key ≠ "formatType") (hguide : timeGuide (members.value key) = .ok w)
      (h : shown.get? key = some w)

variable {fd : FieldDef} {d members shown : Record Value} {l : Lifted} {v w : Value}
  {channel countTitle output key : String}

theorem mem_of_formatKey? (h : formatKey? channel = some key) :
    key ∈ ["formatType", "legend", "axis"] := by
  rw [formatKey?] at h
  split at h
  · simp [← Option.some.inj h]
  · split at h
    · simp [← Option.some.inj h]
    · split at h
      · simp [← Option.some.inj h]
      · cases h

theorem shows_put_guide {guide : String} (hchannel : formatKey? channel = some guide)
    (hne : guide ≠ "formatType") (hguide : timeGuide (members.value guide) = .ok w) (key : String) :
    Shows true channel members (members.put guide w) key := by
  by_cases hkey : key = guide
  · subst hkey
    exact .guide rfl hchannel hne hguide (Record.get?_put_self _ _ _)
  · refine .same (fun _ h ↦ hkey ?_) (Record.get?_put_of_ne _ _ hkey)
    exact Option.some.inj (h.symm.trans hchannel)

theorem shows_of_formatted (h : formatted channel members = .ok shown) (key : String) :
    Shows true channel members shown key := by
  rw [formatted] at h
  split at h
  · rename_i htext
    have hchannel : formatKey? channel = some "formatType" := if_pos htext
    obtain rfl := Except.ok.inj h
    by_cases hkey : key = "formatType"
    · subst hkey
      exact .format rfl hchannel rfl (Record.get?_put_self _ _ _)
    · refine .same (fun _ h ↦ hkey ?_) (Record.get?_put_of_ne _ _ hkey)
      exact Option.some.inj (h.symm.trans hchannel)
  · rename_i htext
    split at h
    · rename_i hlegend
      have hchannel : formatKey? channel = some "legend" := by
        rw [formatKey?, if_neg htext, if_pos hlegend]
      obtain ⟨guide, hguide, h⟩ := bind_eq_ok_iff.1 h
      obtain rfl := Except.ok.inj h
      exact shows_put_guide hchannel (by decide) hguide key
    · rename_i hlegend
      split at h
      · rename_i haxis
        have hchannel : formatKey? channel = some "axis" := by
          rw [formatKey?, if_neg htext, if_neg hlegend, if_pos haxis]
        obtain ⟨guide, hguide, h⟩ := bind_eq_ok_iff.1 h
        obtain rfl := Except.ok.inj h
        exact shows_put_guide hchannel (by decide) hguide key
      · rename_i haxis
        have hchannel : formatKey? channel = none := by
          rw [formatKey?, if_neg htext, if_neg hlegend, if_neg haxis]
        obtain rfl := Except.ok.inj h
        exact .same (fun _ h ↦ Option.some_ne_none key (h.symm.trans hchannel)) rfl

theorem exists_shown_of_ofAggregate {aggregate : Operation}
    (h : ofAggregate fd output members aggregate = .ok l) :
    ∃ shown : Record Value, l.definition = .object shown ∧
      ∀ key, key ≠ "field" → shown.get? key = members.get? key := by
  cases aggregate with
  | named op =>
      obtain rfl := Except.ok.inj h
      exact ⟨members, rfl, fun _ _ ↦ rfl⟩
  | «with» parameters =>
      obtain ⟨given, -, h⟩ := bind_eq_ok_iff.1 h
      obtain ⟨field, -, h⟩ := bind_eq_ok_iff.1 h
      obtain ⟨column, -, h⟩ := bind_eq_ok_iff.1 h
      obtain rfl := Except.ok.inj h
      exact ⟨_, rfl, fun key hne ↦ Record.get?_put_of_ne _ _ hne⟩

theorem get?_binned (hbin : key ≠ "bin") (htype : key ≠ "type") :
    (binned channel members).get? key = members.get? key := by
  rw [binned]
  split
  · exact Record.get?_put_of_ne _ _ hbin
  · rw [Record.get?_put_of_ne _ _ htype, Record.get?_put_of_ne _ _ hbin]

theorem exists_shown_of_ofTimeUnit {unit : Operation}
    (h : ofTimeUnit channel fd unit output members = .ok l) :
    ∃ shown : Record Value, l.definition = .object shown ∧
      ∀ key, Shows (fd.type != some .temporal) channel members shown key := by
  rw [ofTimeUnit] at h
  dsimp only at h
  split at h
  · rename_i htype
    obtain rfl := Except.ok.inj h
    refine ⟨members, rfl, fun key ↦ .same (fun hformats ↦ ?_) rfl⟩
    rw [htype] at hformats
    cases hformats
  · rename_i htype
    obtain ⟨shown, hshown, h⟩ := bind_eq_ok_iff.1 h
    obtain rfl := Except.ok.inj h
    refine ⟨shown, rfl, fun key ↦ ?_⟩
    rw [bne_iff_ne.2 htype]
    exact shows_of_formatted hshown key

/-- A derived definition shows the members that it was written with. -/
theorem exists_shown_of_ofDef (h : ofDef countTitle channel v = .ok l) (hdef : isFieldDef v = true)
    (hread : FieldDef.read v = .ok fd) (hderived : isDerived fd = true) :
    ∃ output members shown, readDerived fd output countTitle = .ok members ∧
      l.definition = .object shown ∧ ∀ key, key ∉ replacedKeys →
        (key = "type" → readsBins fd = false) →
          Shows (formatsTimes fd) channel members shown key := by
  have hno : ∀ key : String, formatsTimes fd = false →
      formatsTimes fd = true → formatKey? channel ≠ some key :=
    fun _ hfalse htrue ↦ absurd htrue (ne_true_of_eq_false hfalse)
  cases arises_of_ofDef h with
  | other hother => exact absurd hdef (ne_true_of_eq_false hother)
  | plain _ hfd haggregate hbin hunit =>
      obtain rfl := Except.ok.inj (hread.symm.trans hfd)
      rw [isDerived, haggregate, isBinned_eq_isSome, hbin, hunit] at hderived
      cases hderived
  | aggregate _ hfd haggregate hmembers h =>
      obtain rfl := Except.ok.inj (hread.symm.trans hfd)
      obtain ⟨shown, hshown, hsame⟩ := exists_shown_of_ofAggregate h
      refine ⟨_, _, shown, hmembers, hshown, fun key hkey _ ↦ .same (hno key ?_) (hsame key ?_)⟩
      · rw [formatsTimes, haggregate]
        rfl
      · rintro rfl
        exact hkey (by decide)
  | bin _ hfd haggregate hbin hmembers h =>
      obtain rfl := Except.ok.inj (hread.symm.trans hfd)
      have hbinned : fd.isBinned = true := by
        rw [isBinned_eq_isSome, hbin]
        rfl
      obtain ⟨ending, range, -, rfl⟩ := exists_of_ofBin h
      refine ⟨_, _, _, hmembers, rfl, fun key hkey htype ↦ .same (hno key ?_) (get?_binned ?_ ?_)⟩
      · rw [formatsTimes, haggregate, hbinned]
        rfl
      · rintro rfl
        exact hkey (by decide)
      · intro heq
        have hreads := htype heq
        rw [readsBins, haggregate, hbinned] at hreads
        cases hreads
  | timeUnit _ hfd haggregate hbin hunit hmembers h =>
      obtain rfl := Except.ok.inj (hread.symm.trans hfd)
      have hformats : formatsTimes fd = (fd.type != some .temporal) := by
        rw [formatsTimes, haggregate, isBinned_eq_isSome, hbin, hunit]
        rfl
      obtain ⟨shown, hshown, hshows⟩ := exists_shown_of_ofTimeUnit h
      exact ⟨_, _, shown, hmembers, hshown, fun key _ _ ↦ hformats ▸ hshows key⟩

section Members

variable (hkeys : d.keys.Nodup) (hread : FieldDef.ofMembers d = .ok fd)

include hkeys hread

/-- Other members of a derived definition are those that the definition is stored with. -/
theorem get?_readDerived (hmembers : readDerived fd output countTitle = .ok members)
    (hkey : key ∉ replacedKeys) : members.get? key = fd.stored.get? key := by
  have hwithout : key ∉ ["field", "aggregate", "bin", "timeUnit"] :=
    fun h ↦ hkey (List.mem_append_left ["title"] h)
  have hnodup : (fd.stored.without ["field", "aggregate", "bin", "timeUnit"]).keys.Nodup :=
    (FieldDef.nodup_keys_stored hkeys hread).sublist (List.filter_sublist.map Prod.fst)
  obtain ⟨title, htitle, rfl⟩ := exists_title_of_readDerived hmembers
  have hfield : key ≠ "field" := fun h ↦ hkey (h ▸ by decide)
  have hother : key ≠ "title" := fun h ↦ hkey (h ▸ by decide)
  rw [Record.get?_put_of_ne _ _ hfield, Record.get?_override hnodup,
    Record.get?_of_notMem (htitle key hother), Record.get?_without_of_notMem hwithout,
    Option.or_none]

/-- A definition is stored with its other members, less those that are `null`. -/
theorem get?_stored_rest (hspelled : Encoding.Spelled d) (hrest : IsRest fd d key v)
    (hname : key = "time_unit" → d.has "timeUnit" = true) :
    fd.stored.get? key = v.given?.map Value.stored := by
  by_cases htype : key = "type"
  · subst htype
    obtain ⟨⟨type, hvalue⟩, -⟩ := hspelled
    obtain rfl : v = .text type.name := by
      rw [← hvalue, Record.value_of_get? hrest.get?]
    obtain ⟨hreads, -⟩ := FieldDef.ofMembers_eq_ok_iff.1 hread
    rw [hvalue, Encoding.readType_name] at hreads
    rw [FieldDef.get?_stored_type hkeys hread, ← Except.ok.inj hreads]
    rfl
  · have hunit : key ≠ FieldDef.timeUnitKey d := by
      rw [FieldDef.timeUnitKey]
      split
      · exact fun h ↦ hrest.notMem (h ▸ by decide)
      · rename_i hhas
        exact fun h ↦ hhas (hname h)
    have howned : Value.attributeKeys ⊆ "type" :: replacedKeys := by decide
    have hown : key ∉ Value.attributeKeys :=
      fun hmem ↦ (List.mem_cons.1 (howned hmem)).elim htype hrest.notMem
    have hextra : key ∉ FieldDef.timeUnitKey d :: Value.attributeKeys := by
      rw [List.mem_cons, not_or]
      exact ⟨hunit, hown⟩
    rw [FieldDef.get?_stored_extra hkeys hread hextra, Record.value_of_get? hrest.get?]

end Members

/-- A member that is shown as it is stored is kept if it is a value of JSON. -/
theorem keeps_iff_of_stored (hv : v.Distinct) (h : shown.get? key = v.given?.map Value.stored) :
    Keeps fd shown key v ↔ v ≠ .null ∧ v.stored = v := by
  constructor
  · rintro ⟨w, hw, hkept⟩
    obtain ⟨hnull, rfl⟩ := Value.map_stored_given?_eq_some_iff.1 (h.symm.trans hw)
    obtain hsame | ⟨-, -, hadds⟩ := hkept
    · exact ⟨hnull, hsame⟩
    · exact ⟨hnull, hadds.stored_eq_self hv⟩
  · rintro ⟨hnull, hstored⟩
    have hgiven := Value.map_stored_given?_eq_some_iff.2 ⟨hnull, hstored.symm⟩
    exact ⟨v, h.trans hgiven, .inl rfl⟩

theorem keeps_formatType_iff (h : shown.get? "formatType" = some (.text "time")) :
    Keeps fd shown "formatType" v ↔ v = .text "time" := by
  constructor
  · rintro ⟨w, hw, hkept⟩
    obtain rfl := Option.some.inj (h.symm.trans hw)
    obtain hsame | ⟨hguide, -⟩ := hkept
    · exact hsame.symm
    · exact absurd hguide (by decide)
  · rintro rfl
    exact ⟨_, h, .inl rfl⟩

theorem keeps_guide_iff (hv : v.Distinct) (hkey : key = "axis" ∨ key = "legend")
    (hformats : formatsTimes fd = true) (hguide : timeGuide v.stored = .ok w)
    (h : shown.get? key = some w) :
    Keeps fd shown key v ↔ v.isObject = true ∧ v.stored = v := by
  rw [← timeGuide_keeps_iff hv hguide]
  constructor
  · rintro ⟨w', hw', hkept⟩
    obtain rfl := Option.some.inj (h.symm.trans hw')
    exact hkept.imp_right fun hadds ↦ hadds.2.2
  · intro hkept
    exact ⟨w, h, hkept.imp_right fun hadds ↦ ⟨hkey, hformats, hadds⟩⟩

/-- Whatever is not about what is lifted is kept exactly if it is spared. -/
theorem keeps_iff_spared (hspelled : Encoding.Spelled d) (hdistinct : (Value.object d).Distinct)
    (hread : FieldDef.ofMembers d = .ok fd) (hrest : IsRest fd d key v)
    (hmembers : members.get? key = fd.stored.get? key)
    (hshows : Shows (formatsTimes fd) channel members shown key) :
    Keeps fd shown key v ↔ Spared channel fd d key v := by
  have hkeys : d.keys.Nodup := hdistinct.nodup_keys
  have hv : v.Distinct := hdistinct.of_get? hrest.get?
  cases hshows with
  | same hother h =>
      rw [hmembers] at h
      by_cases hname : key = "time_unit" → d.has "timeUnit" = true
      · rw [get?_stored_rest hkeys hread hspelled hrest hname] at h
        rw [keeps_iff_of_stored hv h]
        constructor
        · rintro ⟨hnull, hstored⟩
          exact ⟨hnull, hstored, hname, fun hformats hchannel ↦
            absurd hchannel (hother hformats)⟩
        · exact fun hspared ↦ ⟨hspared.ne_null, hspared.stored⟩
      · -- A time unit by its second name is written, if at all, by its first one.
        refine iff_of_false ?_ fun hspared ↦ hname hspared.name
        obtain ⟨rfl, hhas⟩ := Classical.not_imp.1 hname
        have hnone : d.get? "timeUnit" = none := by
          rwa [Record.has_eq_isSome, Option.not_isSome_iff_eq_none] at hhas
        rw [FieldDef.get?_stored_otherName hkeys hread hnone] at h
        rintro ⟨w, hw, -⟩
        cases h.symm.trans hw
  | format hformats hchannel hkey h =>
      subst hkey
      rw [keeps_formatType_iff h]
      constructor
      · rintro rfl
        exact ⟨Value.noConfusion, rfl, fun h ↦ absurd h (by decide), fun _ _ ↦ rfl⟩
      · exact fun hspared ↦ hspared.format hformats hchannel
  | guide hformats hchannel hkey hguide h =>
      have hname : key = "time_unit" → d.has "timeUnit" = true := by
        rintro rfl
        exact absurd (mem_of_formatKey? hchannel) (by decide)
      have hstands : key = "axis" ∨ key = "legend" := by
        have hmem := mem_of_formatKey? hchannel
        simp only [List.mem_cons, List.not_mem_nil, hkey, false_or, or_false] at hmem
        exact hmem.symm
      rw [Record.value, hmembers, get?_stored_rest hkeys hread hspelled hrest hname,
        Value.ofOption_map_stored_given?] at hguide
      rw [keeps_guide_iff hv hstands hformats hguide h]
      constructor
      · rintro ⟨hobject, hstored⟩
        refine ⟨?_, hstored, hname, fun _ _ ↦ ?_⟩
        · rintro rfl
          cases hobject
        · rwa [if_neg hkey]
      · intro hspared
        have hobject := hspared.format hformats hchannel
        rw [if_neg hkey] at hobject
        exact ⟨hobject, hspared.stored⟩

/-- If a column is derived for the first definition, does the second one keep of the rest of it just
what is spared? -/
def KeepsSpared (channel : String) (x y : Value) : Prop :=
  isFieldDef x = true → ∃ d fd, x = .object d ∧ FieldDef.ofMembers d = .ok fd ∧
    (isDerived fd = true → ∃ shown, y = .object shown ∧
      ∀ key v, IsRest fd d key v → (Keeps fd shown key v ↔ Spared channel fd d key v))

theorem keepsSpared_of_ofDef (htyped : Encoding.Typed v) (hdistinct : v.Distinct)
    (h : ofDef countTitle channel v = .ok l) : KeepsSpared channel v l.definition := by
  intro hdef
  obtain ⟨d, rfl, hspelled, -⟩ := htyped
  obtain ⟨fd, hread⟩ : ∃ fd, FieldDef.ofMembers d = .ok fd := by
    cases arises_of_ofDef h with
    | other hother => exact absurd hdef (ne_true_of_eq_false hother)
    | plain _ hread | aggregate _ hread | bin _ hread | timeUnit _ hread => exact ⟨_, hread⟩
  refine ⟨d, fd, rfl, hread, fun hderived ↦ ?_⟩
  obtain ⟨output, members, shown, hmembers, hshown, hshows⟩ :=
    exists_shown_of_ofDef h hdef hread hderived
  refine ⟨shown, hshown, fun key v hrest ↦ ?_⟩
  exact keeps_iff_spared (hspelled hdef) hdistinct hread hrest
    (get?_readDerived hdistinct.nodup_keys hread hmembers hrest.notMem)
    (hshows key hrest.notMem hrest.type)

end Lifted

namespace Extraction

variable {parse : Shorthand.Reader} {raw v : Value} {encoding : Encoding}
  {channel countTitle : String} {r : Extraction}

/-- The definitions of a normal encoding that columns are derived for keep of the rest of their
members just those that are spared, unless the end of a bin takes their channel. -/
theorem keep_rest_iff (hraw : (Encoding.normalize raw parse).outcome = .ok encoding)
    (hkeys : encoding.keys.Nodup) (hdistinct : ∀ d ∈ encoding.definitions, d.2.Distinct)
    (h : ofEncoding encoding countTitle = .ok r) (hmem : (channel, v) ∈ encoding) :
    ∃ w, r.encoding.get? channel = some w ∧
      (r.IsEnd channel w ∨ w.isList = v.isList ∧
        List.Forall₂ (Lifted.KeepsSpared channel) v.itemsOrSelf w.itemsOrSelf) := by
  obtain ⟨w, hw, hrewrites | hend⟩ := place_of_ofEncoding hkeys h hmem
  · refine ⟨w, hw, .inr ⟨hrewrites.isList, ?_⟩⟩
    obtain ⟨hlength, hzip⟩ := List.forall₂_iff_zip.1 hrewrites.items
    refine List.forall₂_iff_zip.2 ⟨hlength, fun {x y} hxy ↦ ?_⟩
    obtain ⟨l, hl, rfl, -⟩ := hzip hxy
    have hx : (channel, x) ∈ encoding.definitions :=
      mem_definitions_iff.2 ⟨v, hmem, (List.of_mem_zip hxy).1⟩
    exact Lifted.keepsSpared_of_ofDef (Encoding.typed_of_normalize hraw _ hx) (hdistinct _ hx) hl
  · exact ⟨w, hw, .inl hend⟩

/-- Months that are not temporal, with an axis of their own. -/
def tiltedMonths : Record Value :=
  [("field", .text "t"), ("type", .text "ordinal"), ("timeUnit", .text "month"),
   ("axis", .object [("labelAngle", .int 45)]), ("sort", .text "descending")]

theorem distinct_tiltedMonths : (Value.object tiltedMonths).Distinct := by
  refine Value.distinct_object (by decide) ?_
  simp only [tiltedMonths, List.forall_mem_cons]
  refine ⟨Value.distinct_of_not_object rfl, Value.distinct_of_not_object rfl,
    Value.distinct_of_not_object rfl, Value.distinct_object (by decide) ?_,
    Value.distinct_of_not_object rfl, fun _ hm ↦ nomatch hm⟩
  simp only [List.forall_mem_cons]
  exact ⟨Value.distinct_of_not_object rfl, fun _ hm ↦ nomatch hm⟩

theorem keep_rest_iff_tiltedMonths : ∃ r fd shown,
    ofEncoding [("x", .object tiltedMonths)] "" = .ok r ∧
    FieldDef.ofMembers tiltedMonths = .ok fd ∧ r.encoding.get? "x" = some (.object shown) ∧
    Lifted.Keeps fd shown "sort" (.text "descending") ∧
    Lifted.Keeps fd shown "axis" (.object [("labelAngle", .int 45)]) := by
  have hrun : (do
      let _ ← ofEncoding [("x", .object tiltedMonths)] ""
      pure ()) = (.ok () : Except Fault Unit) := by
    decide +kernel
  obtain ⟨r, hr, -⟩ := bind_eq_ok_iff.1 hrun
  have hdistinct : ∀ d ∈ Encoding.definitions [("x", .object tiltedMonths)], d.2.Distinct :=
    List.forall_mem_singleton.2 distinct_tiltedMonths
  have hraw : (Encoding.normalize (.object [("x", .object tiltedMonths)])).outcome =
      .ok [("x", .object tiltedMonths)] := by
    decide +kernel
  obtain ⟨w, hw, hend | ⟨hlist, hkeeps⟩⟩ :=
    keep_rest_iff hraw (by decide) hdistinct hr (List.mem_singleton_self _)
  · obtain ⟨axis, haxis, hchannel, -⟩ := hend
    obtain rfl | rfl : axis = "x" ∨ axis = "y" := by simpa [Channel.isXOrY] using haxis
    all_goals exact absurd hchannel (by decide)
  · have hself : w.itemsOrSelf = [w] := by
      cases w with
      | list items => cases hlist
      | _ => rfl
    rw [hself] at hkeeps
    obtain ⟨d, fd, hd, hread, hkeeps⟩ := (List.forall₂_cons.1 hkeeps).1 (by decide)
    obtain rfl := Value.object.inj hd
    have hderived : Lifted.isDerived <$> FieldDef.ofMembers tiltedMonths = .ok true := by
      decide +kernel
    rw [hread] at hderived
    obtain ⟨shown, hshown, hkept⟩ := hkeeps (Except.ok.inj hderived)
    have hsort : Lifted.Spared "x" fd tiltedMonths "sort" (.text "descending") :=
      ⟨Value.noConfusion, rfl, fun h ↦ absurd h (by decide),
        fun _ hchannel ↦ absurd hchannel (by decide)⟩
    have haxis : Lifted.Spared "x" fd tiltedMonths "axis" (.object [("labelAngle", .int 45)]) :=
      ⟨Value.noConfusion, rfl, fun h ↦ absurd h (by decide), fun _ _ ↦ rfl⟩
    exact ⟨r, fd, shown, hr, hread, hshown ▸ hw,
      (hkept _ _ ⟨rfl, by decide, fun h ↦ absurd h (by decide)⟩).2 hsort,
      (hkept _ _ ⟨rfl, by decide, fun h ↦ absurd h (by decide)⟩).2 haxis⟩

/-- A mean without an axis. -/
def barelyMean : Record Value :=
  [("field", .text "v"), ("type", .text "quantitative"), ("aggregate", .text "mean"),
   ("axis", .null)]

/-- That there is to be no axis is lost. -/
theorem not_keep_rest_barelyMean : ∃ r fd shown,
    (Encoding.normalize (.object [("y", .object barelyMean)])).outcome =
      .ok [("y", .object barelyMean)] ∧
    ofEncoding [("y", .object barelyMean)] "" = .ok r ∧
    FieldDef.ofMembers barelyMean = .ok fd ∧ Lifted.isDerived fd = true ∧
    r.encoding.get? "y" = some (.object shown) ∧ Lifted.IsRest fd barelyMean "axis" .null ∧
    ¬Lifted.Keeps fd shown "axis" .null := by
  have hrun : (do
      let r ← ofEncoding [("y", .object barelyMean)] ""
      let fd ← FieldDef.ofMembers barelyMean
      pure (r.encoding, Lifted.isDerived fd)) =
      .ok ([("y", .object [("title", .text "Mean of v"), ("type", .text "quantitative"),
        ("field", .text "mean_v")])], true) := by
    decide +kernel
  obtain ⟨r, hr, hrun⟩ := bind_eq_ok_iff.1 hrun
  obtain ⟨fd, hfd, hrun⟩ := bind_eq_ok_iff.1 hrun
  obtain ⟨hencoding, hderived⟩ := Prod.mk.inj (Except.ok.inj hrun)
  refine ⟨r, fd, _, by decide +kernel, hr, hfd, hderived, by rw [hencoding]; rfl,
    ⟨rfl, by decide, fun h ↦ absurd h (by decide)⟩, ?_⟩
  rintro ⟨w, hw, -⟩
  cases hw

end Extraction

end ChartLowering
