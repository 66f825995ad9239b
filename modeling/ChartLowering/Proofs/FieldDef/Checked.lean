import ChartLowering.Proofs.Encoding.Normal
import ChartLowering.Proofs.Json.Canonical

/-!
# Checked field definitions

A field definition can be given as the object that an author writes or as a checked one that was
read from it. A checked one forgets which of its members were given as `null`.
-/

namespace ChartLowering

section Stored

variable {r : Record Value} {v : Value}

theorem Value.get?_storedAttributes (h : r.keys.Nodup) (key : String) :
    Record.get? (storedAttributes r) key = ((r.get? key).bind given?).map stored := by
  induction r with
  | nil => rfl
  | cons m rest ih =>
      obtain ⟨k, v⟩ := m
      obtain ⟨hk, hrest⟩ := List.nodup_cons.1 h
      rw [storedAttributes, Record.get?_cons]
      by_cases hkey : key = k
      · subst hkey
        rw [if_pos rfl]
        cases v with
        | null =>
            show Record.get? (storedAttributes rest) key = none
            rw [ih hrest, Record.get?_of_notMem hk]
            rfl
        | _ => exact (Record.get?_cons _ _ _ _).trans (if_pos rfl)
      · rw [if_neg hkey, ← ih hrest]
        cases v with
        | null => rfl
        | _ => exact (Record.get?_cons _ _ _ _).trans (if_neg hkey)

theorem Value.ofOption_given? (v : Value) : ofOption v.given? = v := by
  cases v <;> rfl

theorem Value.optional_eq_ok_iff {α : Type} {read? : Value → Option α} {a : Option α} :
    Value.optional read? v = .ok a ↔
      v = .null ∧ a = none ∨ v ≠ .null ∧ ∃ b, read? v = some b ∧ a = some b := by
  cases v with
  | null => simp [optional, pure, Except.pure, eq_comm]
  | _ =>
      rw [optional]
      · split
        · rename_i b hb
          simp [hb, pure, Except.pure, eq_comm]
        · rename_i hb
          simp [hb]
      · exact Value.noConfusion

theorem Value.ofOption_of_optional {α : Type} {read? : Value → Option α} {toValue : α → Value}
    {a : Option α} (hread : ∀ v a, read? v = some a → toValue a = v)
    (h : Value.optional read? v = .ok a) : ofOption (a.map toValue) = v := by
  rcases Value.optional_eq_ok_iff.1 h with ⟨rfl, rfl⟩ | ⟨-, b, hb, rfl⟩
  · rfl
  · exact hread _ _ hb

theorem Value.map_given?_stored (hv : stored v = v) : v.given?.map stored = v.given? := by
  cases v with
  | null => rfl
  | _ => exact congrArg some hv

theorem Operation.toValue_of_ofValue? {a : Operation} (h : ofValue? v = some a) :
    a.toValue = v := by
  cases v <;> cases h <;> rfl

/-- Except for numbers, a binning is written as it was given. -/
theorem Binning.toValue_of_ofValue? {b : Binning} (h : ofValue? v = some b) :
    b.toValue = v ∨ v.isNumber = true ∧ ∃ on, b = flag on := by
  cases v with
  | int i =>
      refine .inr ⟨rfl, ?_⟩
      rw [ofValue?.eq_def] at h
      split at h <;> first | contradiction | exact ⟨_, (Option.some.inj h).symm⟩
  | float x =>
      refine .inr ⟨rfl, ?_⟩
      rw [ofValue?] at h
      split at h <;> first | contradiction | exact ⟨_, (Option.some.inj h).symm⟩
  | _ => cases h <;> exact .inl rfl

theorem Encoding.asksBinning_of_isNumber (hne : v ≠ .bool true) (hnumber : v.isNumber = true) :
    asksBinning v = false := by
  cases v with
  | bool on =>
      cases on with
      | true => exact (hne rfl).elim
      | false => rfl
  | int | float => rfl
  | _ => cases hnumber

end Stored

namespace FieldDef

variable {d : Record Value} {fd : FieldDef} {key : String}

theorem ofMembers_eq_ok_iff : ofMembers d = .ok fd ↔
    readType (d.value "type") = .ok fd.type ∧
      Value.optional Value.text? (d.value "field") = .ok fd.field ∧
      Value.optional Operation.ofValue? (d.value "aggregate") = .ok fd.aggregate ∧
      Value.optional Binning.ofValue? (d.value "bin") = .ok fd.bin ∧
      Value.optional Operation.ofValue? (d.value (timeUnitKey d)) = .ok fd.timeUnit ∧
      fd.title = d.value "title" ∧
      fd.extras = d.without (timeUnitKey d :: Value.attributeKeys) := by
  constructor
  · intro h
    obtain ⟨type, htype, h⟩ := bind_eq_ok_iff.1 h
    obtain ⟨field, hfield, h⟩ := bind_eq_ok_iff.1 h
    obtain ⟨aggregate, haggregate, h⟩ := bind_eq_ok_iff.1 h
    obtain ⟨bin, hbin, h⟩ := bind_eq_ok_iff.1 h
    obtain ⟨timeUnit, htimeUnit, h⟩ := bind_eq_ok_iff.1 h
    obtain rfl := Except.ok.inj h
    exact ⟨htype, hfield, haggregate, hbin, htimeUnit, rfl, rfl⟩
  · rintro ⟨htype, hfield, haggregate, hbin, htimeUnit, htitle, hextras⟩
    rw [ofMembers, htype, ok_bind, hfield, ok_bind, haggregate, ok_bind, hbin, ok_bind, htimeUnit,
      ok_bind, ← htitle, ← hextras]
    rfl

theorem timeUnitKey_of_get? {v : Value} (h : d.get? "timeUnit" = some v) :
    timeUnitKey d = "timeUnit" := by
  rw [timeUnitKey, Record.has_eq_isSome, h]
  rfl

theorem timeUnitKey_of_none (h : d.get? "timeUnit" = none) : timeUnitKey d = "time_unit" := by
  rw [timeUnitKey, Record.has_eq_isSome, h]
  rfl

theorem timeUnitKey_ne (d : Record Value) (htimeUnit : key ≠ "timeUnit")
    (hother : key ≠ "time_unit") : key ≠ timeUnitKey d := by
  rw [timeUnitKey]
  split
  · exact htimeUnit
  · exact hother

section Own

variable (hkeys : d.keys.Nodup) (hread : ofMembers d = .ok fd)

include hkeys hread

theorem nodup_keys_members : fd.members.keys.Nodup := by
  obtain ⟨-, -, -, -, -, -, hextras⟩ := ofMembers_eq_ok_iff.1 hread
  have hsplit : fd.members.keys = Value.attributeKeys ++ fd.extras.keys := by
    simp [members, Record.keys, Value.attributeKeys]
  rw [hsplit, List.nodup_append]
  refine ⟨by decide, ?_, ?_⟩
  · rw [hextras]
    exact hkeys.sublist (List.filter_sublist.map Prod.fst)
  · intro own hown other hother heq
    obtain ⟨m, hm, rfl⟩ := List.mem_map.1 hother
    exact clean_of_ofMembers hread m hm (heq ▸ hown)

theorem nodup_keys_stored : fd.stored.keys.Nodup := by
  rw [stored, Value.storedAttributes_eq_map, Record.keys, List.map_map]
  exact (nodup_keys_members hkeys hread).sublist (List.filter_sublist.map Prod.fst)

theorem get?_stored (key : String) :
    fd.stored.get? key = ((fd.members.get? key).bind Value.given?).map Value.stored :=
  Value.get?_storedAttributes (nodup_keys_members hkeys hread) key

/-- Further members are kept unless they are `null`. -/
theorem get?_stored_extra (hkey : key ∉ timeUnitKey d :: Value.attributeKeys) :
    fd.stored.get? key = (d.value key).given?.map Value.stored := by
  obtain ⟨-, -, -, -, -, -, hextras⟩ := ofMembers_eq_ok_iff.1 hread
  have hown : key ∉ Value.attributeKeys := fun h ↦ hkey (List.mem_cons_of_mem _ h)
  have hget : fd.members.get? key = d.get? key := by
    have hextra : fd.extras.get? key = d.get? key := by
      rw [hextras, Record.get?_without_of_notMem hkey]
    rw [← hextra]
    exact Record.get?_append_of_notMem (by simpa [Record.keys, Value.attributeKeys] using hown)
  rw [get?_stored hkeys hread, hget, Record.value]
  cases d.get? key <;> rfl

theorem get?_stored_otherName (hd : d.get? "timeUnit" = none) :
    fd.stored.get? "time_unit" = none := by
  obtain ⟨-, -, -, -, -, -, hextras⟩ := ofMembers_eq_ok_iff.1 hread
  have hextra : "time_unit" ∉ fd.extras.keys := by
    rw [hextras, timeUnitKey_of_none hd]
    intro hmem
    obtain ⟨m, hm, hkey⟩ := List.mem_map.1 hmem
    have hkept := (List.mem_filter.1 hm).2
    rw [hkey] at hkept
    revert hkept
    decide
  have hget : fd.members.get? "time_unit" = none :=
    (Record.get?_append_of_notMem (by simp [Record.keys])).trans (Record.get?_of_notMem hextra)
  rw [get?_stored hkeys hread, hget]
  rfl

theorem get?_stored_own {v : Value} (hget : fd.members.get? key = some v) :
    fd.stored.get? key = v.given?.map Value.stored := by
  rw [get?_stored hkeys hread, hget]
  rfl

end Own

theorem exists_of_readType {v : Value} {type : Option FieldType} (hnull : v ≠ .null)
    (h : readType v = .ok type) : ∃ t, FieldType.read v = .ok t ∧ type = some t := by
  unfold readType at h
  split at h
  · exact (hnull rfl).elim
  · split at h
    · rename_i t hread
      exact ⟨t, hread, (Except.ok.inj h).symm⟩
    · cases h
    · cases h

/-- The members that the shorthand of a definition stands for, none if there is no shorthand. They
lie below those of the definition. -/
def below (d : Record Value) (parse : Shorthand.Reader := Shorthand.members) : Record Value :=
  match d.get? "shorthand" with
  | some (.text s) => ((parse s).toOption).getD []
  | _ => []

/-- Nothing but the scale is lost when a field definition is checked: its values are those of JSON,
and where it matters nothing is given as `null`, under the other name of the time unit, or as the
number one. -/
structure Kept (d : Record Value) (parse : Shorthand.Reader := Shorthand.members) : Prop where
  stored : ∀ m ∈ d, Value.stored m.2 = m.2
  field : d.value "field" ≠ .null ∨ d.value "aggregate" = .text "count"
  datum : d.get? "datum" ≠ some .null
  bin : Binning.ofValue? (d.value "bin") = some (.flag true) → d.value "bin" = .bool true
  timeUnit : d.get? "timeUnit" = some .null → d.value "time_unit" = .null
  type : d.get? "timeUnit" = none → d.value "type" = .null → (below d parse).get? "type" = none →
    (d.value "time_unit").truthy = false
  shorthand : ∀ key ∈ (below d parse).keys, d.get? key ≠ some .null
  alone : (below d parse).has "timeUnit" = true → d.value "time_unit" = .null

section Lookups

variable {parse : Shorthand.Reader} (hkeys : d.keys.Nodup) (hread : ofMembers d = .ok fd)
  (hkept : Kept d parse)

include hkept in
theorem Kept.stored_value (key : String) : Value.stored (d.value key) = d.value key := by
  rw [Record.value]
  cases hget : d.get? key with
  | none => rfl
  | some v => exact hkept.stored _ (Record.mem_of_get? hget)

include hkeys hread hkept

theorem Kept.get?_extra (hkey : key ∉ timeUnitKey d :: Value.attributeKeys) :
    fd.stored.get? key = (d.value key).given? := by
  rw [get?_stored_extra hkeys hread hkey, Value.map_given?_stored (hkept.stored_value key)]

theorem Kept.get?_further (htimeUnit : key ≠ "timeUnit") (hother : key ≠ "time_unit")
    (hown : key ∉ Value.attributeKeys) : fd.stored.get? key = (d.value key).given? := by
  refine hkept.get?_extra hkeys hread ?_
  rw [List.mem_cons, not_or]
  exact ⟨timeUnitKey_ne d htimeUnit hother, hown⟩

theorem Kept.get?_field : fd.stored.get? "field" = (d.value "field").given? := by
  obtain ⟨-, hfield, -⟩ := ofMembers_eq_ok_iff.1 hread
  have hvalue : Value.ofOption (fd.field.map .text) = d.value "field" :=
    Value.ofOption_of_optional (by rintro (_ | _) a h <;> cases h; rfl) hfield
  have hget : fd.members.get? "field" = some (d.value "field") := by
    rw [← hvalue]
    rfl
  rw [get?_stored_own hkeys hread hget, Value.map_given?_stored (hkept.stored_value _)]

theorem Kept.get?_aggregate : fd.stored.get? "aggregate" = (d.value "aggregate").given? := by
  obtain ⟨-, -, haggregate, -⟩ := ofMembers_eq_ok_iff.1 hread
  have hvalue := Value.ofOption_of_optional (fun _ _ ↦ Operation.toValue_of_ofValue?) haggregate
  have hget : fd.members.get? "aggregate" = some (d.value "aggregate") := by
    rw [← hvalue]
    rfl
  rw [get?_stored_own hkeys hread hget, Value.map_given?_stored (hkept.stored_value _)]

/-- The time unit is written by its first name, whichever it was given by. -/
theorem Kept.get?_timeUnit :
    fd.stored.get? "timeUnit" = (d.value (timeUnitKey d)).given? := by
  obtain ⟨-, -, -, -, htimeUnit, -⟩ := ofMembers_eq_ok_iff.1 hread
  have hvalue := Value.ofOption_of_optional (fun _ _ ↦ Operation.toValue_of_ofValue?) htimeUnit
  have hget : fd.members.get? "timeUnit" = some (d.value (timeUnitKey d)) := by
    rw [← hvalue]
    rfl
  rw [get?_stored_own hkeys hread hget, Value.map_given?_stored (hkept.stored_value _)]

omit hkept in
theorem get?_stored_type : fd.stored.get? "type" = fd.type.map fun t ↦ .text t.name := by
  have hget : fd.members.get? "type" = some (Value.ofOption (fd.type.map fun t ↦ .text t.name)) :=
    rfl
  rw [get?_stored_own hkeys hread hget]
  cases fd.type <;> rfl

theorem Kept.bin_alike (channel : String) :
    Encoding.asksBinning (fd.stored.value "bin") = Encoding.asksBinning (d.value "bin") ∧
      Value.optional Binning.ofValue? (Encoding.spelledBin channel (fd.stored.value "bin")) =
        Value.optional Binning.ofValue? (Encoding.spelledBin channel (d.value "bin")) := by
  obtain ⟨-, -, -, hbin, -⟩ := ofMembers_eq_ok_iff.1 hread
  have hget : fd.members.get? "bin" = some (Value.ofOption (fd.bin.map Binning.toValue)) := rfl
  have hstored := get?_stored_own hkeys hread hget
  have hvalue : fd.stored.value "bin" =
      Value.ofOption (((Value.ofOption (fd.bin.map Binning.toValue)).given?).map Value.stored) := by
    rw [Record.value, hstored]
  rcases Value.optional_eq_ok_iff.1 hbin with ⟨hnull, hnone⟩ | ⟨-, b, hb, hsome⟩
  · rw [hvalue, hnone, hnull]
    exact ⟨rfl, rfl⟩
  · rw [hsome] at hvalue
    rcases Binning.toValue_of_ofValue? hb with hsame | ⟨hnumber, on, rfl⟩
    · have hwritten : fd.stored.value "bin" = d.value "bin" := by
        rw [hvalue, Option.map_some, hsame]
        show Value.ofOption ((d.value "bin").given?.map Value.stored) = _
        rw [Value.map_given?_stored (hkept.stored_value _), Value.ofOption_given?]
      rw [hwritten]
      exact ⟨rfl, rfl⟩
    · cases on with
      | true =>
          have hone := hkept.bin hb
          rw [hvalue, hone]
          exact ⟨rfl, rfl⟩
      | false =>
          -- Zero is written as the truth value that it counts as.
          have hne : d.value "bin" ≠ .bool true := by
            intro heq
            rw [heq] at hb
            cases hb
          have hread : Value.optional Binning.ofValue? (d.value "bin") = .ok (some (.flag false)) :=
            hbin.trans (congrArg _ hsome)
          rw [hvalue, Encoding.asksBinning_of_isNumber hne hnumber, Encoding.spelledBin_of_ne hne,
            hread]
          exact ⟨rfl, rfl⟩

end Lookups

end FieldDef

end ChartLowering
