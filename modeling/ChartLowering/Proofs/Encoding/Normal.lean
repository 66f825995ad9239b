import ChartLowering.Proofs.Report
import ChartLowering.Proofs.Value.Record
import ChartLowering.Unit.Model

/-!
# Normal forms of encodings

Bringing an encoding into normal form a second time tells nothing and changes nothing, unless a
condition that is spelled out as pairs has turned into a field definition on the way. Nobody has
looked at the type of such a definition.
-/

namespace ChartLowering

namespace Shorthand

/-- What a text can say of a field definition. -/
def keys : List String := ["field", "aggregate", "timeUnit", "type"]

/-- What all readers of shorthands have in common. Texts stand for definitions with members of
these, each with something in it, and what cannot be read is bad content. -/
structure Documented (parse : Reader) : Prop where
  given : ∀ s found, parse s = .ok found → ∀ m ∈ found, m.1 ∈ keys ∧ m.2 ≠ .null
  refused : ∀ s fault, parse s = .error fault → fault = .badContent

/-- No text stands for a definition that has a shorthand itself. -/
theorem Documented.has_shorthand {parse : Reader} (h : Documented parse) {s : String}
    {found : Record Value} (hfound : parse s = .ok found) : found.has "shorthand" = false := by
  have habsent : "shorthand" ∉ found.keys := by
    intro hmem
    obtain ⟨m, hm, hkey⟩ := List.mem_map.1 hmem
    have hknown := (h.given s found hfound m hm).1
    rw [hkey] at hknown
    exact absurd hknown (by decide)
  rw [Record.has_eq_isSome, Record.get?_of_notMem habsent]
  rfl

theorem documented_members : Documented members := by
  have hsource (source : Source) : ∀ m ∈ source.members, m.1 ∈ keys ∧ m.2 ≠ .null := by
    cases source <;> simp [Source.members, textMember, keys]
  constructor
  · intro s found h m hm
    rw [members] at h
    split at h
    · obtain rfl := Except.ok.inj h
      cases hm
    · dsimp only at h
      split at h
      · split at h
        · obtain rfl := Except.ok.inj h
          rcases List.mem_append.1 hm with hm | hm
          · exact hsource _ m hm
          · obtain rfl := List.mem_singleton.1 hm
            simp [keys]
        · obtain rfl := Except.ok.inj h
          exact hsource _ m hm
      · cases h
  · intro s fault h
    rw [members] at h
    split at h
    · cases h
    · dsimp only at h
      split at h
      · split at h <;> cases h
      · exact (Except.error.inj h).symm

end Shorthand

namespace Encoding

open ChannelDef

section Fields

variable {channel : String} {members spelled : Record Value}

/-- The members of a field definition in normal form: its type has its full name, and there is no
bare request for binning. -/
def Spelled (members : Record Value) : Prop :=
  (∃ type : FieldType, members.value "type" = .text type.name) ∧
    members.get? "bin" ≠ some (.bool true)

instance (members : Record Value) : Decidable (Spelled members) :=
  have hall : (∃ type ∈ FieldType.all, members.value "type" = .text type.name) ↔
      ∃ type : FieldType, members.value "type" = .text type.name :=
    exists_congr fun type ↦ and_iff_right (by cases type <;> decide)
  decidable_of_iff _ (and_congr_left' hall)

theorem isFieldDef_put {key : String} {v : Value} (hfield : key ≠ "field")
    (haggregate : key ≠ "aggregate") :
    isFieldDef (.object (members.put key v)) = isFieldDef (.object members) := by
  rw [isFieldDef, isFieldDef, Record.has_put_of_ne hfield.symm,
    Record.value_put_of_ne haggregate.symm]

theorem spelledBin_ne (bin : Value) : spelledBin channel bin ≠ .bool true := by
  rw [spelledBin]
  split
  · exact Value.noConfusion
  · rename_i h
    simpa using h

theorem spelledBin_of_ne {bin : Value} (h : bin ≠ .bool true) : spelledBin channel bin = bin := by
  rw [spelledBin, if_neg fun heq ↦ h (beq_iff_eq.1 heq)]

theorem spellField_eq_ok_iff :
    spellField channel members = .ok spelled ↔ ∃ type, typeOf channel members = .ok type ∧
      spelled = ((members.put "type" (.text type.name)).get? "bin").elim
        (members.put "type" (.text type.name))
        fun bin ↦ (members.put "type" (.text type.name)).put "bin" (spelledBin channel bin) := by
  rw [spellField, bind_eq_ok_iff]
  refine exists_congr fun type ↦ and_congr_right fun _ ↦ ?_
  dsimp only
  split
  · rename_i bin hbin
    rw [hbin]
    exact ⟨fun h ↦ (Except.ok.inj h).symm, fun h ↦ congrArg _ h.symm⟩
  · rename_i hbin
    rw [hbin]
    exact ⟨fun h ↦ (Except.ok.inj h).symm, fun h ↦ congrArg _ h.symm⟩

theorem spelled_of_spellField (h : spellField channel members = .ok spelled) : Spelled spelled := by
  obtain ⟨type, -, rfl⟩ := spellField_eq_ok_iff.1 h
  cases hbin : (members.put "type" (.text type.name)).get? "bin" with
  | none => exact ⟨⟨type, Record.value_put_self⟩, by simp [hbin]⟩
  | some bin =>
      refine ⟨⟨type, ?_⟩, ?_⟩
      · rw [Option.elim_some, Record.value_put_of_ne (by decide), Record.value_put_self]
      · rw [Option.elim_some, Record.get?_put_self]
        exact fun heq ↦ spelledBin_ne bin (Option.some.inj heq)

theorem isFieldDef_of_spellField (h : spellField channel members = .ok spelled) :
    isFieldDef (.object spelled) = isFieldDef (.object members) := by
  obtain ⟨type, -, rfl⟩ := spellField_eq_ok_iff.1 h
  cases (members.put "type" (.text type.name)).get? "bin" with
  | none => exact isFieldDef_put (by decide) (by decide)
  | some bin =>
      rw [Option.elim_some, isFieldDef_put (by decide) (by decide),
        isFieldDef_put (by decide) (by decide)]

theorem has_of_spellField {key : String} (htype : key ≠ "type") (hbin : key ≠ "bin")
    (h : spellField channel members = .ok spelled) : spelled.has key = members.has key := by
  obtain ⟨type, -, rfl⟩ := spellField_eq_ok_iff.1 h
  cases (members.put "type" (.text type.name)).get? "bin" with
  | none => exact Record.has_put_of_ne htype
  | some bin => rw [Option.elim_some, Record.has_put_of_ne hbin, Record.has_put_of_ne htype]

theorem typeOf_of_read {type : FieldType} {v : Value} (hvalue : members.value "type" = v)
    (hnull : v ≠ .null) (hread : FieldType.read v = .ok type) :
    typeOf channel members = .ok type := by
  rw [typeOf, hvalue]
  cases v with
  | null => exact (hnull rfl).elim
  | _ =>
      dsimp only
      rw [hread]

theorem readType_name (type : FieldType) :
    FieldDef.readType (.text type.name) = .ok (some type) := by
  rw [FieldDef.readType, FieldType.read_name]
  · rfl
  · exact Value.noConfusion

theorem spellField_of_spelled (h : Spelled members) : spellField channel members = .ok members := by
  obtain ⟨⟨type, htype⟩, hbin⟩ := h
  have hread : typeOf channel members = .ok type :=
    typeOf_of_read htype Value.noConfusion (FieldType.read_name type)
  have hput : members.put "type" (.text type.name) = members :=
    Record.put_eq_self (Record.get?_of_value htype Value.noConfusion)
  rw [spellField_eq_ok_iff]
  refine ⟨type, hread, ?_⟩
  rw [hput]
  cases hfound : members.get? "bin" with
  | none => rfl
  | some bin =>
      have hbare : spelledBin channel bin = bin :=
        spelledBin_of_ne fun heq ↦ hbin (heq ▸ hfound)
      rw [Option.elim_some, hbare, Record.put_eq_self hfound]

end Fields

section Conditions

variable {channel : String} {members spelled : Record Value}

/-- Is a condition in its last form, once it is an object? One that is spelled out as pairs is not
seen to be a field definition, so that nothing brings it into that form. -/
def SettledCondition (condition : Value) : Prop :=
  isFieldDef condition = false → ∀ members, condition.asRecord = .ok members →
    isFieldDef (.object members) = true → Spelled members

instance (condition : Value) : Decidable (SettledCondition condition) :=
  inferInstanceAs (Decidable (_ → ∀ members, condition.asRecord = .ok members → _ → _))

/-- Only a condition that is neither an object nor a checked field definition can be unsettled. -/
theorem settledCondition_of_isObject_or {condition : Value}
    (h : condition.isObject = true ∨ isFieldDef condition = true) : SettledCondition condition := by
  intro hno other hother hfield
  obtain hobject | hyes := h
  · cases condition with
    | object members =>
        obtain rfl := Except.ok.inj hother
        rw [hno] at hfield
        cases hfield
    | _ => cases hobject
  · rw [hno] at hyes
    cases hyes

theorem spellCondition_object (members : Record Value) :
    spellCondition channel (.object members) = if isFieldDef (.object members) then
      Value.object <$> spellField channel members else .ok (.object members) := by
  have hrecord : (Value.object members).asRecord = .ok members := rfl
  rw [spellCondition, hrecord]
  cases isFieldDef (.object members) with
  | false => rfl
  | true => exact bind_pure_comp Value.object (spellField channel members)

theorem spellCondition_fixed_iff {condition kept : Value}
    (h : spellCondition channel condition = .ok kept) :
    spellCondition channel kept = .ok kept ↔ SettledCondition condition := by
  rw [spellCondition] at h
  obtain ⟨members, hmembers, h⟩ := bind_eq_ok_iff.1 h
  cases hfield : isFieldDef condition with
  | true =>
      rw [hfield, if_pos rfl] at h
      obtain ⟨spelled, hspelled, h⟩ := bind_eq_ok_iff.1 h
      obtain rfl := Except.ok.inj h
      rw [spellCondition_object, spellField_of_spelled (spelled_of_spellField hspelled)]
      refine ⟨fun _ hno ↦ ?_, fun _ ↦ by split <;> rfl⟩
      rw [hfield] at hno
      cases hno
  | false =>
      rw [hfield, if_neg Bool.false_ne_true] at h
      obtain rfl := Except.ok.inj h
      rw [spellCondition_object]
      constructor
      · intro hfixed _ other hother hobject
        obtain rfl := Except.ok.inj (hmembers.symm.trans hother)
        rw [if_pos hobject] at hfixed
        cases hspelled : spellField channel members with
        | error fault =>
            rw [hspelled] at hfixed
            cases hfixed
        | ok spelled =>
            rw [hspelled] at hfixed
            obtain rfl := Value.object.inj (Except.ok.inj hfixed)
            exact spelled_of_spellField hspelled
      · intro hsettled
        split
        · rename_i hobject
          rw [spellField_of_spelled (hsettled hfield members hmembers hobject)]
          rfl
        · rfl

/-- The list of conditions of a definition, if it has one. -/
def conditionList (members : Record Value) : List Value :=
  match members.get? "condition" with
  | some (.list conditions) => conditions
  | _ => []

theorem exists_of_spellConditions (h : spellConditions channel members = .ok spelled) :
    (∃ conditions kept, members.get? "condition" = some (.list conditions) ∧
        conditions.mapM (spellCondition channel) = .ok kept ∧
        spelled = members.put "condition" (.list kept)) ∨
      (∃ condition kept, members.get? "condition" = some condition ∧
        isFieldDef condition = true ∧ spellCondition channel condition = .ok kept ∧
        spelled = members.put "condition" kept) ∨
      (∀ condition, members.get? "condition" = some condition →
        condition.isList = false ∧ isFieldDef condition = false) ∧ spelled = members := by
  rw [spellConditions] at h
  split at h
  · rename_i conditions hfound
    obtain ⟨kept, hkept, h⟩ := bind_eq_ok_iff.1 h
    exact .inl ⟨conditions, kept, hfound, hkept, (Except.ok.inj h).symm⟩
  · rename_i condition hlist hfound
    split at h
    · rename_i hfield
      obtain ⟨kept, hkept, h⟩ := bind_eq_ok_iff.1 h
      exact .inr (.inl ⟨condition, kept, hfound, hfield, hkept, (Except.ok.inj h).symm⟩)
    · rename_i hfield
      refine .inr (.inr ⟨fun other hother ↦ ?_, (Except.ok.inj h).symm⟩)
      obtain rfl := Option.some.inj (hfound.symm.trans hother)
      refine ⟨?_, by simpa using hfield⟩
      cases condition with
      | list conditions => exact (hlist conditions rfl).elim
      | _ => rfl
  · rename_i hfound
    refine .inr (.inr ⟨fun condition hcondition ↦ ?_, (Except.ok.inj h).symm⟩)
    rw [hfound] at hcondition
    cases hcondition

/-- Conditions that are not in a list are gone through at most one by one. -/
theorem spellConditions_of_single {condition : Value}
    (hfound : members.get? "condition" = some condition) (hlist : condition.isList = false) :
    spellConditions channel members = if isFieldDef condition then
      (members.put "condition" ·) <$> spellCondition channel condition else .ok members := by
  rw [spellConditions, hfound]
  cases condition with
  | list => cases hlist
  | _ => rfl

theorem spellConditions_of_list {conditions : List Value}
    (hfound : members.get? "condition" = some (.list conditions)) :
    spellConditions channel members =
      (fun kept ↦ members.put "condition" (.list kept)) <$>
        conditions.mapM (spellCondition channel) := by
  rw [spellConditions, hfound]
  rfl

theorem spelled_eq_of_spellConditions (h : spellConditions channel members = .ok spelled) :
    spelled = members ∨
      members.has "condition" = true ∧ ∃ kept, spelled = members.put "condition" kept := by
  rw [Record.has_eq_isSome]
  obtain ⟨_, kept, hfound, -, rfl⟩ | ⟨_, kept, hfound, -, -, rfl⟩ | ⟨-, rfl⟩ :=
    exists_of_spellConditions h
  · exact .inr ⟨by rw [hfound]; rfl, _, rfl⟩
  · exact .inr ⟨by rw [hfound]; rfl, _, rfl⟩
  · exact .inl rfl

theorem has_of_spellConditions {key : String} (h : spellConditions channel members = .ok spelled) :
    spelled.has key = members.has key := by
  obtain rfl | ⟨hcondition, kept, rfl⟩ := spelled_eq_of_spellConditions h
  · rfl
  · by_cases hkey : key = "condition"
    · rw [hkey, hcondition, Record.has_eq_isSome, Record.get?_put_self]
      rfl
    · exact Record.has_put_of_ne hkey

theorem isFieldDef_of_spellConditions (h : spellConditions channel members = .ok spelled) :
    isFieldDef (.object spelled) = isFieldDef (.object members) := by
  obtain rfl | ⟨-, kept, rfl⟩ := spelled_eq_of_spellConditions h
  · rfl
  · exact isFieldDef_put (by decide) (by decide)

theorem mapM_spellCondition_fixed_iff {conditions kept : List Value}
    (h : conditions.mapM (spellCondition channel) = .ok kept) :
    kept.mapM (spellCondition channel) = .ok kept ↔ ∀ c ∈ conditions, SettledCondition c := by
  rw [mapM_eq_ok_iff, List.forall₂_same]
  rw [mapM_eq_ok_iff] at h
  induction h with
  | nil => simp
  | @cons condition c _ _ hc _ ih =>
      rw [List.forall_mem_cons, List.forall_mem_cons, ih, spellCondition_fixed_iff hc]

theorem conditionList_eq_nil
    (h : ∀ condition, members.get? "condition" = some condition → condition.isList = false) :
    conditionList members = [] := by
  rw [conditionList]
  split
  · rename_i conditions hfound
    cases h _ hfound
  · rfl

theorem spellConditions_fixed_iff (h : spellConditions channel members = .ok spelled) :
    spellConditions channel spelled = .ok spelled ↔
      ∀ c ∈ conditionList members, SettledCondition c := by
  obtain ⟨conditions, kept, hfound, hkept, rfl⟩ | ⟨condition, kept, hfound, hfield, hkept, rfl⟩ |
    ⟨hother, rfl⟩ := exists_of_spellConditions h
  · have hconditions : conditionList members = conditions := by rw [conditionList, hfound]
    have hself := Record.get?_put_self members "condition" (.list kept)
    rw [hconditions, ← mapM_spellCondition_fixed_iff hkept, spellConditions_of_list hself]
    constructor
    · intro hfixed
      cases hagain : kept.mapM (spellCondition channel) with
      | error fault =>
          rw [hagain] at hfixed
          cases hfixed
      | ok again =>
          rw [hagain] at hfixed
          have hget := congrArg (Record.get? · "condition") (Except.ok.inj hfixed)
          simp only [Record.get?_put_self, Option.some.injEq, Value.list.injEq] at hget
          rw [hget]
    · intro hfixed
      rw [hfixed]
      exact congrArg _ (Record.put_eq_self hself)
  · have hlist : condition.isList = false := by cases condition <;> first | rfl | cases hfield
    have hnil : conditionList members = [] := conditionList_eq_nil fun other hother ↦ by
      rw [← Option.some.inj (hfound.symm.trans hother), hlist]
    have hfixed : spellCondition channel kept = .ok kept :=
      (spellCondition_fixed_iff hkept).2 fun hno ↦ by rw [hfield] at hno; cases hno
    have hobject : ∃ inner, kept = .object inner := by
      rw [spellCondition, hfield] at hkept
      obtain ⟨_, -, hkept⟩ := bind_eq_ok_iff.1 hkept
      obtain ⟨inner, -, hkept⟩ := bind_eq_ok_iff.1 hkept
      exact ⟨inner, (Except.ok.inj hkept).symm⟩
    obtain ⟨inner, rfl⟩ := hobject
    have hself := Record.get?_put_self members "condition" (.object inner)
    rw [hnil, spellConditions_of_single hself rfl, hfixed]
    refine iff_of_true ?_ (by simp)
    split
    · exact congrArg _ (Record.put_eq_self hself)
    · rfl
  · rw [conditionList_eq_nil fun condition hfound ↦ (hother condition hfound).1]
    exact iff_of_true h (by simp)

end Conditions

end Encoding

end ChartLowering
