import ChartLowering.Proofs.Encoding.Normal

/-!
# Bringing normal forms into normal form

A normal form stays as it is, and nothing is told of it, as long as conditions are objects or
checked field definitions. It does so exactly if each condition that was spelled out as pairs came
out in its last form by itself. This holds for every reader of shorthands that does not answer with
a shorthand.
-/

namespace ChartLowering

namespace Encoding

open ChannelDef

section Definitions

variable {parse : Shorthand.Reader} {channel : String} {v w : Value} {kept : Option Value}
  {members : Record Value}

/-- Does normalizing a definition a second time leave it as it is? It has no conditions to settle
if it is a field definition itself. -/
def Settled (channel : String) (v : Value) (parse : Shorthand.Reader := Shorthand.members) : Prop :=
  ∀ members, spelledMembers channel v parse = .ok members →
    isFieldDef (.object members) = false → ∀ c ∈ conditionList members, SettledCondition c

/-- Is each condition that a definition lists an object or a checked field definition? -/
def ListsDefinitions (channel : String) (v : Value)
    (parse : Shorthand.Reader := Shorthand.members) : Prop :=
  ∀ members, spelledMembers channel v parse = .ok members →
    ∀ c ∈ conditionList members, c.isObject = true ∨ isFieldDef c = true

instance (channel : String) (v : Value) (parse : Shorthand.Reader) :
    Decidable (ListsDefinitions channel v parse) :=
  inferInstanceAs (Decidable (∀ members, spelledMembers channel v parse = .ok members →
    ∀ c ∈ conditionList members, c.isObject = true ∨ isFieldDef c = true))

theorem ListsDefinitions.settled (h : ListsDefinitions channel v parse) :
    Settled channel v parse :=
  fun members hmembers _ c hc ↦ settledCondition_of_isObject_or (h members hmembers c hc)

theorem exists_of_normalizeDef (h : (normalizeDef channel v parse).outcome = .ok kept) :
    ∃ members, spelledMembers channel v parse = .ok members ∧
      ((isFieldDef (.object members) = true ∧
          ∃ spelled, spellField channel members = .ok spelled ∧ kept = some (.object spelled)) ∨
        (isFieldDef (.object members) = false ∧
          ∃ spelled, spellConditions channel members = .ok spelled ∧
            ((spelled.has "value" || spelled.has "datum" || spelled.has "condition") = true ∧
                kept = some (.object spelled) ∨
              (spelled.has "value" || spelled.has "datum" || spelled.has "condition") = false ∧
                kept = none))) := by
  obtain ⟨members, hmembers, h⟩ := Report.outcome_bind_eq_ok_iff.1 h
  refine ⟨members, hmembers, ?_⟩
  cases hfield : isFieldDef (.object members) with
  | true =>
      rw [hfield, if_pos rfl] at h
      obtain ⟨spelled, hspelled, h⟩ := Report.outcome_bind_eq_ok_iff.1 h
      exact .inl ⟨rfl, spelled, hspelled, (Except.ok.inj h).symm⟩
  | false =>
      rw [hfield, if_neg Bool.false_ne_true] at h
      obtain ⟨spelled, hspelled, h⟩ := Report.outcome_bind_eq_ok_iff.1 h
      refine .inr ⟨rfl, spelled, hspelled, ?_⟩
      cases hgiven : spelled.has "value" || spelled.has "datum" || spelled.has "condition" with
      | true =>
          rw [hgiven, if_pos rfl] at h
          exact .inl ⟨rfl, (Except.ok.inj h).symm⟩
      | false =>
          rw [hgiven, if_neg Bool.false_ne_true] at h
          exact .inr ⟨rfl, (Except.ok.inj h).symm⟩

theorem has_shorthand_of_spelledMembers
    (hparse : ∀ s members, parse s = .ok members → members.has "shorthand" = false)
    (h : spelledMembers channel v parse = .ok members) : members.has "shorthand" = false := by
  obtain ⟨raw, -, h⟩ := bind_eq_ok_iff.1 h
  have herased : (raw.erase "shorthand").has "shorthand" = false := by
    rw [Record.has_eq_isSome, Record.get?_erase_self]
    rfl
  dsimp only at h
  split at h
  · obtain ⟨base, hbase, h⟩ := bind_eq_ok_iff.1 h
    obtain rfl := Except.ok.inj h
    refine Record.has_override ?_ herased
    obtain ⟨parsed, hparsed, hbase⟩ := bind_eq_ok_iff.1 hbase
    split at hbase
    · cases hbase
    · obtain rfl := Except.ok.inj hbase
      exact hparse _ _ hparsed
  · obtain rfl := Except.ok.inj h
    exact herased

theorem spelledMembers_object (h : members.has "shorthand" = false) :
    spelledMembers channel (.object members) parse = .ok members := by
  have hnone : members.get? "shorthand" = none := by
    rw [Record.has_eq_isSome] at h
    exact Option.not_isSome_iff_eq_none.1 (by simp [h])
  have hraw : rawMembers channel (.object members) parse = pure members := rfl
  rw [spelledMembers, hraw, pure_bind, hnone, Record.erase_eq_self h]
  rfl

theorem normalizeDef_of_isFieldDef (h : members.has "shorthand" = false)
    (hfield : isFieldDef (.object members) = true) :
    normalizeDef channel (.object members) parse = (do
      let spelled ← spellField channel members
      pure (some (.object spelled))) := by
  rw [normalizeDef, spelledMembers_object h]
  exact (if_pos hfield : ite _ _ _ = _)

theorem normalizeDef_of_not_isFieldDef (h : members.has "shorthand" = false)
    (hfield : isFieldDef (.object members) = false) :
    normalizeDef channel (.object members) parse = (do
      let spelled ← spellConditions channel members
      if spelled.has "value" || spelled.has "datum" || spelled.has "condition" then
        pure (some (.object spelled))
      else
        Report.warn .encoding (.emptyDefinition (.text channel))
        pure none) := by
  rw [normalizeDef, spelledMembers_object h]
  exact (if_neg (ne_true_of_eq_false hfield) : ite _ _ _ = _)

theorem normalizeDef_fixed_iff
    (hparse : ∀ s members, parse s = .ok members → members.has "shorthand" = false)
    (h : (normalizeDef channel v parse).outcome = .ok (some w)) :
    normalizeDef channel w parse = pure (some w) ↔ Settled channel v parse := by
  obtain ⟨members, hmembers, hcases⟩ := exists_of_normalizeDef h
  have hshorthand := has_shorthand_of_spelledMembers hparse hmembers
  obtain ⟨hfield, spelled, hspelled, hkept⟩ |
    ⟨hfield, spelled, hspelled, ⟨hgiven, hkept⟩ | ⟨-, hkept⟩⟩ := hcases
  · obtain rfl := Option.some.inj hkept
    rw [normalizeDef_of_isFieldDef
        ((has_of_spellField (by decide) (by decide) hspelled).trans hshorthand)
        ((isFieldDef_of_spellField hspelled).trans hfield),
      spellField_of_spelled (spelled_of_spellField hspelled)]
    refine iff_of_true rfl fun other hother hno ↦ ?_
    obtain rfl := Except.ok.inj (hmembers.symm.trans hother)
    rw [hfield] at hno
    cases hno
  · obtain rfl := Option.some.inj hkept
    rw [normalizeDef_of_not_isFieldDef ((has_of_spellConditions hspelled).trans hshorthand)
        ((isFieldDef_of_spellConditions hspelled).trans hfield)]
    have hsettled : Settled channel v parse ↔ ∀ c ∈ conditionList members, SettledCondition c := by
      refine ⟨fun hall ↦ hall members hmembers hfield, fun hall other hother _ ↦ ?_⟩
      obtain rfl := Except.ok.inj (hmembers.symm.trans hother)
      exact hall
    rw [hsettled, ← spellConditions_fixed_iff hspelled]
    constructor
    · intro hfixed
      obtain ⟨again, hagain, hfixed⟩ := Report.bind_eq_pure_iff.1 hfixed
      rw [Report.lift_eq_pure_iff] at hagain
      split at hfixed
      · obtain rfl := Value.object.inj (Option.some.inj (Report.pure_injective hfixed))
        exact hagain
      · cases congrArg Report.outcome hfixed
    · intro hfixed
      rw [hfixed]
      refine Report.bind_eq_pure_iff.2 ⟨spelled, rfl, ?_⟩
      rw [if_pos hgiven]
  · cases hkept

theorem settled_of_dropped (h : (normalizeDef channel v parse).outcome = .ok none) :
    Settled channel v parse := by
  obtain ⟨members, hmembers, hcases⟩ := exists_of_normalizeDef h
  intro other hother _
  obtain rfl := Except.ok.inj (hmembers.symm.trans hother)
  obtain ⟨-, _, -, hkept⟩ | ⟨-, spelled, hspelled, ⟨-, hkept⟩ | ⟨hnothing, -⟩⟩ := hcases
  · cases hkept
  · cases hkept
  · have hcondition : members.has "condition" = false := by
      rw [← has_of_spellConditions hspelled]
      simp only [Bool.or_eq_false_iff] at hnothing
      exact hnothing.2
    rw [Record.has_eq_isSome] at hcondition
    rw [conditionList_eq_nil fun condition hfound ↦ by rw [hfound] at hcondition; cases hcondition]
    simp

end Definitions

section Channels

variable {parse : Shorthand.Reader} {channel : String} {v w : Value}

theorem settled_null : Settled channel .null parse := by
  rintro members hmembers
  cases hmembers

theorem mapM_normalizeDef_fixed_iff
    (hparse : ∀ s members, parse s = .ok members → members.has "shorthand" = false)
    {items : List Value} {found : List (Option Value)}
    (h : (items.mapM fun x ↦ normalizeDef channel x parse).outcome = .ok found) :
    (∀ x ∈ found.filterMap id, normalizeDef channel x parse = pure (some x)) ↔
      ∀ x ∈ items, Settled channel x parse := by
  rw [Report.outcome_mapM, mapM_eq_ok_iff] at h
  induction h with
  | nil => simp
  | @cons x kept _ _ hx _ ih =>
      rw [List.forall_mem_cons, ← ih]
      cases kept with
      | none => simpa using fun _ ↦ settled_of_dropped hx
      | some w =>
          have hcons (rest : List (Option Value)) :
              (some w :: rest).filterMap id = w :: rest.filterMap id :=
            List.filterMap_cons_some rfl
          rw [hcons, List.forall_mem_cons, normalizeDef_fixed_iff hparse hx]

/-- Where as many are found as there are places, each place holds one. -/
theorem eq_map_some_of_filterMap {α : Type} {found : List (Option α)} {kept : List α}
    (h : found.filterMap id = kept) (hlength : found.length = kept.length) :
    found = kept.map some := by
  have hsome : ∀ a ∈ found, (id a).isSome := by
    rw [← List.filterMap_length_eq_length, h, hlength]
  subst h
  clear hlength
  induction found with
  | nil => rfl
  | cons a rest ih =>
      obtain ⟨b, rfl⟩ := Option.isSome_iff_exists.1 (hsome a List.mem_cons_self)
      have hcons : (some b :: rest).filterMap id = b :: rest.filterMap id :=
        List.filterMap_cons_some rfl
      rw [hcons, List.map_cons, ← ih fun x hx ↦ hsome x (List.mem_cons_of_mem _ hx)]

theorem normalizeChannel_list_fixed_iff {kept : List Value} (hkept : kept ≠ []) :
    normalizeChannel channel (.list kept) parse = pure (some (.list kept)) ↔
      ∀ x ∈ kept, normalizeDef channel x parse = pure (some x) := by
  have hall : (∀ x ∈ kept, normalizeDef channel x parse = pure (some x)) ↔
      (kept.mapM fun x ↦ normalizeDef channel x parse) = pure (kept.map some) := by
    rw [Report.mapM_eq_pure_iff, List.forall₂_map_right_iff, List.forall₂_same]
  rw [hall, normalizeChannel, Report.bind_eq_pure_iff]
  constructor
  · rintro ⟨found, hfound, h⟩
    have hlength : found.length = kept.length := by
      rw [Report.mapM_eq_pure_iff] at hfound
      exact hfound.length_eq.symm
    have hlist : found.filterMap id = kept := by
      have hif := Report.pure_injective h
      split at hif
      · cases hif
      · exact Value.list.inj (Option.some.inj hif)
    rw [hfound, eq_map_some_of_filterMap hlist hlength]
  · intro hfixed
    refine ⟨_, hfixed, ?_⟩
    have hmap : (kept.map some).filterMap id = kept := by simp
    rw [hmap]
    exact congrArg pure (if_neg (by simpa using hkept))

theorem exists_object_of_normalizeDef (h : (normalizeDef channel v parse).outcome = .ok (some w)) :
    ∃ members, w = .object members := by
  obtain ⟨_, -, ⟨-, spelled, -, hkept⟩ | ⟨-, spelled, -, ⟨-, hkept⟩ | ⟨-, hkept⟩⟩⟩ :=
    exists_of_normalizeDef h
  · exact ⟨spelled, Option.some.inj hkept⟩
  · exact ⟨spelled, Option.some.inj hkept⟩
  · cases hkept

theorem normalizeChannel_fixed_iff
    (hparse : ∀ s members, parse s = .ok members → members.has "shorthand" = false)
    (h : (normalizeChannel channel v parse).outcome = .ok kept) :
    (∀ w ∈ kept, normalizeChannel channel w parse = pure (some w)) ↔
      ∀ x ∈ v.itemsOrSelf, Settled channel x parse := by
  have hsingle (hv : v.isNull = false) (hlist : v.isList = false)
      (h : (normalizeDef channel v parse).outcome = .ok kept) :
      (∀ w ∈ kept, normalizeChannel channel w parse = pure (some w)) ↔
        ∀ x ∈ [v], Settled channel x parse := by
    rw [List.forall_mem_singleton]
    cases kept with
    | none => exact iff_of_true (by simp) (settled_of_dropped h)
    | some w =>
        obtain ⟨members, rfl⟩ := exists_object_of_normalizeDef h
        rw [← normalizeDef_fixed_iff hparse h]
        simp only [Option.mem_some_iff, forall_eq']
        rfl
  cases v with
  | null =>
      obtain rfl := Except.ok.inj h
      exact iff_of_true (by simp) (List.forall_mem_singleton.2 settled_null)
  | list items =>
      obtain ⟨found, hfound, h⟩ := Report.outcome_bind_eq_ok_iff.1 h
      obtain rfl := Except.ok.inj h
      refine Iff.trans ?_ (mapM_normalizeDef_fixed_iff hparse hfound)
      by_cases hempty : found.filterMap id = []
      · rw [hempty]
        exact iff_of_true (by simp) (by simp)
      · rw [if_neg (by simpa using hempty)]
        simp only [Option.mem_some_iff, forall_eq']
        exact normalizeChannel_list_fixed_iff hempty
  | _ => exact hsingle rfl rfl h

end Channels

section Encodings

variable {parse : Shorthand.Reader} {members e : Record Value} {raw : Value}

theorem definitions_cons (m : String × Value) (rest : Encoding) :
    definitions (m :: rest) = m.2.itemsOrSelf.map (fun v ↦ (m.1, v)) ++ definitions rest :=
  List.flatMap_cons

/-- No channel is added, and those that are kept stay in order. -/
theorem keys_sublist_of_normalizeMembers (h : (normalizeMembers members parse).outcome = .ok e) :
    e.keys.Sublist members.keys := by
  induction members generalizing e with
  | nil =>
      obtain rfl := Except.ok.inj h
      exact List.Sublist.refl _
  | cons m rest ih =>
      obtain ⟨kept, -, h⟩ := Report.outcome_bind_eq_ok_iff.1 h
      obtain ⟨others, hothers, h⟩ := Report.outcome_bind_eq_ok_iff.1 h
      obtain rfl := Except.ok.inj h
      cases kept with
      | none => exact (ih hothers).cons _
      | some v => exact (ih hothers).cons_cons _

theorem normalizeMembers_fixed_iff_forall :
    normalizeMembers e parse = pure e ↔
      ∀ m ∈ e, normalizeChannel m.1 m.2 parse = pure (some m.2) := by
  induction e with
  | nil => exact iff_of_true rfl (by simp)
  | cons m rest ih =>
      rw [List.forall_mem_cons, ← ih, normalizeMembers, Report.bind_eq_pure_iff]
      constructor
      · rintro ⟨kept, hkept, h⟩
        obtain ⟨others, hothers, h⟩ := Report.bind_eq_pure_iff.1 h
        have h := Report.pure_injective h
        cases kept with
        | none =>
            -- Nothing can be dropped, since no channel is added elsewhere.
            obtain rfl : others = m :: rest := h
            have hkeys := keys_sublist_of_normalizeMembers (congrArg Report.outcome hothers)
            have hlength := hkeys.length_le
            simp only [Record.keys, List.map_cons, List.length_cons, List.length_map] at hlength
            omega
        | some v =>
            obtain ⟨hv, hrest⟩ := List.cons.inj (h : (m.1, v) :: others = m :: rest)
            rw [hkept, hothers, hrest, ← hv]
            exact ⟨rfl, rfl⟩
      · rintro ⟨hkept, hrest⟩
        exact ⟨_, hkept, Report.bind_eq_pure_iff.2 ⟨_, hrest, rfl⟩⟩

theorem normalizeMembers_fixed_iff
    (hparse : ∀ s members, parse s = .ok members → members.has "shorthand" = false)
    (h : (normalizeMembers members parse).outcome = .ok e) :
    normalizeMembers e parse = pure e ↔
      ∀ d ∈ definitions members, Settled d.1 d.2 parse := by
  rw [normalizeMembers_fixed_iff_forall]
  induction members generalizing e with
  | nil =>
      obtain rfl := Except.ok.inj h
      exact iff_of_true (by simp) (by simp [definitions])
  | cons m rest ih =>
      obtain ⟨kept, hkept, h⟩ := Report.outcome_bind_eq_ok_iff.1 h
      obtain ⟨others, hothers, h⟩ := Report.outcome_bind_eq_ok_iff.1 h
      obtain rfl := Except.ok.inj h
      rw [definitions_cons, List.forall_mem_append, List.forall_mem_map, ← ih hothers,
        ← normalizeChannel_fixed_iff hparse hkept]
      cases kept with
      | none => simp
      | some v => simp

/-- Normal forms are fixed, with nothing told of them, just where all conditions are settled. -/
theorem normalize_fixed_iff
    (hparse : ∀ s members, parse s = .ok members → members.has "shorthand" = false)
    (h : (normalize raw parse).outcome = .ok e) :
    normalize (.object e) parse = ⟨[], .ok e⟩ ↔
      ∀ members, raw.members = .ok members → ∀ d ∈ definitions members, Settled d.1 d.2 parse := by
  have hobject : normalize (.object e) parse = normalizeMembers e parse := by
    cases e <;> rfl
  rw [hobject]
  rw [normalize] at h
  cases htruthy : raw.truthy with
  | false =>
      rw [htruthy] at h
      obtain rfl := Except.ok.inj h
      refine iff_of_true rfl fun members hmembers ↦ ?_
      have hempty : members = [] := by
        cases raw with
        | object inner =>
            obtain rfl := Except.ok.inj hmembers
            simpa [Value.truthy] using htruthy
        | _ => cases hmembers
      rw [hempty]
      simp [definitions]
  | true =>
      rw [htruthy, if_pos rfl] at h
      obtain ⟨members, hmembers, h⟩ := Report.outcome_bind_eq_ok_iff.1 h
      have hmembers : raw.members = .ok members := hmembers
      rw [hmembers]
      simp only [Except.ok.injEq, forall_eq']
      exact normalizeMembers_fixed_iff hparse h

/-- Encodings are brought into normal form once and for all. Where the conditions that are listed
are objects or checked field definitions, another time changes nothing and tells nothing. -/
theorem normalize_idempotent
    (hparse : ∀ s members, parse s = .ok members → members.has "shorthand" = false)
    (hlisted : ∀ members, raw.members = .ok members →
      ∀ d ∈ definitions members, ListsDefinitions d.1 d.2 parse)
    (h : (normalize raw parse).outcome = .ok e) :
    normalize (.object e) parse = ⟨[], .ok e⟩ :=
  (normalize_fixed_iff hparse h).2 fun members hmembers d hd ↦
    (hlisted members hmembers d hd).settled

/-- Definitions in every form, a shorthand among them, conditions in a list, and a channel of
nothing. -/
def medley : Value := .object
  [("x", .text "mean(price):Q"),
    ("y", .object [("shorthand", .text "when:T"), ("bin", .bool true)]),
    ("tooltip", .list [.text "a", .fieldDef [("field", .text "b"), ("type", .text "ordinal")]]),
    ("size", .null), ("shape", .object []),
    ("color", .object [("value", .text "red"), ("condition", .list
      [.object [("field", .text "c"), ("type", .text "N"), ("test", .text "datum.c")],
        .fieldDef [("field", .text "e")],
        .object [("test", .text "datum.d"), ("value", .text "blue")]])])]

theorem normalize_idempotent_medley :
    (∀ members, medley.members = .ok members →
      ∀ d ∈ definitions members, ListsDefinitions d.1 d.2) ∧
    ∃ e, (normalize medley).outcome = .ok e ∧ e.keys = ["x", "y", "tooltip", "color"] ∧
      e.get? "x" = some (.object [("aggregate", .text "mean"), ("field", .text "price"),
        ("type", .text "quantitative")]) ∧
      e.get? "tooltip" = some (.list [.object [("field", .text "a"), ("type", .text "nominal")],
        .object [("field", .text "b"), ("type", .text "ordinal")]]) ∧
      normalize (.object e) = ⟨[], .ok e⟩ := by
  have hlisted : ∀ members, medley.members = .ok members →
      ∀ d ∈ definitions members, ListsDefinitions d.1 d.2 := by
    decide +kernel
  have hrun : (do
      let e ← (normalize medley).outcome
      pure (e.keys, e.get? "x", e.get? "tooltip")) =
      (.ok (["x", "y", "tooltip", "color"],
        some (.object [("aggregate", .text "mean"), ("field", .text "price"),
          ("type", .text "quantitative")]),
        some (.list [.object [("field", .text "a"), ("type", .text "nominal")],
          .object [("field", .text "b"), ("type", .text "ordinal")]])) : Except Fault _) := by
    decide +kernel
  obtain ⟨e, he, hrun⟩ := bind_eq_ok_iff.1 hrun
  obtain ⟨hkeys, hitems⟩ := Prod.mk.inj (Except.ok.inj hrun)
  obtain ⟨hx, htooltip⟩ := Prod.mk.inj hitems
  exact ⟨hlisted, e, he, hkeys, hx, htooltip,
    normalize_idempotent (fun _ _ ↦ Shorthand.documented_members.has_shorthand) hlisted he⟩

/-- A condition that is spelled out as pairs, which nobody takes for a field definition before it
has become an object. -/
def pairsCondition : Value :=
  .object [("color", .object [("value", .text "red"),
    ("condition", .list [.list [.list [.text "field", .text "a"]]])])]

theorem normalize_not_fixed_pairsCondition :
    ∃ e, (normalize pairsCondition).outcome = .ok e ∧ normalize (.object e) ≠ ⟨[], .ok e⟩ := by
  let untyped : Encoding := [("color", .object [("value", .text "red"),
    ("condition", .list [.object [("field", .text "a")]])])]
  have hsecond : (normalize (.object untyped)).outcome ≠ .ok untyped := by decide +kernel
  exact ⟨untyped, by decide +kernel, fun h ↦ hsecond (congrArg Report.outcome h)⟩

end Encodings

end Encoding

end ChartLowering
