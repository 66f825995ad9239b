import ChartLowering.Encode.NonPosition
import ChartLowering.InvalidData.Guards
import ChartLowering.Proofs.Encoding.Normal
import ChartLowering.Proofs.Encoding.Replaced

/-!
# A condition by itself and in a list

A definition has one condition or a list of them. A single condition can be put into a list without
any change to the unit, unless it is a field definition: then its scale is lost, and nobody comes
across its field anymore.
-/

namespace ChartLowering

open ChannelDef

/-- A definition with its condition put into a list. -/
def ChannelDef.listed : Value → Value
  | .object members =>
      .object (Record.put members "condition" (.list [Record.value members "condition"]))
  | v => v

/-- A condition that is an object or a checked field definition. -/
def ChannelDef.IsSingle (c : Value) : Prop := c.isObject = true ∨ ∃ fd : FieldDef, c = fd.toValue

namespace Encoding

variable {parse : Shorthand.Reader} {channel : String} {d own : Record Value} {c k v : Value}
  {kept : Option Value}

section NormalForms

theorem spelledMembers_put (hkeys : d.keys.Nodup) (hgiven : d.has "condition" = true)
    (w : Value) :
    spelledMembers channel (.object (d.put "condition" w)) parse =
      (·.put "condition" w) <$> spelledMembers channel (.object d) parse := by
  have hraw (members : Record Value) :
      rawMembers channel (.object members) parse = pure members := rfl
  have hsame : (d.put "condition" w).get? "shorthand" = d.get? "shorthand" :=
    Record.get?_put_of_ne _ _ (by decide)
  have herased : (d.erase "shorthand").has "condition" = true := by
    rwa [Record.has_eq_isSome, Record.get?_erase_of_ne _ (by decide), ← Record.has_eq_isSome]
  have hnodup : (d.erase "shorthand").keys.Nodup :=
    hkeys.sublist (List.filter_sublist.map Prod.fst)
  rw [spelledMembers, spelledMembers, hraw, hraw, pure_bind, pure_bind, hsame,
    Record.erase_put_of_ne (by decide)]
  dsimp only
  split
  · rename_i s hs
    cases hparsed : shorthandMembers s parse with
    | error fault => rfl
    | ok base => exact congrArg Except.ok (Record.override_put hnodup herased)
  · rfl

theorem get?_of_spelledMembers (hkeys : d.keys.Nodup) (hcondition : d.get? "condition" = some c)
    (h : spelledMembers channel (.object d) parse = .ok own) : own.get? "condition" = some c := by
  have hgiven : d.has "condition" = true := by rw [Record.has_eq_isSome, hcondition]; rfl
  have hput : spelledMembers channel (.object (d.put "condition" c)) parse = _ :=
    spelledMembers_put hkeys hgiven c
  rw [Record.put_eq_self hcondition, h] at hput
  rw [Except.ok.inj hput]
  exact Record.get?_put_self own "condition" c

def keptCondition (channel : String) (c : Value) : Except Fault Value :=
  if isFieldDef c then spellCondition channel c else pure c

theorem spellCondition_eq (hsingle : IsSingle c) :
    spellCondition channel c = keptCondition channel c := by
  rw [keptCondition]
  split
  · rfl
  · rename_i hfield
    rcases hsingle with hobject | ⟨fd, rfl⟩
    · cases c with
      | object members => rw [spellCondition_object, if_neg hfield]; rfl
      | _ => cases hobject
    · exact (hfield rfl).elim

theorem isList_of_isSingle (hsingle : IsSingle c) : c.isList = false := by
  rcases hsingle with hobject | ⟨fd, rfl⟩
  · cases c <;> first | rfl | cases hobject
  · rfl

theorem spellConditions_single (hsingle : IsSingle c) (hget : own.get? "condition" = some c) :
    spellConditions channel own = (own.put "condition" ·) <$> keptCondition channel c := by
  rw [spellConditions_of_single hget (isList_of_isSingle hsingle), keptCondition]
  split
  · rfl
  · exact congrArg Except.ok (Record.put_eq_self hget).symm

theorem spellConditions_listed (hsingle : IsSingle c) :
    spellConditions channel (own.put "condition" (.list [c])) =
      (fun k ↦ own.put "condition" (.list [k])) <$> keptCondition channel c := by
  rw [spellConditions_of_list (Record.get?_put_self _ _ _), List.mapM_cons,
    spellCondition_eq hsingle]
  cases keptCondition channel c with
  | error fault => rfl
  | ok k => exact congrArg Except.ok (Record.put_put _ _)

theorem outcome_normalizeDef (hspelled : spelledMembers channel v parse = .ok own)
    (hfield : isFieldDef (.object own) = false) (hgiven : own.has "condition" = true) :
    (normalizeDef channel v parse).outcome =
      (fun spelled ↦ some (.object spelled)) <$> spellConditions channel own := by
  rw [normalizeDef, hspelled, Report.lift_ok, pure_bind, hfield, if_neg Bool.false_ne_true,
    Report.outcome_bind, Report.outcome_lift]
  cases h : spellConditions channel own with
  | error fault => rfl
  | ok spelled =>
      have hkept : spelled.has "condition" = true := (has_of_spellConditions h).trans hgiven
      show (if spelled.has "value" || spelled.has "datum" || spelled.has "condition" then
        pure (some (.object spelled)) else _ : Report (Option Value)).outcome = _
      rw [hkept, Bool.or_true, if_pos rfl]
      rfl

end NormalForms

section Visits

/-- The field definitions that going through an encoding comes across, or what reading them ends
in. -/
def visited (encoding : Encoding) : List (String × Except Fault FieldDef) :=
  encoding.definitions.filterMap fun d ↦
    match anyFieldDef? d.2 with
    | .ok none => none
    | .ok (some fd) => some (d.1, .ok fd)
    | .error fault => some (d.1, .error fault)

theorem foldFieldDefs_eq {α : Type} (encoding : Encoding)
    (step : α → String → FieldDef → Report α) (start : α) : encoding.foldFieldDefs step start =
      encoding.visited.foldlM (fun found d ↦ do step found d.1 (← d.2)) start := by
  rw [foldFieldDefs, visited]
  induction encoding.definitions generalizing start with
  | nil => rfl
  | cons d rest ih =>
      rw [List.foldlM_cons, List.filterMap_cons]
      cases h : anyFieldDef? d.2 with
      | error fault =>
          rw [List.foldlM_cons]
          rfl
      | ok found =>
          cases found with
          | none => exact (pure_bind _ _).trans (ih start)
          | some fd =>
              dsimp only
              simp only [List.foldlM_cons, Report.lift_ok, pure_bind]
              congr 1
              exact funext ih

theorem visited_append (first last : Encoding) :
    visited (first ++ last) = first.visited ++ last.visited := by
  rw [visited, definitions, List.flatMap_append, List.filterMap_append]
  rfl

end Visits

end Encoding

section Members

variable {channel : String} {own : Record Value} {k v w : Value}

theorem isFieldDef_putCondition (w : Value) :
    isFieldDef (.object (own.put "condition" w)) = isFieldDef (.object own) :=
  Encoding.isFieldDef_put (by decide) (by decide)

theorem anyFieldDef?_eq_ok_none_iff (hfield : isFieldDef (.object own) = false)
    (hget : own.get? "condition" = some k) :
    anyFieldDef? (.object own) = .ok none ↔ isFieldDef k = false := by
  have hmember : (Value.object own).member? "condition" = some k := hget
  rw [anyFieldDef?, fieldDef?, hfield, if_neg Bool.false_ne_true]
  show conditionalFieldDef? (.object own) = .ok none ↔ _
  rw [conditionalFieldDef?, hmember]
  dsimp only
  cases hk : isFieldDef k with
  | false => simp [pure, Except.pure]
  | true =>
      rw [if_pos rfl]
      apply iff_of_false _ (by simp)
      intro h
      obtain ⟨members, -, h⟩ := bind_eq_ok_iff.1 h
      obtain ⟨fd, -, h⟩ := bind_eq_ok_iff.1 h
      cases h

theorem ofMembers_putCondition {name : String} {mark : MarkDef}
    (hfield : isFieldDef (.object own) = false) (v : Value) :
    Scale.ofMembers name channel mark (own.put "condition" v) =
      Scale.ofMembers name channel mark own := by
  have hscale : (own.put "condition" v).get? "scale" = own.get? "scale" :=
    Record.get?_put_of_ne _ _ (by decide)
  have hfd (members : Record Value) (h : isFieldDef (.object members) = false) :
      fieldDef? (.object members) = pure none := by
    rw [fieldDef?, h, if_neg Bool.false_ne_true]
  rw [Scale.ofMembers, Scale.ofMembers, hscale, hfd _ hfield,
    hfd _ ((isFieldDef_putCondition v).trans hfield), Scale.parametersOf, Scale.parametersOf,
    Record.value_put_of_ne (by decide), Record.value_put_of_ne (by decide)]

/-- The scale of a definition with a datum does not depend on its condition. -/
theorem initScale?_of_datum {view : String} {mark : MarkDef}
    (hfield : isFieldDef (.object own) = false) (hdatum : own.has "datum" = true) (v : Value) :
    UnitModel.initScale? view mark channel (.object (own.put "condition" v)) =
      UnitModel.initScale? view mark channel (.object own) := by
  have hscaled (members : Record Value) (h : members.has "datum" = true) :
      Scale.scaledDef? (.object members) = some (.object members) := by
    rw [Scale.scaledDef?, isDatumDef, Value.hasMember, h, Bool.or_true, if_pos rfl]
  have hput : (own.put "condition" v).has "datum" = true :=
    (Record.has_put_of_ne (by decide)).trans hdatum
  rw [UnitModel.initScale?, UnitModel.initScale?, Scale.ofDefinition?, Scale.ofDefinition?,
    hscaled _ hput, hscaled _ hdatum]
  dsimp only
  rw [ofMembers_putCondition hfield]
  rfl

/-- Without a field, a datum, or a condition with a field there is no scale. -/
theorem initScale?_of_no_datum {view : String} {mark : MarkDef}
    (hfield : isFieldDef (.object own) = false) (hdatum : own.has "datum" = false)
    (hv : isFieldDef v = false) :
    UnitModel.initScale? view mark channel (.object (own.put "condition" v)) = .ok none := by
  have hput : isDatumDef (.object (own.put "condition" v)) = false :=
    (Record.has_put_of_ne (by decide)).trans hdatum
  have hcondition : (Value.object (own.put "condition" v)).member? "condition" = some v :=
    Record.get?_put_self _ _ _
  have hscaled : Scale.scaledDef? (.object (own.put "condition" v)) = none := by
    rw [Scale.scaledDef?, isFieldDef_putCondition, hfield, hput, Bool.false_or, hcondition,
      Option.filter_some_neg (by simp [hv])]
    rfl
  rw [UnitModel.initScale?, Scale.ofDefinition?, hscaled]
  split <;> rfl

theorem initScale?_listed {view : String} {mark : MarkDef}
    (hfield : isFieldDef (.object own) = false) (hk : isFieldDef k = false) :
    UnitModel.initScale? view mark channel (.object (own.put "condition" (.list [k]))) =
      UnitModel.initScale? view mark channel (.object (own.put "condition" k)) := by
  cases hdatum : own.has "datum" with
  | true => rw [initScale?_of_datum hfield hdatum, initScale?_of_datum hfield hdatum]
  | false => rw [initScale?_of_no_datum hfield hdatum rfl, initScale?_of_no_datum hfield hdatum hk]

theorem exists_initScale?_listed {view : String} {mark : MarkDef} {scale : Option Scale}
    (hfield : isFieldDef (.object own) = false)
    (h : UnitModel.initScale? view mark channel (.object (own.put "condition" k)) = .ok scale) :
    ∃ scale', UnitModel.initScale? view mark channel
      (.object (own.put "condition" (.list [k]))) = .ok scale' := by
  cases hdatum : own.has "datum" with
  | true =>
      rw [initScale?_of_datum hfield hdatum] at h
      exact ⟨scale, (initScale?_of_datum hfield hdatum _).trans h⟩
  | false => exact ⟨none, initScale?_of_no_datum hfield hdatum rfl⟩

/-- What a definition without a field is drawn as follows from its datum or its value. -/
theorem midPoint_putCondition {c : ValueRef.Context} {default : Except Fault (Option ValueRef)}
    (hfield : isFieldDef (.object own) = false) (v : Value) :
    ValueRef.midPoint c (.object (own.put "condition" v)) default =
      ValueRef.midPoint c (.object own) default := by
  have hmember {key : String} (hkey : key ≠ "condition") :
      (Value.object (own.put "condition" v)).member? key = (Value.object own).member? key :=
    Record.get?_put_of_ne _ _ hkey
  have hfield' := (isFieldDef_putCondition v).trans hfield
  have hdatum : isDatumDef (.object (own.put "condition" v)) = isDatumDef (.object own) :=
    Record.has_put_of_ne (by decide)
  have hnone (members : Record Value) (h : isFieldDef (.object members) = false) :
      fieldDef? (.object members) = pure none := by
    rw [fieldDef?, h, if_neg Bool.false_ne_true]
  rw [ValueRef.midPoint, ValueRef.midPoint, hfield, hfield', hdatum, Bool.false_or,
    hmember (by decide)]
  split
  · rename_i hshown
    rw [ValueRef.ofShown, ValueRef.ofShown, hnone _ hfield, hnone _ hfield']
    have hget : ∃ datum, (Value.object own).member? "datum" = some datum := by
      rw [isDatumDef, Value.hasMember, Record.has_eq_isSome] at hshown
      exact Option.isSome_iff_exists.1 hshown
    obtain ⟨datum, hget⟩ := hget
    have hdefinition (scale suffix : Option String) (offset : Value) :
        ValueRef.ofDefinition scale (.object (own.put "condition" v)) suffix offset =
          ValueRef.ofDefinition scale (.object own) suffix offset := by
      rw [ValueRef.ofDefinition, ValueRef.ofDefinition, hmember (by decide), hget]
    simp only [hdefinition]
  · rfl

theorem fieldDef?_of_isFieldDef_eq_false (h : isFieldDef v = false) : fieldDef? v = .ok none := by
  rw [fieldDef?, h, if_neg Bool.false_ne_true]
  rfl

end Members

namespace UnitModel

variable {channel : String} {own : Record Value} {k : Value} {s : Surroundings}
  {scale : Option Scale}

/-- Nothing that is made of a unit tells it from another one, as far as a channel goes: the scales
are the same, the same field definitions are come across, the same rows are filtered out, and the
entries for the channel are the same. -/
structure ReadsAlike (m m' : UnitModel) (channel : String) : Prop where
  scales : m'.scales = m.scales
  visited : m'.encoding.visited = m.encoding.visited
  guards : ∀ sources, Guards.ofModel m' sources = Guards.ofModel m sources
  entry : ∀ fallback drawn,
    m'.nonPosition channel fallback drawn = m.nonPosition channel fallback drawn

theorem visited_unit (v : Value) :
    (s.unit channel (some v) scale).encoding.visited =
      s.first.visited ++ Encoding.visited [(channel, v)] ++ s.last.visited := by
  rw [Surroundings.unit, Encoding.visited_append, Encoding.visited_append]
  rfl

/-- With its condition in a list, nothing is found in a definition without a field. -/
theorem visited_listed (hfield : isFieldDef (.object own) = false) (k : Value) :
    (s.unit channel (some (.object (own.put "condition" (.list [k])))) scale).encoding.visited =
      s.first.visited ++ s.last.visited := by
  have hnone : anyFieldDef? (.object (own.put "condition" (.list [k]))) = .ok none :=
    (anyFieldDef?_eq_ok_none_iff ((isFieldDef_putCondition _).trans hfield)
      (Record.get?_put_self _ _ _)).2 rfl
  have hsingle : Encoding.visited [(channel, .object (own.put "condition" (.list [k])))] = [] := by
    show List.filterMap _ [(channel, Value.object (own.put "condition" (.list [k])))] = []
    rw [List.filterMap_cons]
    dsimp only
    rw [hnone]
    rfl
  rw [visited_unit, hsingle, List.append_nil]

/-- With its condition by itself, something is found just if the condition is a field
definition. -/
theorem visited_single_iff (hfield : isFieldDef (.object own) = false) (k : Value) :
    (s.unit channel (some (.object (own.put "condition" k))) scale).encoding.visited =
      s.first.visited ++ s.last.visited ↔ isFieldDef k = false := by
  rw [← anyFieldDef?_eq_ok_none_iff ((isFieldDef_putCondition k).trans hfield)
    (Record.get?_put_self _ _ _), visited_unit]
  have hsingle : Encoding.visited [(channel, .object (own.put "condition" k))] = [] ↔
      anyFieldDef? (.object (own.put "condition" k)) = .ok none := by
    show List.filterMap _ [(channel, Value.object (own.put "condition" k))] = [] ↔ _
    rw [List.filterMap_cons]
    dsimp only
    cases anyFieldDef? (.object (own.put "condition" k)) with
    | error fault => simp
    | ok found => cases found <;> simp
  rw [← hsingle, List.append_assoc, List.append_cancel_left_eq, List.append_left_eq_self]

theorem nonPosition_listed (hchannel : channel ∉ s.first.keys)
    (hfield : isFieldDef (.object own) = false) (inner : Record Value) (fallback : Fallback)
    (drawn : Option String) :
    (s.unit channel (some (.object (own.put "condition" (.list [.object inner]))))
        scale).nonPosition channel fallback drawn =
      (s.unit channel (some (.object (own.put "condition" (.object inner)))) scale).nonPosition
        channel fallback drawn := by
  have hconditional (w : Value) (hw : w.isNull = false) :
      isConditional (.object (own.put "condition" w)) = true := by
    rw [isConditional, Record.value_put_self, hw]
    rfl
  have hconditions (w : Value) (hw : w.isNull = false) :
      Encode.conditions (.object (own.put "condition" w)) = .ok w.itemsOrSelf := by
    rw [Encode.conditions, hconditional w hw, if_pos rfl]
    show (do pure (← Record.require (own.put "condition" w) "condition").itemsOrSelf) = _
    rw [Record.require_put_self]
    rfl
  have hfd (w : Value) : fieldDef? (.object (own.put "condition" w)) = .ok none :=
    fieldDef?_of_isFieldDef_eq_false ((isFieldDef_putCondition w).trans hfield)
  have hlist : (Value.list [.object inner]).isNull = false := rfl
  have hobject : (Value.object inner).isNull = false := rfl
  simp only [nonPosition, fallbackRef, invalidOverride?, InvalidData.override?,
    s.definition_unit hchannel, hconditional _ hobject, hconditional _ hlist, Encode.wrapped,
    hconditions _ hobject, hconditions _ hlist, hfd, Value.itemsOrSelf,
    midPoint_putCondition hfield]
  rfl

theorem guards_unit {v w : Value}
    (hvisited : (s.unit channel (some v) scale).encoding.visited =
      (s.unit channel (some w) scale).encoding.visited) (sources : DataSources) :
    Guards.ofModel (s.unit channel (some v) scale) sources =
      Guards.ofModel (s.unit channel (some w) scale) sources := by
  rw [Guards.ofModel, Guards.ofModel, Encoding.foldFieldDefs_eq, Encoding.foldFieldDefs_eq,
    hvisited]
  rfl

section Conditions

variable {spec members d : Record Value} {settings : Settings} {name : String} {c : Value}
  {parse : Shorthand.Reader}

section Kept

variable {kept : Option Value} (hkeys : d.keys.Nodup) (hcondition : d.get? "condition" = some c)
  (hsingle : IsSingle c) (hfield : ∀ own,
    Encoding.spelledMembers channel (.object d) parse = .ok own →
    isFieldDef (.object own) = false)

include hkeys hcondition hsingle hfield

theorem normalizeChannel_single_iff :
    (Encoding.normalizeChannel channel (.object d) parse).outcome = .ok kept ↔
      ∃ own k, Encoding.spelledMembers channel (.object d) parse = .ok own ∧
        Encoding.keptCondition channel c = .ok k ∧
        kept = some (.object (own.put "condition" k)) := by
  show (Encoding.normalizeDef channel (.object d) parse).outcome = .ok kept ↔ _
  cases hown : Encoding.spelledMembers channel (.object d) parse with
  | error fault => simp [Encoding.normalizeDef, hown, Except.bind]
  | ok own =>
      have hget := Encoding.get?_of_spelledMembers hkeys hcondition hown
      have hgiven : own.has "condition" = true := by rw [Record.has_eq_isSome, hget]; rfl
      rw [Encoding.outcome_normalizeDef hown (hfield own hown) hgiven,
        Encoding.spellConditions_single hsingle hget]
      cases Encoding.keptCondition channel c with
      | error fault => simp [Functor.map, Except.map]
      | ok k => simp [Functor.map, Except.map, eq_comm]

theorem normalizeChannel_listed_iff :
    (Encoding.normalizeChannel channel (listed (.object d)) parse).outcome = .ok kept ↔
      ∃ own k, Encoding.spelledMembers channel (.object d) parse = .ok own ∧
        Encoding.keptCondition channel c = .ok k ∧
        kept = some (.object (own.put "condition" (.list [k]))) := by
  have hvalue : d.value "condition" = c := by rw [Record.value, hcondition]; rfl
  have hgiven : d.has "condition" = true := by rw [Record.has_eq_isSome, hcondition]; rfl
  have hlisted :
      Encoding.spelledMembers channel (.object (d.put "condition" (.list [c]))) parse = _ :=
    Encoding.spelledMembers_put hkeys hgiven (.list [c])
  rw [listed, hvalue]
  show (Encoding.normalizeDef channel (.object (d.put "condition" (.list [c]))) parse).outcome = _ ↔
    _
  cases hown : Encoding.spelledMembers channel (.object d) parse with
  | error fault =>
      rw [hown] at hlisted
      simp [Encoding.normalizeDef, hlisted, Functor.map, Except.map, Except.bind]
  | ok own =>
      rw [hown] at hlisted
      have hno := (isFieldDef_putCondition (.list [c])).trans (hfield own hown)
      have hput : (own.put "condition" (.list [c])).has "condition" = true := by
        rw [Record.has_put, beq_self_eq_true, Bool.true_or]
      rw [Encoding.outcome_normalizeDef hlisted hno hput, Encoding.spellConditions_listed hsingle]
      cases Encoding.keptCondition channel c with
      | error fault => simp [Functor.map, Except.map]
      | ok k => simp [Functor.map, Except.map, eq_comm]

end Kept

theorem isFieldDef_of_keptCondition {c k : Value} (hsingle : IsSingle c)
    (h : Encoding.keptCondition channel c = .ok k) : isFieldDef k = isFieldDef c := by
  rw [Encoding.keptCondition] at h
  split at h
  · rename_i hfield
    obtain ⟨members, hmembers, h⟩ := bind_eq_ok_iff.1 h
    rw [if_pos hfield] at h
    obtain ⟨spelled, hspelled, h⟩ := bind_eq_ok_iff.1 h
    obtain rfl := Except.ok.inj h
    rw [Encoding.isFieldDef_of_spellField hspelled, hfield]
    rcases hsingle with hobject | ⟨fd, rfl⟩
    · cases c with
      | object inner =>
          obtain rfl := Except.ok.inj hmembers
          exact hfield
      | _ => cases hobject
    · -- Spelled out as pairs, a checked field definition still has a field.
      rw [FieldDef.toValue, Value.asRecord] at hmembers
      split at hmembers
      · cases hmembers
      · obtain rfl := Except.ok.inj hmembers
        rw [isFieldDef, Record.has_override_eq]
        rfl
  · rw [← Except.ok.inj h]

theorem exists_object_of_keptCondition {k : Value} (hsingle : IsSingle c)
    (hc : isFieldDef c = false) (h : Encoding.keptCondition channel c = .ok k) :
    ∃ inner, k = .object inner := by
  rw [Encoding.keptCondition, hc, if_neg Bool.false_ne_true] at h
  obtain rfl := Except.ok.inj h
  rcases hsingle with hobject | ⟨fd, rfl⟩
  · cases c with
    | object inner => exact ⟨inner, rfl⟩
    | _ => cases hobject
  · cases hc

theorem specWith_self {v : Value} (hspec : spec.value "encoding" = .object members)
    (hdef : members.get? channel = some v) : specWith spec members channel v = spec := by
  rw [specWith, Record.put_eq_self hdef]
  exact Record.put_eq_self (Record.get?_of_value hspec Value.noConfusion)

/-- A definition without a field means the same with its condition by itself and in a list exactly
if the condition is not a field definition. -/
theorem readsAlike_listed_iff (hspec : spec.value "encoding" = .object members)
    (hdef : members.get? channel = some (.object d)) (hkeys : d.keys.Nodup)
    (hcondition : d.get? "condition" = some c) (hsingle : IsSingle c)
    (hfield : ∀ own, Encoding.spelledMembers channel (.object d) parse = .ok own →
      isFieldDef (.object own) = false) :
    (∀ m, (ofSpec spec settings name parse).outcome = .ok m → ∃ m',
      (ofSpec (specWith spec members channel (listed (.object d))) settings name parse).outcome =
        .ok m' ∧
        (m.ReadsAlike m' channel ↔ isFieldDef c = false)) ∧
    (isFieldDef c = false → ∀ m',
      (ofSpec (specWith spec members channel (listed (.object d))) settings name parse).outcome =
        .ok m' →
        ∃ m, (ofSpec spec settings name parse).outcome = .ok m) := by
  have hself := specWith_self hspec hdef
  rcases exists_surroundings spec members channel settings name parse with
    hnone | ⟨s, hchannel, -, hs⟩
  · have hbare := hnone (.object d)
    rw [hself] at hbare
    exact ⟨fun m hm ↦ (hbare m hm).elim, fun _ m' hm' ↦ (hnone _ m' hm').elim⟩
  have hbare := hs (.object d)
  rw [hself] at hbare
  simp only [hbare, hs, normalizeChannel_single_iff hkeys hcondition hsingle hfield,
    normalizeChannel_listed_iff hkeys hcondition hsingle hfield]
  constructor
  · rintro m ⟨kept, scale, ⟨own, k, hown, hk, rfl⟩, hscale, rfl⟩
    have hno := hfield own hown
    have hkc := isFieldDef_of_keptCondition hsingle hk
    cases hc : isFieldDef c with
    | false =>
        have hscale' := (initScale?_listed hno (hkc.trans hc)).trans hscale
        refine ⟨_, ⟨_, scale, ⟨own, k, hown, hk, rfl⟩, hscale', rfl⟩, iff_of_true ?_ rfl⟩
        have hvisited : (s.unit channel (some (.object (own.put "condition" (.list [k]))))
            scale).encoding.visited =
            (s.unit channel (some (.object (own.put "condition" k))) scale).encoding.visited :=
          (visited_listed hno k).trans ((visited_single_iff hno k).2 (hkc.trans hc)).symm
        obtain ⟨inner, rfl⟩ := exists_object_of_keptCondition hsingle hc hk
        exact ⟨rfl, hvisited, guards_unit hvisited, nonPosition_listed hchannel hno inner⟩
    | true =>
        obtain ⟨scale', hscale'⟩ := exists_initScale?_listed hno hscale
        refine ⟨_, ⟨_, scale', ⟨own, k, hown, hk, rfl⟩, hscale', rfl⟩,
          iff_of_false (fun halike ↦ ?_) Bool.noConfusion⟩
        -- The field of the condition is come across in the one unit only.
        have hplain := (visited_single_iff hno k).1
          (halike.visited.symm.trans (visited_listed hno k))
        rw [hkc, hc] at hplain
        cases hplain
  · rintro hplain m' ⟨kept, scale, ⟨own, k, hown, hk, rfl⟩, hscale, rfl⟩
    have hkc := (isFieldDef_of_keptCondition hsingle hk).trans hplain
    exact ⟨_, _, scale, ⟨own, k, hown, hk, rfl⟩,
      (initScale?_listed (hfield own hown) hkc).symm.trans hscale, rfl⟩

end Conditions

/-- A color of its own for the points that pass a test. -/
def highlight : Record Value :=
  [("value", .text "grey"), ("condition", .object
    [("test", .text "datum.v > 9"), ("value", .text "red")])]

/-- The color of a measurement for the points that pass a test. -/
def measuredHighlight : Record Value :=
  [("value", .text "grey"), ("condition", .object
    [("test", .text "datum.v > 0"), ("field", .text "a"), ("type", .text "quantitative")])]

def coloredPoints (color : Value) : Record Value :=
  [("mark", .text "point"), ("encoding", .object [("x", .text "v:Q"), ("color", color)])]

theorem readsAlike_listed_iff_highlight :
    ∃ m m', (ofSpec (coloredPoints (.object highlight))).outcome = .ok m ∧
      (ofSpec (coloredPoints (listed (.object highlight)))).outcome = .ok m' ∧
      m.ReadsAlike m' "color" := by
  have hbuilt : (ofSpec (coloredPoints (.object highlight))).outcome.isOk = true := by
    decide +kernel
  cases hm : (ofSpec (coloredPoints (.object highlight))).outcome with
  | error fault =>
      rw [hm] at hbuilt
      cases hbuilt
  | ok m =>
      have hfield : ∀ own, Encoding.spelledMembers "color" (.object highlight) = .ok own →
          isFieldDef (.object own) = false := by
        decide +kernel
      obtain ⟨m', hm', halike⟩ :=
        (readsAlike_listed_iff rfl rfl (by decide) rfl (.inl rfl) hfield).1 m hm
      exact ⟨m, m', rfl, hm', halike.2 rfl⟩

/-- In a list, a condition that is a field definition loses its scale. -/
theorem not_readsAlike_measuredHighlight :
    ∃ m m', (ofSpec (coloredPoints (.object measuredHighlight))).outcome = .ok m ∧
      (ofSpec (coloredPoints (listed (.object measuredHighlight)))).outcome = .ok m' ∧
      ¬m.ReadsAlike m' "color" ∧ m.scales.keys = ["x", "color"] ∧ m'.scales.keys = ["x"] := by
  have hrun : (do
      let m ← (ofSpec (coloredPoints (.object measuredHighlight))).outcome
      let m' ← (ofSpec (coloredPoints (listed (.object measuredHighlight)))).outcome
      pure (m.scales.keys, m'.scales.keys)) = .ok (["x", "color"], ["x"]) := by
    decide +kernel
  obtain ⟨m, hm, hrun⟩ := bind_eq_ok_iff.1 hrun
  obtain ⟨m', hm', hrun⟩ := bind_eq_ok_iff.1 hrun
  obtain ⟨hkeys, hkeys'⟩ := Prod.mk.inj (Except.ok.inj hrun)
  refine ⟨m, m', hm, hm', fun halike ↦ ?_, hkeys, hkeys'⟩
  rw [halike.scales, hkeys] at hkeys'
  cases hkeys'

end UnitModel

end ChartLowering
