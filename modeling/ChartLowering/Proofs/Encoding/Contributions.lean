import ChartLowering.Proofs.Encoding.Places

/-!
# What each definition contributes

The definitions of an encoding are gone through channel by channel, lists item by item. At most one
transform is lifted from each of them, and those of one kind are gathered in that order.
-/

namespace ChartLowering

open ChannelDef

namespace Lifted

/-- A transform that is lifted from a definition. -/
inductive Transform where
  | measure (m : Measure)
  | bin (b : BinTransform)
  | timeUnit (t : TimeUnitTransform)

namespace Transform

def measure? : Transform → Option Measure
  | measure m => some m
  | _ => none

def bin? : Transform → Option BinTransform
  | bin b => some b
  | _ => none

def timeUnit? : Transform → Option TimeUnitTransform
  | timeUnit t => some t
  | _ => none

end Transform

/-- The definition of an extremum by itself. -/
def extremeDef (op : String) (field : Option String) : FieldDef :=
  { field, type := none, aggregate := some (.named op), bin := none, timeUnit := none
    title := .null, extras := [] }

/-- What is lifted from a definition and what then takes its place. The transform has the operation
or the parameters of the definition, and its field. The definition reads what the transform
writes. -/
inductive LiftsOnce (v : Value) : Option Transform → Value → Prop
  | other (hdef : isFieldDef v = false) : LiftsOnce v none v
  | plain {fd : FieldDef} (hdef : isFieldDef v = true) (hread : FieldDef.read v = .ok fd)
      (haggregate : givenAggregate? fd = none) (hbin : fd.bin.filter Binning.asks = none)
      (hunit : fd.givenTimeUnit? = none) : LiftsOnce v none v
  | aggregate {fd : FieldDef} {op output : String} {w : Value} (hdef : isFieldDef v = true)
      (hread : FieldDef.read v = .ok fd) (haggregate : givenAggregate? fd = some (.named op))
      (houtput : fd.output = .ok output) (hw : fieldName? w = some output) :
      LiftsOnce v
        (some (.measure ⟨op, if fd.path = "" then none else some (fieldValue fd.field), output⟩)) w
  | extremum {fd : FieldDef} {parameters : Record Value} {field : Option String}
      {output : String} {w : Value} (hdef : isFieldDef v = true)
      (hread : FieldDef.read v = .ok fd) (haggregate : givenAggregate? fd = some (.with parameters))
      (hargument : parameters.require (extremum parameters) = .ok (fieldValue field))
      (houtput : (extremeDef (extremum parameters) field).output = .ok output)
      (hw : fieldName? w = some (output ++ "." ++ (fieldValue fd.field).shown)) :
      LiftsOnce v (some (.measure ⟨extremum parameters, some (fieldValue field), output⟩)) w
  | bin {fd : FieldDef} {bin : Binning} {output : String} {w : Value} (hdef : isFieldDef v = true)
      (hread : FieldDef.read v = .ok fd) (haggregate : givenAggregate? fd = none)
      (hbin : fd.bin.filter Binning.asks = some bin) (houtput : fd.output = .ok output)
      (hw : fieldName? w = some output) :
      LiftsOnce v (some (.bin ⟨bin.toValue, fd.field, output⟩)) w
  | timeUnit {fd : FieldDef} {unit : Operation} {output : String} {w : Value}
      (hdef : isFieldDef v = true) (hread : FieldDef.read v = .ok fd)
      (haggregate : givenAggregate? fd = none) (hbin : fd.bin.filter Binning.asks = none)
      (hunit : fd.givenTimeUnit? = some unit) (houtput : fd.output = .ok output)
      (hw : fieldName? w = some output) :
      LiftsOnce v (some (.timeUnit ⟨unit, fd.field, output⟩)) w

/-- Does a definition contribute the transform that is lifted from it, and no other one? -/
structure Contributes (l : Lifted) (t : Option Transform) : Prop where
  measures : l.measures = (t.bind Transform.measure?).toList
  bins : l.bins = (t.bind Transform.bin?).toList
  timeUnits : l.timeUnits = (t.bind Transform.timeUnit?).toList

variable {countTitle channel : String} {v : Value} {l : Lifted}

theorem argument_eq_ok {given : Value} {field : Option String} (h : argument given = .ok field) :
    given = fieldValue field := by
  cases given with
  | null | text => rw [← Except.ok.inj h]; rfl
  | bool | int | float | list | set | object | fieldDef => cases h

/-- From each definition at most one transform is lifted. -/
theorem exists_liftsOnce (h : ofDef countTitle channel v = .ok l) :
    ∃ t, LiftsOnce v t l.definition ∧ l.Contributes t := by
  cases arises_of_ofDef h with
  | other hdef => exact ⟨none, .other hdef, rfl, rfl, rfl⟩
  | plain hdef hread haggregate hbin hunit =>
      exact ⟨none, .plain hdef hread haggregate hbin hunit, rfl, rfl, rfl⟩
  | @aggregate fd output members aggregate _ hdef hread haggregate hmembers h houtput =>
      have hfield := value_field_of_readDerived hmembers
      cases aggregate with
      | named op =>
          obtain rfl := Except.ok.inj h
          have hw : fieldName? (.object members) = some output := by
            rw [fieldName?, hfield]
            rfl
          exact ⟨_, .aggregate hdef hread haggregate houtput hw, rfl, rfl, rfl⟩
      | «with» parameters =>
          obtain ⟨given, hgiven, h⟩ := bind_eq_ok_iff.1 h
          obtain ⟨field, hargument, h⟩ := bind_eq_ok_iff.1 h
          obtain ⟨column, hcolumn, h⟩ := bind_eq_ok_iff.1 h
          obtain rfl := Except.ok.inj h
          rw [argument_eq_ok hargument] at hgiven
          refine ⟨_, .extremum hdef hread haggregate hgiven hcolumn ?_, rfl, rfl, rfl⟩
          rw [fieldName?, Record.value_put_self]
          rfl
  | bin hdef hread haggregate hbin hmembers h houtput =>
      obtain ⟨ending, range, -, rfl⟩ := exists_of_ofBin h
      refine ⟨_, .bin hdef hread haggregate hbin houtput ?_, rfl, rfl, rfl⟩
      rw [fieldName?, value_field_binned, value_field_of_readDerived hmembers]
      rfl
  | timeUnit hdef hread haggregate hbin hunit hmembers h houtput =>
      obtain ⟨shown, hsame, rfl⟩ := exists_of_ofTimeUnit h
      refine ⟨_, .timeUnit hdef hread haggregate hbin hunit houtput ?_, rfl, rfl, rfl⟩
      rw [fieldName?, hsame, value_field_of_readDerived hmembers]
      rfl

end Lifted

namespace Extraction

variable {e e' r : Extraction} {channel countTitle : String} {lifted : List Lifted} {v : Value}
  {encoding : Encoding}

/-- Does an extraction have the contributions of some definitions, in their order? -/
structure Gathers (e : Extraction) (lifted : List Lifted) : Prop where
  measures : e.measures = lifted.flatMap Lifted.measures
  bins : e.bins = lifted.flatMap Lifted.bins
  timeUnits : e.timeUnits = lifted.flatMap Lifted.timeUnits
  groupby : e.groupby.Nodup

theorem nodup_addColumns {columns : List String} (h : columns.Nodup) (added : List String) :
    (addColumns columns added).Nodup := by
  induction added generalizing columns with
  | nil => exact h
  | cons c rest ih =>
      rw [addColumns, List.foldl_cons]
      split
      · exact ih h
      · rename_i hc
        refine ih (List.nodup_append.2 ⟨h, List.nodup_singleton c, fun a ha b hb hab ↦ hc ?_⟩)
        obtain rfl := List.mem_singleton.1 hb
        rw [← hab]
        simpa using ha

theorem Gathers.add (h : e.Gathers lifted) (channel : String) (l : Lifted) :
    (e.add channel l).Gathers (lifted ++ [l]) where
  measures := by simp [Extraction.add, h.measures]
  bins := by simp [Extraction.add, h.bins]
  timeUnits := by simp [Extraction.add, h.timeUnits]
  groupby := nodup_addColumns h.groupby l.groupby

theorem Gathers.foldl_add (h : e.Gathers lifted) (channel : String) (more : List Lifted) :
    (more.foldl (fun e l ↦ e.add channel l) e).Gathers (lifted ++ more) := by
  induction more generalizing e lifted with
  | nil => simpa using h
  | cons l rest ih => simpa using ih (h.add channel l)

theorem definitions_append_singleton (before : Encoding) (channel : String) (v : Value) :
    Encoding.definitions (before ++ [(channel, v)]) =
      before.definitions ++ v.itemsOrSelf.map fun x ↦ (channel, x) := by
  simp [Encoding.definitions]

/-- An extraction gathers what the definitions contribute, one after the other. -/
theorem exists_gathers (h : ofEncoding encoding countTitle = .ok r) :
    ∃ lifted, List.Forall₂ (fun d l ↦ Lifted.ofDef (titleFor countTitle) d.1 d.2 = .ok l)
      encoding.definitions lifted ∧ r.Gathers lifted := by
  let P (before : Encoding) (e : Extraction) : Prop :=
    ∃ lifted, List.Forall₂ (fun d l ↦ Lifted.ofDef (titleFor countTitle) d.1 d.2 = .ok l)
      before.definitions lifted ∧ e.Gathers lifted
  refine induction_before (P := P) ⟨[], .nil, rfl, rfl, rfl, List.nodup_nil⟩ ?_ h
  rintro before channel v after e e' - ⟨lifted, hlifted, hgathers⟩ hadd
  obtain ⟨more, w, hmore, -, -, rfl⟩ := exists_of_addChannel hadd
  have hsame := hgathers.foldl_add channel more
  refine ⟨lifted ++ more, ?_, hsame.measures, hsame.bins, hsame.timeUnits, hsame.groupby⟩
  rw [definitions_append_singleton]
  refine List.rel_append hlifted ?_
  rw [List.forall₂_map_left_iff]
  exact mapM_eq_ok_iff.1 hmore

/-- Whatever has been gathered was lifted from a definition. -/
theorem exists_liftsOnce_of_mem {α : Type} {pick : Lifted.Transform → Option α}
    {list : Lifted → List α}
    (hlist : ∀ {l t}, l.Contributes t → list l = (t.bind pick).toList)
    (hlifted : List.Forall₂ (fun d l ↦ Lifted.ofDef (titleFor countTitle) d.1 d.2 = .ok l)
      encoding.definitions lifted) {a : α} (ha : a ∈ lifted.flatMap list) :
    ∃ d ∈ encoding.definitions, ∃ t w, Lifted.LiftsOnce d.2 (some t) w ∧ pick t = some a := by
  obtain ⟨l, hl, ha⟩ := List.mem_flatMap.1 ha
  obtain ⟨d, hd, hof⟩ := (mem_of_mapM_eq_ok (mapM_eq_ok_iff.2 hlifted)).1 hl
  obtain ⟨t, hlifts, hcontributes⟩ := Lifted.exists_liftsOnce hof
  rw [hlist hcontributes, Option.mem_toList] at ha
  obtain ⟨t, rfl, ha⟩ := Option.bind_eq_some_iff.1 ha
  exact ⟨d, hd, t, _, hlifts, ha⟩

theorem exists_of_mem_bins {b : BinTransform} (h : ofEncoding encoding countTitle = .ok r)
    (hb : b ∈ r.bins) :
    ∃ d ∈ encoding.definitions, ∃ w, Lifted.LiftsOnce d.2 (some (.bin b)) w := by
  obtain ⟨lifted, hlifted, hgathers⟩ := exists_gathers h
  rw [hgathers.bins] at hb
  obtain ⟨d, hd, t, w, hlifts, hpick⟩ := exists_liftsOnce_of_mem (fun h ↦ h.bins) hlifted hb
  cases t with
  | bin other =>
      obtain rfl := Option.some.inj hpick
      exact ⟨d, hd, w, hlifts⟩
  | measure | timeUnit => cases hpick

theorem exists_of_mem_timeUnits {u : TimeUnitTransform}
    (h : ofEncoding encoding countTitle = .ok r) (hu : u ∈ r.timeUnits) :
    ∃ d ∈ encoding.definitions, ∃ w, Lifted.LiftsOnce d.2 (some (.timeUnit u)) w := by
  obtain ⟨lifted, hlifted, hgathers⟩ := exists_gathers h
  rw [hgathers.timeUnits] at hu
  obtain ⟨d, hd, t, w, hlifts, hpick⟩ := exists_liftsOnce_of_mem (fun h ↦ h.timeUnits) hlifted hu
  cases t with
  | timeUnit other =>
      obtain rfl := Option.some.inj hpick
      exact ⟨d, hd, w, hlifts⟩
  | measure | bin => cases hpick

end Extraction

end ChartLowering
