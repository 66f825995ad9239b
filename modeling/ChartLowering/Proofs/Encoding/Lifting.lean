import ChartLowering.Encoding.Lifted
import ChartLowering.Proofs.Report
import ChartLowering.Proofs.Value.Record
import ChartLowering.Unit.Model

/-!
# What a lifted encoding reads

A rewritten definition reads a column that groups the rows, a column of an aggregate, or the end of
a bin. No definition that is lifted later takes such a column away.
-/

namespace ChartLowering

/-- The end of a range is on a channel of its own. -/
theorem append_two_ne {channel other : String} (h : other.toList.getLast? ≠ some '2') :
    channel ++ "2" ≠ other := by
  rintro rfl
  simp at h

/-- The field that a definition names itself. -/
def ChannelDef.fieldName? : Value → Option String
  | .object members | .fieldDef members => (Record.value members "field").text?
  | _ => none

/-- Is this the column of an aggregate, or a member of the row that an extremum is taken from? -/
def Measure.Provides (m : Measure) (name : String) : Prop :=
  name = m.output ∨
    (m.op = "argmin" ∨ m.op = "argmax") ∧ ∃ member, name = m.output ++ "." ++ member

namespace Lifted

/-- Is a column among what a definition contributes? -/
def Serves (l : Lifted) (name : String) : Prop :=
  name ∈ l.groupby ∨ (∃ m ∈ l.measures, m.Provides name) ∨ ∃ b ∈ l.bins, name = b.output ++ "_end"

/-- May the contribution of a definition stand for it? What is put in its place reads columns that
are contributed along with it. -/
structure Replaces (l : Lifted) (v : Value) : Prop where
  form : l.definition = v ∨ l.definition.isObject = true
  definition : ∀ name, ChannelDef.fieldName? l.definition = some name → name ≠ "" → l.Serves name
  secondary : ∀ w ∈ l.secondary, ∀ d ∈ w.itemsOrSelf, ∀ name,
    ChannelDef.fieldName? d = some name → l.Serves name

variable {fd : FieldDef} {channel countTitle output : String} {members : Record Value} {l : Lifted}
  {v : Value}

/-- A derived definition has the members that are not about what is lifted, over a title. -/
theorem exists_title_of_readDerived (h : readDerived fd output countTitle = .ok members) :
    ∃ title : Record Value, (∀ key, key ≠ "title" → key ∉ title.keys) ∧
      members = (title.override
        (fd.stored.without ["field", "aggregate", "bin", "timeUnit"])).put "field"
          (.text output) := by
  rw [readDerived] at h
  dsimp only at h
  split at h
  · obtain ⟨title, htitle, h⟩ := bind_eq_ok_iff.1 h
    obtain rfl := Except.ok.inj htitle
    exact ⟨[], fun _ _ ↦ List.not_mem_nil, (Except.ok.inj h).symm⟩
  · obtain ⟨text, -, h⟩ := bind_eq_ok_iff.1 h
    obtain ⟨title, htitle, h⟩ := bind_eq_ok_iff.1 h
    obtain rfl := Except.ok.inj htitle
    refine ⟨[("title", text)], fun key hkey hmem ↦ hkey ?_, (Except.ok.inj h).symm⟩
    exact List.mem_singleton.1 hmem

theorem value_field_of_readDerived (h : readDerived fd output countTitle = .ok members) :
    members.value "field" = .text output := by
  obtain ⟨title, -, rfl⟩ := exists_title_of_readDerived h
  exact Record.value_put_self

theorem isFieldDef_of_value_field {members : Record Value}
    (h : members.value "field" = .text name) : ChannelDef.isFieldDef (.object members) = true := by
  have hget := Record.get?_of_value h Value.noConfusion
  rw [ChannelDef.isFieldDef, Record.has_eq_isSome, hget]
  rfl

theorem exists_of_ofAggregate {aggregate : Operation}
    (hfield : members.value "field" = .text output)
    (h : ofAggregate fd output members aggregate = .ok l) :
    ∃ (m : Measure) (shown : Record Value) (name : String),
      l = { measures := [m], definition := .object shown } ∧
      shown.value "field" = .text name ∧ m.Provides name := by
  cases aggregate with
  | named op => exact ⟨_, members, output, (Except.ok.inj h).symm, hfield, .inl rfl⟩
  | «with» parameters =>
      obtain ⟨given, -, h⟩ := bind_eq_ok_iff.1 h
      obtain ⟨field, -, h⟩ := bind_eq_ok_iff.1 h
      obtain ⟨column, -, h⟩ := bind_eq_ok_iff.1 h
      refine ⟨_, _, _, (Except.ok.inj h).symm, Record.value_put_self, .inr ⟨?_, _, rfl⟩⟩
      rw [extremum]
      split
      · exact .inr rfl
      · exact .inl rfl

theorem Replaces.isList_definition (h : l.Replaces v) (hv : v.isList = false) :
    l.definition.isList = false := by
  obtain hform | hform := h.form
  · rwa [hform]
  · cases hd : l.definition <;> simp_all [Value.isObject, Value.isList]

theorem Replaces.itemsOrSelf_definition (h : l.Replaces v) (hv : v.isList = false) :
    l.definition.itemsOrSelf = [l.definition] := by
  have hlist := h.isList_definition hv
  cases hd : l.definition <;> simp_all [Value.isList, Value.itemsOrSelf]

theorem replaces_of_ofAggregate {aggregate : Operation}
    (hfield : members.value "field" = .text output)
    (h : ofAggregate fd output members aggregate = .ok l) : l.Replaces v := by
  obtain ⟨m, shown, name, rfl, hshown, hm⟩ := exists_of_ofAggregate hfield h
  refine ⟨.inr rfl, fun read hread _ ↦ ?_, fun w hw ↦ nomatch hw⟩
  rw [ChannelDef.fieldName?, hshown] at hread
  obtain rfl := Option.some.inj hread
  exact .inr (.inl ⟨m, List.mem_singleton_self _, hm⟩)

/-- The definition that reads a binned column. -/
def binned (channel : String) (members : Record Value) : Record Value :=
  let binned := members.put "bin" (.text "binned")
  if Channel.secondary.contains channel then binned
  else binned.put "type" (.text FieldType.quantitative.name)

theorem value_field_binned : (binned channel members).value "field" = members.value "field" := by
  rw [binned]
  split
  · exact Record.value_put_of_ne (by decide)
  · exact (Record.value_put_of_ne (by decide)).trans (Record.value_put_of_ne (by decide))

theorem exists_of_ofBin {bin : Binning} (h : ofBin channel fd bin output members = .ok l) :
    ∃ ending range, fd.output (some "end") = .ok ending ∧
      l = { bins := [⟨bin.toValue, fd.field, output⟩]
            groupby := [output, ending] ++ range
            secondary := if Channel.isXOrY channel then
                some (.object [("field", .text (output ++ "_end"))])
              else none
            definition := .object (binned channel members) } := by
  rw [ofBin] at h
  obtain ⟨ending, hending, h⟩ := bind_eq_ok_iff.1 h
  dsimp only at h
  split at h
  · obtain ⟨range, -, h⟩ := bind_eq_ok_iff.1 h
    obtain ⟨ranges, -, h⟩ := bind_eq_ok_iff.1 h
    exact ⟨ending, ranges, hending, (Except.ok.inj h).symm⟩
  · obtain ⟨ranges, -, h⟩ := bind_eq_ok_iff.1 h
    exact ⟨ending, ranges, hending, (Except.ok.inj h).symm⟩

theorem replaces_of_ofBin {bin : Binning} (hfield : members.value "field" = .text output)
    (h : ofBin channel fd bin output members = .ok l) : l.Replaces v := by
  obtain ⟨ending, range, -, rfl⟩ := exists_of_ofBin h
  refine ⟨.inr rfl, fun read hread _ ↦ ?_, fun w hw d hd name hname ↦ ?_⟩
  · rw [ChannelDef.fieldName?, value_field_binned, hfield] at hread
    obtain rfl := Option.some.inj hread
    exact .inl List.mem_cons_self
  · obtain ⟨-, hw⟩ := Option.ite_none_right_eq_some.1 hw
    obtain rfl := Option.some.inj hw
    obtain rfl := List.mem_singleton.1 hd
    obtain rfl := Option.some.inj hname
    exact .inr (.inr ⟨_, List.mem_singleton_self _, rfl⟩)

theorem value_field_of_formatted {formatted : Record Value}
    (h : Lifted.formatted channel members = .ok formatted) :
    formatted.value "field" = members.value "field" := by
  rw [Lifted.formatted] at h
  split at h
  · obtain rfl := Except.ok.inj h
    exact Record.value_put_of_ne (by decide)
  · split at h
    · obtain ⟨guide, -, h⟩ := bind_eq_ok_iff.1 h
      obtain rfl := Except.ok.inj h
      exact Record.value_put_of_ne (by decide)
    · split at h
      · obtain ⟨guide, -, h⟩ := bind_eq_ok_iff.1 h
        obtain rfl := Except.ok.inj h
        exact Record.value_put_of_ne (by decide)
      · obtain rfl := Except.ok.inj h
        rfl

theorem exists_of_ofTimeUnit {unit : Operation}
    (h : ofTimeUnit channel fd unit output members = .ok l) :
    ∃ shown : Record Value, shown.value "field" = members.value "field" ∧
      l = { timeUnits := [⟨unit, fd.field, output⟩], groupby := [output]
            definition := .object shown } := by
  rw [ofTimeUnit] at h
  dsimp only at h
  split at h
  · exact ⟨members, rfl, (Except.ok.inj h).symm⟩
  · obtain ⟨shown, hshown, h⟩ := bind_eq_ok_iff.1 h
    exact ⟨shown, value_field_of_formatted hshown, (Except.ok.inj h).symm⟩

theorem replaces_of_ofTimeUnit {unit : Operation} (hfield : members.value "field" = .text output)
    (h : ofTimeUnit channel fd unit output members = .ok l) : l.Replaces v := by
  obtain ⟨shown, hsame, rfl⟩ := exists_of_ofTimeUnit h
  refine ⟨.inr rfl, fun read hread _ ↦ ?_, fun w hw ↦ nomatch hw⟩
  rw [ChannelDef.fieldName?, hsame, hfield] at hread
  obtain rfl := Option.some.inj hread
  exact .inl (List.mem_singleton_self _)

theorem path_eq_of_read {name : String} (h : FieldDef.read v = .ok fd)
    (hname : ChannelDef.fieldName? v = some name) : fd.path = name := by
  have key : ∀ members : Record Value, FieldDef.ofMembers members = .ok fd →
      (members.value "field").text? = some name → fd.path = name := by
    intro members h hname
    obtain ⟨type, -, h⟩ := bind_eq_ok_iff.1 h
    obtain ⟨field, hfield, h⟩ := bind_eq_ok_iff.1 h
    obtain ⟨aggregate, -, h⟩ := bind_eq_ok_iff.1 h
    obtain ⟨bin, -, h⟩ := bind_eq_ok_iff.1 h
    obtain ⟨timeUnit, -, h⟩ := bind_eq_ok_iff.1 h
    obtain rfl := Except.ok.inj h
    cases hv : members.value "field" <;> simp_all [Value.text?, Value.optional, FieldDef.path]
    rw [← Except.ok.inj hfield]
    rfl
  cases v with
  | object members => exact key members h hname
  | fieldDef members => exact key members h hname
  | null | bool | int | float | text | list | set => cases hname

theorem replaces_of_ofFieldDef (hread : FieldDef.read v = .ok fd)
    (h : ofFieldDef countTitle channel v fd = .ok l) : l.Replaces v := by
  rw [ofFieldDef] at h
  split at h
  · obtain ⟨output, -, h⟩ := bind_eq_ok_iff.1 h
    obtain ⟨members, hmembers, h⟩ := bind_eq_ok_iff.1 h
    exact replaces_of_ofAggregate (value_field_of_readDerived hmembers) h
  · obtain ⟨output, -, h⟩ := bind_eq_ok_iff.1 h
    obtain ⟨members, hmembers, h⟩ := bind_eq_ok_iff.1 h
    exact replaces_of_ofBin (value_field_of_readDerived hmembers) h
  · obtain ⟨output, -, h⟩ := bind_eq_ok_iff.1 h
    obtain ⟨members, hmembers, h⟩ := bind_eq_ok_iff.1 h
    exact replaces_of_ofTimeUnit (value_field_of_readDerived hmembers) h
  · obtain rfl := Except.ok.inj h
    refine ⟨.inl rfl, fun name hname hne ↦ .inl ?_, fun w hw ↦ nomatch hw⟩
    obtain rfl := path_eq_of_read hread hname
    rw [if_neg hne]
    exact List.mem_singleton_self _

theorem fieldName?_eq_none (h : ChannelDef.isFieldDef v = false) :
    ChannelDef.fieldName? v = none := by
  cases v with
  | object members =>
      have hfield : Record.has members "field" = false := (Bool.or_eq_false_iff.1 h).1
      rw [Record.has_eq_isSome, Option.isSome_eq_false_iff, Option.isNone_iff_eq_none] at hfield
      rw [ChannelDef.fieldName?, Record.value, hfield]
      rfl
  | fieldDef members => cases h
  | null | bool | int | float | text | list | set => rfl

theorem replaces_of_ofDef (h : ofDef countTitle channel v = .ok l) : l.Replaces v := by
  obtain ⟨found, hfound, h⟩ := bind_eq_ok_iff.1 h
  rw [ChannelDef.fieldDef?] at hfound
  split at hfound
  · cases hread : FieldDef.read v with
    | error fault =>
        rw [hread] at hfound
        cases hfound
    | ok fd =>
        rw [hread] at hfound
        obtain rfl := Except.ok.inj hfound
        exact replaces_of_ofFieldDef hread h
  · rename_i hdef
    obtain rfl := Except.ok.inj hfound
    obtain rfl := Except.ok.inj h
    refine ⟨.inl rfl, fun name hname ↦ ?_, fun w hw ↦ nomatch hw⟩
    rw [fieldName?_eq_none (by simpa using hdef)] at hname
    cases hname

/-- The ways in which a definition contributes. -/
inductive Arises (countTitle channel : String) (v : Value) : Lifted → Prop
  | other (hdef : ChannelDef.isFieldDef v = false) : Arises countTitle channel v { definition := v }
  | plain {fd : FieldDef} (hdef : ChannelDef.isFieldDef v = true)
      (hread : FieldDef.read v = .ok fd) (haggregate : givenAggregate? fd = none)
      (hbin : fd.bin.filter Binning.asks = none) (hunit : fd.givenTimeUnit? = none) :
      Arises countTitle channel v
        { groupby := if fd.path = "" then [] else [fd.path], definition := v }
  | aggregate {fd : FieldDef} {output : String} {members : Record Value} {aggregate : Operation}
      {l : Lifted} (hdef : ChannelDef.isFieldDef v = true) (hread : FieldDef.read v = .ok fd)
      (haggregate : givenAggregate? fd = some aggregate)
      (hmembers : readDerived fd output countTitle = .ok members)
      (h : ofAggregate fd output members aggregate = .ok l) (houtput : fd.output = .ok output) :
      Arises countTitle channel v l
  | bin {fd : FieldDef} {output : String} {members : Record Value} {bin : Binning} {l : Lifted}
      (hdef : ChannelDef.isFieldDef v = true) (hread : FieldDef.read v = .ok fd)
      (haggregate : givenAggregate? fd = none) (hbin : fd.bin.filter Binning.asks = some bin)
      (hmembers : readDerived fd output countTitle = .ok members)
      (h : ofBin channel fd bin output members = .ok l) (houtput : fd.output = .ok output) :
      Arises countTitle channel v l
  | timeUnit {fd : FieldDef} {output : String} {members : Record Value} {unit : Operation}
      {l : Lifted} (hdef : ChannelDef.isFieldDef v = true) (hread : FieldDef.read v = .ok fd)
      (haggregate : givenAggregate? fd = none) (hbin : fd.bin.filter Binning.asks = none)
      (hunit : fd.givenTimeUnit? = some unit)
      (hmembers : readDerived fd output countTitle = .ok members)
      (h : ofTimeUnit channel fd unit output members = .ok l) (houtput : fd.output = .ok output) :
      Arises countTitle channel v l

theorem arises_of_ofDef (h : ofDef countTitle channel v = .ok l) :
    Arises countTitle channel v l := by
  obtain ⟨found, hfound, h⟩ := bind_eq_ok_iff.1 h
  rw [ChannelDef.fieldDef?] at hfound
  split at hfound
  · rename_i hdef
    cases hread : FieldDef.read v with
    | error fault =>
        rw [hread] at hfound
        cases hfound
    | ok fd =>
        rw [hread] at hfound
        obtain rfl := Except.ok.inj hfound
        dsimp only at h
        rw [ofFieldDef] at h
        split at h
        · rename_i haggregate
          obtain ⟨output, houtput, h⟩ := bind_eq_ok_iff.1 h
          obtain ⟨members, hmembers, h⟩ := bind_eq_ok_iff.1 h
          exact .aggregate hdef hread haggregate hmembers h houtput
        · rename_i haggregate hbin
          obtain ⟨output, houtput, h⟩ := bind_eq_ok_iff.1 h
          obtain ⟨members, hmembers, h⟩ := bind_eq_ok_iff.1 h
          exact .bin hdef hread haggregate hbin hmembers h houtput
        · rename_i haggregate hbin hunit
          obtain ⟨output, houtput, h⟩ := bind_eq_ok_iff.1 h
          obtain ⟨members, hmembers, h⟩ := bind_eq_ok_iff.1 h
          exact .timeUnit hdef hread haggregate hbin hunit hmembers h houtput
        · rename_i haggregate hbin hunit
          obtain rfl := Except.ok.inj h
          exact .plain hdef hread haggregate hbin hunit
  · rename_i hdef
    obtain rfl := Except.ok.inj hfound
    obtain rfl := Except.ok.inj h
    exact .other (by simpa using hdef)

end Lifted

namespace Extraction

/-- Is a column among what an encoding contributes? -/
def Serves (e : Extraction) (name : String) : Prop :=
  name ∈ e.groupby ∨ (∃ m ∈ e.measures, m.Provides name) ∨ ∃ b ∈ e.bins, name = b.output ++ "_end"

/-- Every definition of the encoding reads a column that it contributes. -/
def Served (e : Extraction) : Prop :=
  ∀ d ∈ Encoding.definitions e.encoding, ∀ name, ChannelDef.fieldName? d.2 = some name →
    name ≠ "" → e.Serves name

theorem mem_addColumns_iff {columns added : List String} {name : String} :
    name ∈ addColumns columns added ↔ name ∈ columns ∨ name ∈ added := by
  rw [addColumns]
  induction added generalizing columns with
  | nil => simp
  | cons c rest ih =>
      rw [List.foldl_cons, ih, List.mem_cons]
      split
      · rename_i hc
        have hmem : c ∈ columns := by simpa using hc
        constructor
        · exact fun h ↦ h.imp_right .inr
        · rintro (h | rfl | h)
          exacts [.inl h, .inl hmem, .inr h]
      · rw [List.mem_append, List.mem_singleton, or_assoc]

variable {e e' : Extraction} {channel countTitle name : String} {l : Lifted} {v : Value}

theorem serves_add_iff : (e.add channel l).Serves name ↔ e.Serves name ∨ l.Serves name := by
  simp only [Serves, Lifted.Serves, add, mem_addColumns_iff, List.mem_append]
  constructor
  · rintro ((h | h) | ⟨m, h | h, hm⟩ | ⟨b, h | h, hb⟩)
    exacts [.inl (.inl h), .inr (.inl h), .inl (.inr (.inl ⟨m, h, hm⟩)),
      .inr (.inr (.inl ⟨m, h, hm⟩)), .inl (.inr (.inr ⟨b, h, hb⟩)),
      .inr (.inr (.inr ⟨b, h, hb⟩))]
  · rintro ((h | ⟨m, h, hm⟩ | ⟨b, h, hb⟩) | (h | ⟨m, h, hm⟩ | ⟨b, h, hb⟩))
    exacts [.inl (.inl h), .inr (.inl ⟨m, .inl h, hm⟩), .inr (.inr ⟨b, .inl h, hb⟩),
      .inl (.inr h), .inr (.inl ⟨m, .inr h, hm⟩), .inr (.inr ⟨b, .inr h, hb⟩)]

theorem serves_foldl_add_iff {lifted : List Lifted} :
    (lifted.foldl (fun e l ↦ e.add channel l) e).Serves name ↔
      e.Serves name ∨ ∃ l ∈ lifted, l.Serves name := by
  induction lifted generalizing e with
  | nil => simp
  | cons l rest ih => simp [ih, serves_add_iff, or_assoc]

theorem mem_definitions_iff {encoding : Encoding} {d : String × Value} :
    d ∈ encoding.definitions ↔ ∃ v, (d.1, v) ∈ encoding ∧ d.2 ∈ v.itemsOrSelf := by
  rw [Encoding.definitions, List.mem_flatMap]
  constructor
  · rintro ⟨⟨c, v⟩, hm, hd⟩
    obtain ⟨w, hw, rfl⟩ := List.mem_map.1 hd
    exact ⟨v, hm, hw⟩
  · rintro ⟨v, hm, hd⟩
    exact ⟨(d.1, v), hm, List.mem_map.2 ⟨d.2, hd, rfl⟩⟩

theorem mem_definitions_put {encoding : Encoding} {d : String × Value}
    (h : d ∈ Encoding.definitions (encoding.put channel v)) :
    d.1 = channel ∧ d.2 ∈ v.itemsOrSelf ∨ d ∈ encoding.definitions := by
  obtain ⟨w, hw, hd⟩ := mem_definitions_iff.1 h
  obtain hw | hw := Record.mem_of_mem_put hw
  · obtain ⟨hchannel, rfl⟩ := Prod.mk.inj hw
    exact .inl ⟨hchannel, hd⟩
  · exact .inr (mem_definitions_iff.2 ⟨w, hw, hd⟩)

theorem served_add (he : e.Served) (hl : l.Replaces v) : (e.add channel l).Served := by
  intro d hd name hname hne
  rw [serves_add_iff]
  rw [add] at hd
  cases hsecondary : l.secondary with
  | none =>
      rw [hsecondary] at hd
      exact .inl (he d hd name hname hne)
  | some w =>
      rw [hsecondary] at hd
      obtain ⟨-, hd⟩ | hd := mem_definitions_put hd
      · exact .inr (hl.secondary w hsecondary _ hd name hname)
      · exact .inl (he d hd name hname hne)

theorem served_foldl_add {lifted : List Lifted} (he : e.Served)
    (hl : ∀ l ∈ lifted, ∃ v, l.Replaces v) :
    (lifted.foldl (fun e l ↦ e.add channel l) e).Served := by
  induction lifted generalizing e with
  | nil => exact he
  | cons l rest ih =>
      obtain ⟨v, hv⟩ := hl l List.mem_cons_self
      exact ih (served_add he hv) fun l hmem ↦ hl l (List.mem_cons_of_mem _ hmem)

theorem served_put (he : e.Served)
    (hv : ∀ w ∈ v.itemsOrSelf, ∀ name, ChannelDef.fieldName? w = some name → name ≠ "" →
      e.Serves name) :
    Served { e with encoding := e.encoding.put channel v } := by
  intro d hd name hname hne
  obtain ⟨-, hd⟩ | hd := mem_definitions_put hd
  · exact hv _ hd name hname hne
  · exact he d hd name hname hne

theorem served_addChannel (he : e.Served) (h : e.addChannel countTitle channel v = .ok e') :
    e'.Served := by
  rw [addChannel.eq_def] at h
  cases v with
  | list items =>
      obtain ⟨lifted, hlifted, h⟩ := bind_eq_ok_iff.1 h
      obtain rfl := Except.ok.inj h
      have hreplaces : ∀ l ∈ lifted, ∃ v, l.Replaces v := by
        intro l hl
        obtain ⟨v, -, hv⟩ := (mem_of_mapM_eq_ok hlifted).1 hl
        exact ⟨v, Lifted.replaces_of_ofDef hv⟩
      refine served_put (served_foldl_add he hreplaces) fun w hw name hname hne ↦ ?_
      obtain ⟨l, hl, rfl⟩ := List.mem_map.1 hw
      obtain ⟨v, hv⟩ := hreplaces l hl
      exact serves_foldl_add_iff.2 (.inr ⟨l, hl, hv.definition name hname hne⟩)
  | null | bool | int | float | text | set | object | fieldDef =>
      obtain ⟨l, hl, h⟩ := bind_eq_ok_iff.1 h
      obtain rfl := Except.ok.inj h
      have hreplaces := Lifted.replaces_of_ofDef hl
      refine served_put (served_add he hreplaces) fun w hw name hname hne ↦ ?_
      rw [hreplaces.itemsOrSelf_definition rfl, List.mem_singleton] at hw
      subst hw
      exact serves_add_iff.2 (.inr (hreplaces.definition name hname hne))

theorem induction_ofEncoding {P : Extraction → Prop} {encoding : Encoding} (hempty : P empty)
    (hadd : ∀ e title channel v e', (channel, v) ∈ encoding → P e →
      e.addChannel title channel v = .ok e' → P e')
    (h : ofEncoding encoding countTitle = .ok e) : P e := by
  have key : ∀ (members : Record Value) (title : String) (start : Extraction),
      (∀ m ∈ members, m ∈ encoding) → P start →
      members.foldlM (fun e m ↦ e.addChannel title m.1 m.2) start = .ok e → P e := by
    intro members title
    induction members with
    | nil =>
        intro start _ hstart h
        exact Except.ok.inj h ▸ hstart
    | cons m rest ih =>
        intro start hmem hstart h
        obtain ⟨hm, hrest⟩ := List.forall_mem_cons.1 hmem
        obtain ⟨next, hnext, h⟩ := bind_eq_ok_iff.1 h
        exact ih next hrest (hadd _ _ _ _ _ hm hstart hnext) h
  exact key encoding _ empty (fun _ hm ↦ hm) hempty h

/-- Every definition of a lifted encoding reads a column that was lifted along with it. -/
theorem served_of_ofEncoding {encoding : Encoding} (h : ofEncoding encoding countTitle = .ok e) :
    e.Served :=
  induction_ofEncoding (fun _ hd ↦ nomatch hd) (fun _ _ _ _ _ _ he ↦ served_addChannel he) h

theorem nodup_keys_add (he : e.encoding.keys.Nodup) :
    (e.add channel l).encoding.keys.Nodup := by
  rw [add]
  cases l.secondary with
  | none => exact he
  | some w => exact Record.nodup_keys_put he

theorem nodup_keys_foldl_add {lifted : List Lifted} (he : e.encoding.keys.Nodup) :
    (lifted.foldl (fun e l ↦ e.add channel l) e).encoding.keys.Nodup := by
  induction lifted generalizing e with
  | nil => exact he
  | cons l rest ih => exact ih (nodup_keys_add he)

theorem nodup_keys_addChannel (he : e.encoding.keys.Nodup)
    (h : e.addChannel countTitle channel v = .ok e') : e'.encoding.keys.Nodup := by
  rw [addChannel.eq_def] at h
  cases v with
  | list items =>
      obtain ⟨lifted, -, h⟩ := bind_eq_ok_iff.1 h
      obtain rfl := Except.ok.inj h
      exact Record.nodup_keys_put (nodup_keys_foldl_add he)
  | null | bool | int | float | text | set | object | fieldDef =>
      obtain ⟨l, -, h⟩ := bind_eq_ok_iff.1 h
      obtain rfl := Except.ok.inj h
      exact Record.nodup_keys_put (nodup_keys_add he)

theorem nodup_keys_of_ofEncoding {encoding : Encoding}
    (h : ofEncoding encoding countTitle = .ok e) : e.encoding.keys.Nodup :=
  induction_ofEncoding List.nodup_nil (fun _ _ _ _ _ _ he ↦ nodup_keys_addChannel he) h

section Channels

variable {P : String → Prop}

theorem channels_put {encoding : Encoding} (h : ∀ m ∈ encoding, P m.1) (hchannel : P channel) :
    ∀ m ∈ encoding.put channel v, P m.1 := by
  intro m hm
  obtain rfl | hm := Record.mem_of_mem_put hm
  · exact hchannel
  · exact h m hm

theorem channels_add (he : ∀ m ∈ e.encoding, P m.1) (hending : P (channel ++ "2")) :
    ∀ m ∈ (e.add channel l).encoding, P m.1 := by
  rw [add]
  cases l.secondary with
  | none => exact he
  | some w => exact channels_put he hending

theorem channels_foldl_add {lifted : List Lifted} (he : ∀ m ∈ e.encoding, P m.1)
    (hending : P (channel ++ "2")) :
    ∀ m ∈ (lifted.foldl (fun e l ↦ e.add channel l) e).encoding, P m.1 := by
  induction lifted generalizing e with
  | nil => exact he
  | cons l rest ih => exact ih (channels_add he hending)

theorem channels_addChannel (he : ∀ m ∈ e.encoding, P m.1) (hchannel : P channel)
    (hending : P (channel ++ "2")) (h : e.addChannel countTitle channel v = .ok e') :
    ∀ m ∈ e'.encoding, P m.1 := by
  rw [addChannel.eq_def] at h
  cases v with
  | list items =>
      obtain ⟨lifted, -, h⟩ := bind_eq_ok_iff.1 h
      obtain rfl := Except.ok.inj h
      exact channels_put (channels_foldl_add he hending) hchannel
  | null | bool | int | float | text | set | object | fieldDef =>
      obtain ⟨l, -, h⟩ := bind_eq_ok_iff.1 h
      obtain rfl := Except.ok.inj h
      exact channels_put (channels_add he hending) hchannel

/-- A lifted encoding has no channels but those of the encoding and the ends of ranges on them. -/
theorem channels_of_ofEncoding {encoding : Encoding} (hP : ∀ m ∈ encoding, P m.1 ∧ P (m.1 ++ "2"))
    (h : ofEncoding encoding countTitle = .ok e) : ∀ m ∈ e.encoding, P m.1 := by
  refine induction_ofEncoding (P := fun e ↦ ∀ m ∈ e.encoding, P m.1) ?_ ?_ h
  · exact fun _ hm ↦ nomatch hm
  · exact fun _ _ _ _ _ hmem he ↦ channels_addChannel he (hP _ hmem).1 (hP _ hmem).2

end Channels

end Extraction

end ChartLowering
