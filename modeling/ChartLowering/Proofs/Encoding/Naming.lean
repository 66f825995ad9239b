import ChartLowering.Proofs.Encoding.Contributions
import ChartLowering.Proofs.FieldPath.Beginning
import ChartLowering.Proofs.Json.Canonical

/-!
# Names of derived columns

The column of a bin or of a time unit is named by words for what is done and by the field that it is
done to. Parameters come into the words as far as letters tell them, those of a time unit not at
all. So two transforms can come to write one column.
-/

namespace ChartLowering

open FieldPath

/-- A transform whose columns rows are grouped by. -/
inductive Grouping where
  | bin (b : BinTransform)
  | timeUnit (t : TimeUnitTransform)
  deriving DecidableEq

namespace Grouping

def output : Grouping → String
  | bin b => b.output
  | timeUnit t => t.output

def field : Grouping → Option String
  | bin b => b.field
  | timeUnit t => t.field

def toValue : Grouping → Value
  | bin b => b.toValue
  | timeUnit t => t.toValue

/-- What is done to the field, as part of a name. -/
def name : Grouping → Value
  | bin b => Value.ofOption ((Binning.ofValue? b.bin).map fun bin ↦ .text bin.name)
  | timeUnit t => t.unit.unitName

/-- The words for what is done to the field. -/
def words (s : Grouping) : String := s.name.shown

def path (s : Grouping) : String := s.field.getD ""

/-- Is there a name of words that mean nothing in a path? -/
structure IsNamed (s : Grouping) : Prop where
  truthy : s.name.truthy = true
  unmarked : Unmarked s.words
  ne_empty : s.words ≠ ""

/-- Are two transforms the same but for the order of parameters? -/
def Alike (s t : Grouping) : Prop := s.toValue.sorted = t.toValue.sorted

/-- What is left of the words before what the field adds to a name. -/
def start (s : Grouping) : String :=
  if s.path = "" then s.words else beginning (s.words ++ "_") s.path

/-- What the field adds to a name. -/
def rest (s : Grouping) : String :=
  if s.path = "" then "" else (continuation? s.path).getD ""

/-- Do the words of the second transform go on with something that the field of the first one adds,
so that both names are the same? -/
def RunsInto (s t : Grouping) : Prop :=
  ∃ between, t.start = s.start ++ between ∧ s.rest = between ++ t.rest

/-- A transform whose name is made of its words and its field. -/
structure Composed (s : Grouping) : Prop where
  named : s.IsNamed
  flatten : FieldPath.flatten (FieldDef.derived s.name s.path) = .ok s.output

variable {s t : Grouping}

theorem Composed.output_eq (h : s.Composed) : s.output = s.start ++ s.rest := by
  have hname := h.flatten
  rw [FieldDef.derived, h.named.truthy] at hname
  rw [start, rest]
  by_cases hpath : s.path = ""
  · simp only [hpath, Bool.not_true, Bool.false_eq_true, if_false, if_true] at hname
    have hwords := flatten_of_unmarked h.named.unmarked
    rw [if_pos hpath, if_pos hpath, String.append_empty]
    exact Except.ok.inj (hname.symm.trans hwords)
  · simp only [hpath, Bool.not_true, Bool.false_eq_true, if_false] at hname
    have hbegins : Unmarked (s.words ++ "_") := .append h.named.unmarked (by decide)
    have hne : s.words ++ "_" ≠ "" := by
      rw [Ne, String.append_eq_empty_iff]
      exact fun hempty ↦ h.named.ne_empty hempty.1
    obtain ⟨rest, hrest, hout⟩ := (flatten_append_eq_ok_iff hbegins hne).1 hname
    rw [if_neg hpath, if_neg hpath, hrest]
    exact hout

/-- A name is never that of the field itself. -/
theorem Composed.field_ne (h : s.Composed) : s.field ≠ some s.output := by
  intro hfield
  have hpath : s.path = s.output := by
    rw [path, hfield]
    rfl
  have hname := h.flatten
  rw [FieldDef.derived, h.named.truthy, hpath] at hname
  by_cases hempty : s.output = ""
  · have hwords := flatten_of_unmarked h.named.unmarked
    simp only [hempty, Bool.not_true, Bool.false_eq_true, if_false, if_true] at hname
    exact h.named.ne_empty (Except.ok.inj (hwords.symm.trans hname))
  · simp only [hempty, Bool.not_true, Bool.false_eq_true, if_false] at hname
    have hbegins : Unmarked (s.words ++ "_") := .append h.named.unmarked (by decide)
    refine flatten_append_ne_self hbegins ?_ s.output hname
    rw [Ne, String.append_eq_empty_iff]
    exact fun hempty ↦ h.named.ne_empty hempty.1

/-- On one field, two names are the same just if their words are, or if the words are dropped. -/
theorem Composed.output_eq_iff_words (hs : s.Composed) (ht : t.Composed) (hpath : s.path = t.path) :
    s.output = t.output ↔ s.words = t.words ∨ opensQuote s.path.toList = true := by
  have hrest : s.rest = t.rest := by
    rw [rest, rest, hpath]
  rw [hs.output_eq, ht.output_eq, hrest, String.append_left_inj, start, start, ← hpath]
  by_cases hempty : s.path = ""
  · simp [hempty, opensQuote]
  · rw [if_neg hempty, if_neg hempty, beginning, beginning]
    split
    · rename_i hopens
      exact iff_of_true rfl (.inr hopens)
    · rename_i hopens
      rw [or_iff_left hopens, String.append_left_inj]

theorem runsInto_iff : s.RunsInto t ↔ ∃ between : List Char,
    t.start.toList = s.start.toList ++ between ∧ s.rest.toList = between ++ t.rest.toList := by
  constructor
  · rintro ⟨between, hstart, hrest⟩
    exact ⟨between.toList, by simp [hstart], by simp [hrest]⟩
  · rintro ⟨between, hstart, hrest⟩
    refine ⟨String.ofList between, ?_, ?_⟩
    · simp [← String.toList_inj, hstart]
    · simp [← String.toList_inj, hrest]

/-- Whether the words go on so can be seen from the names as a whole. -/
theorem runsInto_iff_prefix : s.RunsInto t ↔ s.start.toList <+: t.start.toList ∧
    s.start.toList ++ s.rest.toList = t.start.toList ++ t.rest.toList := by
  rw [runsInto_iff]
  constructor
  · rintro ⟨between, hstart, hrest⟩
    exact ⟨⟨between, hstart.symm⟩, by rw [hstart, hrest, List.append_assoc]⟩
  · rintro ⟨⟨between, hstart⟩, hsame⟩
    rw [← hstart, List.append_assoc, List.append_cancel_left_eq] at hsame
    exact ⟨between, hstart.symm, hsame⟩

instance : Decidable (s.RunsInto t) := decidable_of_iff _ runsInto_iff_prefix.symm

theorem Composed.output_eq_iff_runsInto (hs : s.Composed) (ht : t.Composed) :
    s.output = t.output ↔ s.RunsInto t ∨ t.RunsInto s := by
  rw [hs.output_eq, ht.output_eq, runsInto_iff, runsInto_iff, ← String.toList_inj,
    String.toList_append, String.toList_append]
  exact List.append_eq_append_iff

/-- Objects that are the same but for the order of members have the same members. -/
theorem exists_mem_of_sorted_eq {r r' : Record Value}
    (h : (Value.object r).sorted = (Value.object r').sorted) {key : String} {v : Value}
    (hv : (key, v) ∈ r) : ∃ w, (key, w) ∈ r' ∧ v.sorted = w.sorted := by
  rw [Value.sorted, Value.sorted] at h
  have hmem : (key, v.sorted) ∈ Value.byName (Value.sortedMembers r) := by
    rw [Value.mem_byName_iff, Value.sortedMembers_eq_map]
    exact List.mem_map_of_mem hv
  rw [Value.object.inj h, Value.mem_byName_iff, Value.sortedMembers_eq_map] at hmem
  obtain ⟨⟨other, w⟩, hw, hsame⟩ := List.mem_map.1 hmem
  obtain ⟨rfl, hsorted⟩ := Prod.mk.inj hsame
  exact ⟨w, hw, hsorted.symm⟩

/-- Transforms that are the same but for the order of parameters have one field. -/
theorem Alike.field_eq (h : s.Alike t) : s.field = t.field := by
  have hmembers : ∀ g : Grouping, ∃ members : Record Value, g.toValue = .object members ∧
      ∀ v, ("field", v) ∈ members ↔ v = Lifted.fieldValue g.field := by
    intro g
    cases g with
    | bin b => exact ⟨_, rfl, fun v ↦ by simp [field]⟩
    | timeUnit t => exact ⟨_, rfl, fun v ↦ by simp [field]⟩
  obtain ⟨members, hs, hfield⟩ := hmembers s
  obtain ⟨others, ht, hother⟩ := hmembers t
  rw [Alike, hs, ht] at h
  obtain ⟨w, hw, hsorted⟩ := exists_mem_of_sorted_eq h ((hfield _).2 rfl)
  rw [(hother w).1 hw] at hsorted
  cases hs : s.field <;> cases ht : t.field <;>
    simp_all [Lifted.fieldValue, Value.ofOption, Value.sorted]

end Grouping

namespace Extraction

variable {r : Extraction} {encoding : Encoding} {countTitle : String} {s t : Grouping}

/-- The bins and the time units of an extraction. -/
def groupings (r : Extraction) : List Grouping :=
  r.bins.map .bin ++ r.timeUnits.map .timeUnit

/-- Does the name of a column tell which transform writes it, and that it is not the field
itself? -/
structure Unambiguous (r : Extraction) : Prop where
  alike : ∀ s ∈ r.groupings, ∀ t ∈ r.groupings, s.output = t.output → s.Alike t
  derived : ∀ s ∈ r.groupings, s.field ≠ some s.output

/-- Has every definition that gives an aggregate by its name given a name? -/
def NamesAggregates (encoding : Encoding) : Prop :=
  ∀ d ∈ encoding.definitions, ∀ fd, FieldDef.read d.2 = .ok fd → fd.aggregate ≠ some (.named "")

theorem isCount_of_givenAggregate? {fd : FieldDef} (h : Lifted.givenAggregate? fd = none) :
    fd.isCount = false := by
  rw [Lifted.givenAggregate?] at h
  rw [FieldDef.isCount, beq_eq_false_iff_ne]
  intro hcount
  rw [hcount] at h
  cases h

/-- Without an aggregate and a bin, the time unit gives a column its name. -/
theorem functionName_of_timeUnit {fd : FieldDef} {unit : Operation}
    (haggregate : Lifted.givenAggregate? fd = none) (hnamed : fd.aggregate ≠ some (.named ""))
    (hbin : fd.bin.filter Binning.asks = none) (hunit : fd.givenTimeUnit? = some unit) :
    fd.functionName = unit.unitName := by
  have hop : ∀ op, fd.aggregate ≠ some (.named op) := by
    intro op hop
    have hempty : op = "" := by
      by_contra hne
      simp [Lifted.givenAggregate?, hop, Operation.toValue, Value.truthy, hne] at haggregate
    exact hnamed (hempty ▸ hop)
  have hasks : ∀ bin, fd.bin = some bin → bin.asks = false := by
    intro bin hsome
    simpa [hsome, Option.filter_eq_none_iff] using hbin
  have hunitName : Value.ofOption (fd.givenTimeUnit?.map Operation.unitName) = unit.unitName := by
    rw [hunit]
    rfl
  rw [FieldDef.functionName, hunitName]
  cases haggregate : fd.aggregate with
  | none =>
      cases hsome : fd.bin with
      | none => rfl
      | some bin => simp [hasks bin hsome]
  | some a =>
      cases a with
      | named op => exact absurd haggregate (hop op)
      | «with» parameters =>
          cases hsome : fd.bin with
          | none => rfl
          | some bin => simp [hasks bin hsome]

theorem functionName_of_bin {fd : FieldDef} {bin : Binning}
    (hbin : fd.bin.filter Binning.asks = some bin) : fd.functionName = .text bin.name := by
  obtain ⟨hsome, hasks⟩ := Option.filter_eq_some_iff.1 hbin
  simp [FieldDef.functionName, hsome, hasks]

theorem isNamed_bin {b : BinTransform} {bin : Binning} (hb : b.bin = bin.toValue) :
    (Grouping.bin b).name = .text bin.name ∧ (Grouping.bin b).IsNamed := by
  have hname : (Grouping.bin b).name = .text bin.name := by
    rw [Grouping.name, hb]
    cases bin <;> rfl
  have hne := bin.name_ne_empty
  refine ⟨hname, ?_, ?_, ?_⟩
  · rw [hname]
    simpa [Value.truthy] using hne
  · rw [Grouping.words, hname]
    exact bin.unmarked_name
  · rw [Grouping.words, hname]
    exact hne

theorem composed_of_mem (h : ofEncoding encoding countTitle = .ok r)
    (haggregates : NamesAggregates encoding)
    (hunits : ∀ t ∈ r.timeUnits, (Grouping.timeUnit t).IsNamed) (hs : s ∈ r.groupings) :
    s.Composed := by
  have hcolumn : ∀ {fd : FieldDef} {output : String}, Lifted.givenAggregate? fd = none →
      fd.output = .ok output → flatten (FieldDef.derived fd.functionName fd.path) = .ok output := by
    intro fd output haggregate houtput
    rw [FieldDef.output, FieldDef.column, isCount_of_givenAggregate? haggregate] at houtput
    exact houtput
  rcases List.mem_append.1 hs with hs | hs
  · obtain ⟨b, hb, rfl⟩ := List.mem_map.1 hs
    obtain ⟨d, -, w, hlifts⟩ := exists_of_mem_bins h hb
    cases hlifts with
    | @bin fd bin output _ _ hread haggregate hbin houtput =>
        obtain ⟨hname, hnamed⟩ :=
          isNamed_bin (b := ⟨bin.toValue, fd.field, output⟩) rfl
        refine ⟨hnamed, ?_⟩
        have hflatten := hcolumn haggregate houtput
        rw [functionName_of_bin hbin, ← hname] at hflatten
        exact hflatten
  · obtain ⟨t, ht, rfl⟩ := List.mem_map.1 hs
    obtain ⟨d, hd, w, hlifts⟩ := exists_of_mem_timeUnits h ht
    cases hlifts with
    | timeUnit _ hread haggregate hbin hunit houtput =>
        refine ⟨hunits _ ht, ?_⟩
        have hflatten := hcolumn haggregate houtput
        rw [functionName_of_timeUnit haggregate (haggregates d hd _ hread) hbin hunit] at hflatten
        exact hflatten

/-- Names are unambiguous just if on one field no two transforms that differ have the same words,
and on different fields the words of none go on with what the field of another one adds. -/
theorem unambiguous_iff (h : ofEncoding encoding countTitle = .ok r)
    (haggregates : NamesAggregates encoding)
    (hunits : ∀ t ∈ r.timeUnits, (Grouping.timeUnit t).IsNamed) :
    r.Unambiguous ↔
      (∀ s ∈ r.groupings, ∀ t ∈ r.groupings, s.path = t.path →
        s.words = t.words ∨ opensQuote s.path.toList = true → s.Alike t) ∧
      ∀ s ∈ r.groupings, ∀ t ∈ r.groupings, s.path ≠ t.path → ¬ s.RunsInto t := by
  have hcomposed : ∀ s ∈ r.groupings, s.Composed := fun s ↦ composed_of_mem h haggregates hunits
  constructor
  · intro hunambiguous
    refine ⟨fun s hs t ht hpath hsame ↦ ?_, fun s hs t ht hpath hruns ↦ hpath ?_⟩
    · apply hunambiguous.alike s hs t ht
      exact ((hcomposed s hs).output_eq_iff_words (hcomposed t ht) hpath).2 hsame
    · have houtput := ((hcomposed s hs).output_eq_iff_runsInto (hcomposed t ht)).2 (.inl hruns)
      rw [Grouping.path, (hunambiguous.alike s hs t ht houtput).field_eq]
      rfl
  · rintro ⟨hsame, hother⟩
    refine ⟨fun s hs t ht houtput ↦ ?_, fun s hs ↦ (hcomposed s hs).field_ne⟩
    by_cases hpath : s.path = t.path
    · apply hsame s hs t ht hpath
      exact ((hcomposed s hs).output_eq_iff_words (hcomposed t ht) hpath).1 houtput
    · exfalso
      rcases ((hcomposed s hs).output_eq_iff_runsInto (hcomposed t ht)).1 houtput with hruns | hruns
      · exact hother s hs t ht hpath hruns
      · exact hother t ht s hs (Ne.symm hpath) hruns

/-- Two fields, each derived in two ways. -/
def twiceTwo : Encoding :=
  [("x", .object [("field", .text "v"), ("type", .text "quantitative"),
      ("bin", .object [("maxbins", .int 10)])]),
   ("size", .object [("field", .text "v"), ("type", .text "quantitative"),
      ("bin", .object [("maxbins", .int 20)])]),
   ("y", .object [("field", .text "date"), ("type", .text "temporal"),
      ("timeUnit", .text "month")]),
   ("color", .object [("field", .text "date"), ("type", .text "temporal"),
      ("timeUnit", .object [("unit", .text "year"), ("utc", .bool true)])])]

def twiceTwoGroupings : List Grouping :=
  [.bin ⟨.object [("maxbins", .int 10)], some "v", "bin_maxbins_10_v"⟩,
   .bin ⟨.object [("maxbins", .int 20)], some "v", "bin_maxbins_20_v"⟩,
   .timeUnit ⟨.named "month", some "date", "month_date"⟩,
   .timeUnit ⟨.with [("unit", .text "year"), ("utc", .bool true)], some "date", "utcyear_date"⟩]

theorem unambiguous_iff_twiceTwo : ∃ r, ofEncoding twiceTwo "" = .ok r ∧
    NamesAggregates twiceTwo ∧ (∀ t ∈ r.timeUnits, (Grouping.timeUnit t).IsNamed) ∧
    r.groupings = twiceTwoGroupings ∧ r.Unambiguous := by
  have hrun : (do
      let r ← ofEncoding twiceTwo ""
      pure r.groupings) = .ok twiceTwoGroupings := by
    decide +kernel
  obtain ⟨r, hr, hrun⟩ := bind_eq_ok_iff.1 hrun
  have hgroupings := Except.ok.inj hrun
  have haggregates : NamesAggregates twiceTwo := by
    have hread : ∀ d ∈ twiceTwo.definitions,
        FieldDef.aggregate <$> FieldDef.read d.2 = .ok none := by
      decide +kernel
    intro d hd fd hfd
    have hnone := hread d hd
    rw [hfd] at hnone
    rw [Except.ok.inj hnone]
    exact nofun
  have hunits : ∀ t ∈ r.timeUnits, (Grouping.timeUnit t).IsNamed := by
    have hnamed : ∀ s ∈ twiceTwoGroupings,
        s.name.truthy = true ∧ Unmarked s.words ∧ s.words ≠ "" := by
      decide +kernel
    intro t ht
    have hmem : Grouping.timeUnit t ∈ r.groupings :=
      List.mem_append_right _ (List.mem_map_of_mem ht)
    obtain ⟨htruthy, hunmarked, hne⟩ := hnamed _ (hgroupings ▸ hmem)
    exact ⟨htruthy, hunmarked, hne⟩
  refine ⟨r, hr, haggregates, hunits, hgroupings,
    (unambiguous_iff hr haggregates hunits).2 ?_⟩
  have hwords : ∀ s ∈ twiceTwoGroupings, ∀ t ∈ twiceTwoGroupings, s.path = t.path →
      s.words = t.words ∨ opensQuote s.path.toList = true → s = t := by
    decide +kernel
  rw [hgroupings]
  refine ⟨fun s hs t ht hpath hsame ↦ ?_, by decide +kernel⟩
  rw [hwords s hs t ht hpath hsame]
  rfl

/-- One date in minutes, by fives and by fifteens. -/
def minutes : Encoding :=
  [("x", .object [("field", .text "date"), ("type", .text "temporal"),
      ("timeUnit", .object [("unit", .text "minutes"), ("step", .int 5)])]),
   ("color", .object [("field", .text "date"), ("type", .text "temporal"),
      ("timeUnit", .object [("unit", .text "minutes"), ("step", .int 15)])])]

/-- The step of a time unit does not come into the name, so that two steps share a column. -/
theorem not_unambiguous_minutes : (Encoding.normalize (.object minutes)).outcome = .ok minutes ∧
    ∃ r, ofEncoding minutes "" = .ok r ∧ ¬ r.Unambiguous := by
  have hrun : (do
      let r ← ofEncoding minutes ""
      pure r.groupings) = .ok
        [.timeUnit ⟨.with [("unit", .text "minutes"), ("step", .int 5)], some "date",
          "minutes_date"⟩,
         .timeUnit ⟨.with [("unit", .text "minutes"), ("step", .int 15)], some "date",
          "minutes_date"⟩] := by
    decide +kernel
  obtain ⟨r, hr, hrun⟩ := bind_eq_ok_iff.1 hrun
  have hgroupings := Except.ok.inj hrun
  refine ⟨by decide +kernel, r, hr, fun hunambiguous ↦ ?_⟩
  have halike := hunambiguous.alike
  rw [hgroupings] at halike
  have hsame := halike _ List.mem_cons_self _ (.tail _ List.mem_cons_self) rfl
  obtain ⟨unit, hunit, hsorted⟩ := Grouping.exists_mem_of_sorted_eq hsame List.mem_cons_self
  obtain rfl : unit = .object [("unit", .text "minutes"), ("step", .int 15)] := by
    simpa [Lifted.fieldValue, Value.ofOption, Operation.toValue] using hunit
  obtain ⟨step, hstep, hsteps⟩ :=
    Grouping.exists_mem_of_sorted_eq hsorted (.tail _ List.mem_cons_self)
  obtain rfl : step = .int 15 := by
    simpa using hstep
  cases hsteps

end Extraction

end ChartLowering
