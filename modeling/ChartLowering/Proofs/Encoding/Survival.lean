import ChartLowering.Proofs.Encoding.BinEnds

/-!
# Columns that survive an aggregation

An aggregation leaves the columns that rows are grouped by and those of its measures. The
definitions of a lifted encoding read no others. Only a condition that reads a field of its own, and
the end of a bin, may read a column that nothing groups by.
-/

namespace ChartLowering

open ChannelDef

/-- Is a column left when rows are grouped and measured? -/
def Extraction.Survives (e : Extraction) (name : String) : Prop :=
  name ∈ e.groupby ∨ ∃ m ∈ e.measures, m.Provides name

theorem Extraction.Includes.survives {e : Extraction} {l : Lifted} {name : String}
    (h : e.Includes l) (hname : name ∈ l.groupby ∨ ∃ m ∈ l.measures, m.Provides name) :
    e.Survives name := by
  obtain hname | ⟨m, hm, hprovides⟩ := hname
  · exact .inl (h.groupby hname)
  · exact .inr ⟨m, h.measures hm, hprovides⟩

namespace Lifted

variable {countTitle channel name : String} {v : Value} {l : Lifted}

/-- A definition that is not one of a field stays as it is, and any other stays one of a field. -/
theorem definition_eq_of_not_isFieldDef (h : ofDef countTitle channel v = .ok l)
    (hdef : isFieldDef l.definition = false) : l.definition = v := by
  have habsurd : ∀ (members : Record Value) name, members.value "field" = .text name →
      isFieldDef (.object members) ≠ false := by
    intro members name hname hno
    rw [isFieldDef_of_value_field hname] at hno
    cases hno
  cases arises_of_ofDef h with
  | other | plain => rfl
  | aggregate _ _ _ hmembers h =>
      obtain ⟨m, shown, name, rfl, hname, -⟩ :=
        exists_of_ofAggregate (value_field_of_readDerived hmembers) h
      exact absurd hdef (habsurd shown name hname)
  | bin _ _ _ _ hmembers h =>
      obtain ⟨ending, range, -, rfl⟩ := exists_of_ofBin h
      exact absurd hdef
        (habsurd _ _ (value_field_binned.trans (value_field_of_readDerived hmembers)))
  | timeUnit _ _ _ _ _ hmembers h =>
      obtain ⟨shown, hsame, rfl⟩ := exists_of_ofTimeUnit h
      exact absurd hdef (habsurd shown _ (hsame.trans (value_field_of_readDerived hmembers)))

/-- The column that a definition reads itself is one that it groups by or measures. -/
theorem survives_of_ofDef (h : ofDef countTitle channel v = .ok l)
    (hname : fieldName? l.definition = some name) (hne : name ≠ "") :
    name ∈ l.groupby ∨ ∃ m ∈ l.measures, m.Provides name := by
  cases arises_of_ofDef h with
  | other hdef =>
      rw [fieldName?_eq_none hdef] at hname
      cases hname
  | plain _ hread =>
      obtain rfl := path_eq_of_read hread hname
      rw [if_neg hne]
      exact .inl (List.mem_singleton_self _)
  | aggregate _ _ _ hmembers h =>
      obtain ⟨m, shown, column, rfl, hcolumn, hm⟩ :=
        exists_of_ofAggregate (value_field_of_readDerived hmembers) h
      rw [fieldName?, hcolumn] at hname
      obtain rfl := Option.some.inj hname
      exact .inr ⟨m, List.mem_singleton_self _, hm⟩
  | bin _ _ _ _ hmembers h =>
      obtain ⟨ending, range, -, rfl⟩ := exists_of_ofBin h
      rw [fieldName?, value_field_binned, value_field_of_readDerived hmembers] at hname
      obtain rfl := Option.some.inj hname
      exact .inl List.mem_cons_self
  | timeUnit _ _ _ _ _ hmembers h =>
      obtain ⟨shown, hsame, rfl⟩ := exists_of_ofTimeUnit h
      rw [fieldName?, hsame, value_field_of_readDerived hmembers] at hname
      obtain rfl := Option.some.inj hname
      exact .inl (List.mem_singleton_self _)

end Lifted

namespace ChannelDef

variable {v : Value} {fd : FieldDef} {fds : List FieldDef} {encoding : Encoding}

/-- What is listed for a definition is read from itself, or else from its condition. -/
theorem anyFieldDef?_eq_some_iff : anyFieldDef? v = .ok (some fd) ↔
    isFieldDef v = true ∧ FieldDef.read v = .ok fd ∨
      isFieldDef v = false ∧ conditionalFieldDef? v = .ok (some fd) := by
  rw [anyFieldDef?, fieldDef?]
  cases hdef : isFieldDef v with
  | true =>
      rw [if_pos rfl]
      cases hread : FieldDef.read v with
      | error fault => simp [bind, Except.bind, Functor.map, Except.map]
      | ok found =>
          simp [bind, Except.bind, Functor.map, Except.map, pure, Except.pure]
  | false =>
      rw [if_neg Bool.false_ne_true, pure_bind]
      simp

theorem mem_fieldDefs_iff (h : fieldDefs encoding = .ok fds) :
    fd ∈ fds ↔ ∃ d ∈ encoding.definitions, anyFieldDef? d.2 = .ok (some fd) := by
  obtain ⟨found, hfound, h⟩ := bind_eq_ok_iff.1 h
  obtain rfl := Except.ok.inj h
  rw [List.mem_filterMap]
  constructor
  · rintro ⟨kept, hkept, rfl⟩
    obtain ⟨v, hv, hread⟩ := (mem_of_mapM_eq_ok hfound).1 hkept
    obtain ⟨m, hm, hv⟩ := List.mem_flatMap.1 hv
    exact ⟨(m.1, v), Extraction.mem_definitions_iff.2 ⟨m.2, hm, hv⟩, hread⟩
  · rintro ⟨d, hd, hread⟩
    obtain ⟨v, hm, hv⟩ := Extraction.mem_definitions_iff.1 hd
    exact ⟨some fd, (mem_of_mapM_eq_ok hfound).2
      ⟨d.2, List.mem_flatMap.2 ⟨_, hm, hv⟩, hread⟩, rfl⟩

/-- A path that is read from a definition is the text of its field. -/
theorem fieldName?_eq_some_of_read (hread : FieldDef.read v = .ok fd) (hpath : fd.path ≠ "") :
    fieldName? v = some fd.path := by
  have key : ∀ members : Record Value, FieldDef.ofMembers members = .ok fd →
      (members.value "field").text? = some fd.path := by
    intro members h
    obtain ⟨-, hfield, -⟩ := FieldDef.ofMembers_eq_ok_iff.1 h
    obtain ⟨-, hnone⟩ | ⟨-, name, hname, hsome⟩ := Value.optional_eq_ok_iff.1 hfield
    · exact absurd (by rw [FieldDef.path, hnone]; rfl) hpath
    · rw [hname, FieldDef.path, hsome]
      rfl
  cases v with
  | object members => exact key members hread
  | fieldDef members => exact key members hread
  | null | bool | int | float | text | list | set => cases hread

end ChannelDef

namespace Extraction

variable {encoding : Encoding} {countTitle : String} {r : Extraction} {fds : List FieldDef}
  {d : String × Value}

/-- The end of a bin is listed as a field of no type. -/
def endFieldDef (name : String) : FieldDef :=
  { field := some name, type := none, aggregate := none, bin := none, timeUnit := none
    title := .null, extras := [] }

theorem anyFieldDef?_end (name : String) :
    anyFieldDef? (.object [("field", .text name)]) = .ok (some (endFieldDef name)) :=
  anyFieldDef?_eq_some_iff.2 (.inl ⟨rfl, rfl⟩)

/-- What a rewritten definition reads itself survives. -/
theorem Rewrites.survives {title channel : String} {v w : Value} {fd : FieldDef}
    (h : r.Rewrites title channel v w) (hread : FieldDef.read w = .ok fd) (hpath : fd.path ≠ "") :
    r.Survives fd.path := by
  obtain ⟨l, hl, rfl, hincludes⟩ := h
  exact hincludes.survives
    (Lifted.survives_of_ofDef hl (fieldName?_eq_some_of_read hread hpath) hpath)

/-- Do the bins of a definition on a position channel start in this column, and is what reads their
end listed for the channel that ends the range? -/
structure ListsEnd (r : Extraction) (d : String × Value) (fd : FieldDef) (start : String) :
    Prop where
  isXOrY : Channel.isXOrY d.1 = true
  found : fieldDef? d.2 = .ok (some fd)
  binned : fd.isBinned = true
  aggregate : Lifted.givenAggregate? fd = none
  output : fd.output = .ok start
  listed : (d.1 ++ "2", .object [("field", .text (start ++ "_end"))]) ∈
    Encoding.definitions r.encoding

theorem exists_listsEnd_of_endOf (h : r.EndOf countTitle encoding d.1 d.2)
    (hd : d ∈ Encoding.definitions r.encoding) :
    ∃ source ∈ encoding.definitions, ∃ fd start, r.ListsEnd source fd start ∧
      d.2 = .object [("field", .text (start ++ "_end"))] := by
  obtain ⟨source, hsource, hchannel, l, hl, hw, -⟩ := h
  obtain ⟨hxy, fd, start, hfound, hbinned, haggregate, houtput, -, hend⟩ :=
    Lifted.exists_fieldDef_of_secondary hl hw
  refine ⟨source, hsource, fd, start, ⟨hxy, hfound, hbinned, haggregate, houtput, ?_⟩, hend⟩
  rw [← hchannel, ← hend]
  exact hd

/-- The end of bins survives if it is named after their start, or if it is brought or measured by
chance. -/
theorem ListsEnd.survives_iff {start : String} (hend : r.ListsEnd d fd start)
    (h : ofEncoding encoding countTitle = .ok r) (hd : d ∈ encoding.definitions) :
    r.Survives (start ++ "_end") ↔ fd.EndsOpen ∨
      (∃ other ∈ encoding.definitions, other ≠ d ∧
        Brings (titleFor countTitle) other (start ++ "_end")) ∨
      ∃ m ∈ r.measures, m.Provides (start ++ "_end") := by
  have hhas := hasEnd_of_ofEncoding h hd hend.isXOrY hend.found hend.binned hend.aggregate
    hend.output
  rw [Survives, hhas.grouped, or_assoc]

/-- The fields that are listed for a lifted encoding survive exactly if two kinds of them do: those
of conditions on definitions without a field of their own, which stay as they are, and the ends of
bins. An end does if the path of its field does not end in a dot or a bracket, or else if another
definition brings a column of that name or measures one. Nothing else can fail to survive. -/
theorem survive_listed_iff (h : ofEncoding encoding countTitle = .ok r)
    (hlisted : fieldDefs r.encoding = .ok fds) :
    (∀ fd ∈ fds, fd.path ≠ "" → r.Survives fd.path) ↔
      (∀ d ∈ encoding.definitions, d ∈ Encoding.definitions r.encoding → isFieldDef d.2 = false →
        ∀ fd, conditionalFieldDef? d.2 = .ok (some fd) → fd.path ≠ "" → r.Survives fd.path) ∧
      ∀ d ∈ encoding.definitions, ∀ fd start, r.ListsEnd d fd start →
        fd.EndsOpen ∨
          (∃ other ∈ encoding.definitions, other ≠ d ∧
            Brings (titleFor countTitle) other (start ++ "_end")) ∨
          ∃ m ∈ r.measures, m.Provides (start ++ "_end") := by
  constructor
  · intro hall
    refine ⟨fun d _ hd hdef fd hcondition hpath ↦ ?_, fun d hd fd start hend ↦ ?_⟩
    · exact hall fd ((mem_fieldDefs_iff hlisted).2
        ⟨d, hd, anyFieldDef?_eq_some_iff.2 (.inr ⟨hdef, hcondition⟩)⟩) hpath
    · refine (hend.survives_iff h hd).1 (hall (endFieldDef (start ++ "_end")) ?_ ?_)
      · exact (mem_fieldDefs_iff hlisted).2 ⟨_, hend.listed, anyFieldDef?_end _⟩
      · intro hempty
        have hempty : start ++ "_end" = "" := hempty
        simpa using congrArg String.length hempty
  · rintro ⟨hconditions, hends⟩ fd hfd hpath
    obtain ⟨d, hd, hread⟩ := (mem_fieldDefs_iff hlisted).1 hfd
    obtain hend | ⟨v, hv, hrewrites⟩ := origin_of_mem_definitions h hd
    · obtain ⟨source, hsource, own, start, hlists, hw⟩ := exists_listsEnd_of_endOf hend hd
      rw [hw, anyFieldDef?_end] at hread
      obtain rfl := Option.some.inj (Except.ok.inj hread)
      exact (hlists.survives_iff h hsource).2 (hends source hsource own start hlists)
    · obtain ⟨-, hread⟩ | ⟨hdef, hcondition⟩ := anyFieldDef?_eq_some_iff.1 hread
      · exact hrewrites.survives hread hpath
      · obtain ⟨l, hl, hdefinition, -⟩ := hrewrites
        rw [hdefinition] at hdef
        have hsame : d.2 = v :=
          hdefinition.trans (Lifted.definition_eq_of_not_isFieldDef hl hdef)
        have hmem : d ∈ encoding.definitions := by
          rw [← hsame] at hv
          exact hv
        exact hconditions d hmem hd (hdefinition ▸ hdef) fd hcondition hpath

/-- The mean of a field, in a color that depends on another field. -/
def highlightedMean : Encoding :=
  [("y", .object [("field", .text "v"), ("type", .text "quantitative"),
      ("aggregate", .text "mean")]),
   ("color", .object [("value", .text "red"),
      ("condition", .object [("test", .text "datum.g == 1"), ("field", .text "g"),
        ("type", .text "nominal")])])]

/-- The same for each value of the other field and each bin of a third one. -/
def groupedMeans : Encoding :=
  ("x", .object [("field", .text "b"), ("type", .text "quantitative"), ("bin", .bool true)]) ::
    ("detail", .object [("field", .text "g"), ("type", .text "nominal")]) :: highlightedMean

theorem survive_listed_iff_groupedMeans : ∃ r fds, ofEncoding groupedMeans "" = .ok r ∧
    fieldDefs r.encoding = .ok fds ∧
    fds.map FieldDef.path = ["bin_b_end", "bin_b", "g", "mean_v", "g"] ∧
    ∀ fd ∈ fds, fd.path ≠ "" → r.Survives fd.path := by
  have hrun : (do
      let r ← ofEncoding groupedMeans ""
      let fds ← fieldDefs r.encoding
      pure (r.groupby, fds.map FieldDef.path)) =
      .ok (["bin_b", "bin_b_end", "g"], ["bin_b_end", "bin_b", "g", "mean_v", "g"]) := by
    decide +kernel
  obtain ⟨r, hr, hrun⟩ := bind_eq_ok_iff.1 hrun
  obtain ⟨fds, hfds, hrun⟩ := bind_eq_ok_iff.1 hrun
  obtain ⟨hgroupby, hpaths⟩ := Prod.mk.inj (Except.ok.inj hrun)
  have hconditions : ∀ d ∈ Encoding.definitions groupedMeans, isFieldDef d.2 = false →
      Option.map FieldDef.path <$> conditionalFieldDef? d.2 = .ok (some "g") := by
    decide +kernel
  have hopen : ∀ d ∈ Encoding.definitions groupedMeans,
      Option.map (fun fd ↦ fd.isBinned && !FieldPath.endsOpen fd.path.toList) <$> fieldDef? d.2 ≠
        .ok (some true) := by
    decide +kernel
  refine ⟨r, fds, hr, hfds, hpaths, (survive_listed_iff hr hfds).2 ⟨?_, ?_⟩⟩
  · intro d hd _ hdef fd hcondition _
    have hpath := hconditions d hd hdef
    rw [hcondition] at hpath
    obtain hpath : fd.path = "g" := Option.some.inj (Except.ok.inj hpath)
    rw [hpath, Survives, hgroupby]
    exact .inl (by decide)
  · intro d hd fd start hend
    have hfd := hopen d hd
    rw [hend.found] at hfd
    refine .inl (.inr (Bool.of_not_eq_false fun hclosed ↦ hfd ?_))
    show Except.ok (some (fd.isBinned && _)) = _
    rw [hend.binned, hclosed]
    rfl

/-- A condition alone does not group the rows by the field that it reads. -/
theorem not_survive_listed_highlightedMean : ∃ r fds,
    (Encoding.normalize (.object highlightedMean)).outcome = .ok highlightedMean ∧
    ofEncoding highlightedMean "" = .ok r ∧ fieldDefs r.encoding = .ok fds ∧
    ∃ fd ∈ fds, fd.path ≠ "" ∧ ¬r.Survives fd.path := by
  have hrun : (do
      let r ← ofEncoding highlightedMean ""
      let fds ← fieldDefs r.encoding
      pure (r.groupby, r.measures, fds.map FieldDef.path)) =
      .ok ([], [⟨"mean", some (.text "v"), "mean_v"⟩], ["mean_v", "g"]) := by
    decide +kernel
  obtain ⟨r, hr, hrun⟩ := bind_eq_ok_iff.1 hrun
  obtain ⟨fds, hfds, hrun⟩ := bind_eq_ok_iff.1 hrun
  obtain ⟨hgroupby, hmeasures, hpaths⟩ : r.groupby = [] ∧
      r.measures = [⟨"mean", some (.text "v"), "mean_v"⟩] ∧
      fds.map FieldDef.path = ["mean_v", "g"] := by
    simpa using Except.ok.inj hrun
  have hlisted : "g" ∈ fds.map FieldDef.path := by
    rw [hpaths]
    decide
  obtain ⟨fd, hfd, hpath⟩ := List.mem_map.1 hlisted
  refine ⟨r, fds, by decide +kernel, hr, hfds, fd, hfd, ?_⟩
  rw [hpath, Survives, hgroupby, hmeasures]
  refine ⟨by decide, ?_⟩
  simp [Measure.Provides]

end Extraction

end ChartLowering
