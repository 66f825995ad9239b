import ChartLowering.Proofs.InvalidData.Demands

/-!
# Which columns a filter tests

The filter of a model tests the columns of the guards that are left in the end. A definition that
asks for a guard can lose it to a later one of the same field, which need not read the same column.
-/

namespace ChartLowering

def FieldDef.isTemporal (fd : FieldDef) : Bool := fd.type == some .temporal

namespace Guards

/-- The test of a column, with dates let through if it holds times. -/
def passing (temporal : Bool) (ref : String) : String :=
  if temporal then "(isDate(" ++ ref ++ ") || (" ++ Expression.isFinite ref ++ "))"
  else Expression.isFinite ref

theorem toList_isFinite (ref : String) :
    (Expression.isFinite ref).toList =
      "isValid(".toList ++ ref.toList ++ (") && isFinite(+".toList ++ ref.toList ++ [')']) := by
  simp [Expression.isFinite]

theorem isFinite_inj {ref other : String} :
    Expression.isFinite ref = Expression.isFinite other ↔ ref = other := by
  refine ⟨fun h ↦ ?_, fun h ↦ h ▸ rfl⟩
  have hchars := congrArg String.toList h
  have hlength := congrArg List.length hchars
  simp only [toList_isFinite, List.append_assoc, List.length_append] at hchars hlength
  have hsize : ref.toList.length = other.toList.length := by omega
  exact String.toList_injective (List.append_inj_left (List.append_cancel_left hchars) hsize)

theorem passing_inj {temporal late : Bool} {ref other : String} :
    passing temporal ref = passing late other ↔ temporal = late ∧ ref = other := by
  -- The first character tells whether dates are let through.
  have hfirst (b : Bool) (r : String) :
      (passing b r).toList.head? = some (if b then '(' else 'i') := by
    cases b <;> simp [passing, Expression.isFinite]
  constructor
  · intro h
    have hchar := congrArg (fun s : String ↦ s.toList.head?) h
    simp only [hfirst, Option.some.injEq] at hchar
    have htemporal : temporal = late := by cases temporal <;> cases late <;> simp_all
    subst htemporal
    refine ⟨rfl, ?_⟩
    cases temporal with
    | false => exact isFinite_inj.1 (by simpa [passing] using h)
    | true =>
        have hchars := congrArg String.toList h
        have hlength := congrArg List.length hchars
        simp only [passing, if_true, String.toList_append, toList_isFinite, List.append_assoc,
          List.length_append] at hchars hlength
        have hsize : ref.toList.length = other.toList.length := by omega
        exact String.toList_injective
          (List.append_inj_left (List.append_cancel_left hchars) hsize)
  · rintro ⟨rfl, rfl⟩
    rfl

theorem outcome_test_eq_ok_iff {fd : FieldDef} {text : String} :
    (test fd).outcome = .ok text ↔
      (fd.type = some .temporal ∨ fd.type = some .quantitative) ∧
        ∃ ref, fd.datum = .ok ref ∧ text = passing fd.isTemporal ref := by
  rw [test, Report.outcome_bind, Report.outcome_lift]
  cases hdatum : fd.datum with
  | error fault => simp [Except.bind]
  | ok ref =>
      rw [FieldDef.isTemporal]
      rcases fd.type with _ | type
      · simp [Except.bind]
      · cases type with
        | nominal => simp [Except.bind]
        | ordinal => simp [Except.bind]
        | quantitative =>
            simp only [Except.bind, Except.ok.injEq, exists_eq_left']
            exact ⟨fun h ↦ ⟨.inr trivial, (Except.ok.inj h).symm⟩, fun h ↦ congrArg _ h.2.symm⟩
        | temporal =>
            simp only [Except.bind, Except.ok.injEq, exists_eq_left']
            exact ⟨fun h ↦ ⟨.inl trivial, (Except.ok.inj h).symm⟩, fun h ↦ congrArg _ h.2.symm⟩

/-- The filter of rows that pass all of some tests. -/
def conjunction (tests : List String) : Value :=
  .object [("type", .text "filter"), ("expr", .text (" && ".intercalate tests))]

theorem outcome_filter?_eq_some_iff {guards : Guards} {filter : Value} :
    guards.filter?.outcome = .ok (some filter) ↔
      ∃ tests, guards.tests.outcome = .ok tests ∧ tests ≠ [] ∧ filter = conjunction tests := by
  rw [filter?, Report.outcome_bind]
  cases guards.tests.outcome with
  | error fault => simp [Except.bind]
  | ok tests =>
      cases tests with
      | nil => simp [Except.bind]
      | cons test rest => simp [Except.bind, conjunction, eq_comm]

/-- A model gets guards, and their filter, if there is one, tests the column that a definition
reads. -/
def Covers (m : UnitModel) (sources : DataSources) (fd : FieldDef) : Prop :=
  ∃ guards, (ofModel m sources).outcome = .ok guards ∧ guards ≠ [] ∧
    ∀ filter, guards.filter?.outcome = .ok (some filter) →
      ∃ tests ref, guards.tests.outcome = .ok tests ∧ filter = conjunction tests ∧
        fd.datum = .ok ref ∧ passing fd.isTemporal ref ∈ tests

/-- Two definitions are tested alike. -/
def Alike (fd other : FieldDef) : Prop :=
  fd.isTemporal = other.isTemporal ∧ ∃ ref, fd.datum = .ok ref ∧ other.datum = .ok ref

theorem mem_tests_iff {guards : Guards} {tests : List String}
    (h : guards.tests.outcome = .ok tests) {text : String} :
    text ∈ tests ↔ ∃ g ∈ guards, (test g.2).outcome = .ok text := by
  rw [Guards.tests, Report.outcome_mapM] at h
  exact mem_of_mapM_eq_ok h

theorem exists_test {guards : Guards} {tests : List String}
    (h : guards.tests.outcome = .ok tests) {g : Option String × FieldDef} (hg : g ∈ guards) :
    ∃ text ∈ tests, (test g.2).outcome = .ok text := by
  rw [Guards.tests, Report.outcome_mapM] at h
  exact exists_of_mapM_eq_ok h hg

theorem outcome_tests_eq_error_iff {demands : List FieldDef} :
    (∃ fault, (ofDemands demands).tests.outcome = .error fault) ↔
      ∃ fd, Lasts demands fd ∧ ∃ fault, (test fd).outcome = .error fault := by
  constructor
  · rintro ⟨fault, h⟩
    rw [Guards.tests, Report.outcome_mapM] at h
    obtain ⟨⟨field, fd⟩, hmem, htest⟩ := exists_error_of_mapM h
    exact ⟨fd, (mem_ofDemands_iff.1 hmem).2, fault, htest⟩
  · rintro ⟨fd, hlasts, fault, htest⟩
    cases h : (ofDemands demands).tests.outcome with
    | error other => exact ⟨other, rfl⟩
    | ok tests =>
        have hguard : (fd.field, fd) ∈ ofDemands demands := mem_ofDemands_iff.2 ⟨rfl, hlasts⟩
        obtain ⟨text, -, htext⟩ := exists_test h hguard
        rw [htest] at htext
        cases htext

theorem ofDemands_ne_nil {demands : List FieldDef} {fd : FieldDef} (h : fd ∈ demands) :
    ofDemands demands ≠ [] := by
  obtain ⟨before, last, rfl⟩ :=
    (List.eq_nil_or_concat' demands).resolve_left (List.ne_nil_of_mem h)
  intro hnil
  have hmem : (last.field, last) ∈ ofDemands (before ++ [last]) :=
    mem_ofDemands_iff.2 ⟨rfl, lasts_concat_iff.2 (.inl rfl)⟩
  rw [hnil] at hmem
  cases hmem

/-- A definition that asks for a guard is covered exactly if all that is asked for can be had, and
then either no filter can be written or the last definition of some field is tested alike. -/
theorem covers_iff {m : UnitModel} {sources : DataSources} {fd : FieldDef}
    (hsources : sources.includesAll = false) (hasks : m.Asks fd) :
    Covers m sources fd ↔ ∃ demands, m.demands = .ok demands ∧
      ((∃ g, Lasts demands g ∧ ∃ fault, (test g).outcome = .error fault) ∨
        ∃ g, Lasts demands g ∧ Alike g fd) := by
  unfold Covers
  rw [outcome_ofModel m hsources]
  constructor
  · rintro ⟨guards, hguards, hne, hfilter⟩
    cases hdemands : m.demands with
    | error fault => simp [hdemands, Functor.map, Except.map] at hguards
    | ok demands =>
        obtain rfl : ofDemands demands = guards := by
          simpa [hdemands, Functor.map, Except.map] using hguards
        refine ⟨demands, rfl, ?_⟩
        cases htests : (ofDemands demands).tests.outcome with
        | error fault => exact .inl (outcome_tests_eq_error_iff.1 ⟨fault, htests⟩)
        | ok tests =>
            right
            have hnonempty : tests ≠ [] := by
              rintro rfl
              obtain ⟨g, hg⟩ := List.exists_mem_of_ne_nil _ hne
              obtain ⟨_, htext, -⟩ := exists_test htests hg
              cases htext
            obtain ⟨_, ref, hagain, -, hdatum, hmem⟩ := hfilter _
              (outcome_filter?_eq_some_iff.2 ⟨tests, htests, hnonempty, rfl⟩)
            obtain rfl := Except.ok.inj (htests.symm.trans hagain)
            obtain ⟨g, hguard, htest⟩ := (mem_tests_iff htests).1 hmem
            obtain ⟨-, other, hg, htext⟩ := outcome_test_eq_ok_iff.1 htest
            obtain ⟨htemporal, rfl⟩ := passing_inj.1 htext
            exact ⟨g.2, (mem_ofDemands_iff.1 hguard).2, htemporal.symm, ref, hg, hdatum⟩
  · rintro ⟨demands, hdemands, h⟩
    refine ⟨ofDemands demands, by rw [hdemands]; rfl,
      ofDemands_ne_nil ((m.mem_demands_iff hdemands).2 hasks), ?_⟩
    intro filter hfilter
    obtain ⟨tests, htests, -, rfl⟩ := outcome_filter?_eq_some_iff.1 hfilter
    obtain hfails | ⟨g, hlasts, htemporal, ref, hg, hfd⟩ := h
    · obtain ⟨fault, hfault⟩ := outcome_tests_eq_error_iff.2 hfails
      rw [htests] at hfault
      cases hfault
    · refine ⟨tests, ref, htests, rfl, hfd, ?_⟩
      have hguard : (g.field, g) ∈ ofDemands demands := mem_ofDemands_iff.2 ⟨rfl, hlasts⟩
      obtain ⟨text, hmem, htest⟩ := exists_test htests hguard
      obtain ⟨-, other, hother, rfl⟩ := outcome_test_eq_ok_iff.1 htest
      obtain rfl := Except.ok.inj (hg.symm.trans hother)
      exact htemporal ▸ hmem

/-- A unit that shows a field and its mean, the field first. -/
def rawThenMean : UnitModel where
  name := ""
  settings := {}
  mark := [("type", .text "point")]
  encoding :=
    [("x", .object [("field", .text "a"), ("type", .text "quantitative")]),
     ("y", .object [("aggregate", .text "mean"), ("field", .text "a"),
       ("type", .text "quantitative")])]
  scales := [("x", ⟨"x", .text "linear", true, none⟩), ("y", ⟨"y", .text "linear", true, none⟩)]

/-- The field as it is and its mean. -/
def rawField : FieldDef := ⟨some "a", some .quantitative, none, none, none, .null, []⟩

def meanField : FieldDef :=
  ⟨some "a", some .quantitative, some (.named "mean"), none, none, .null, []⟩

theorem asks_rawField : rawThenMean.Asks rawField :=
  ⟨"x", _, _, .filter, List.mem_cons_self, by decide +kernel, by decide, rfl, by decide +kernel,
    rfl⟩

theorem covers_iff_rawField :
    DataSources.includesAll ⟨.exclude, .exclude⟩ = false ∧ rawThenMean.Asks rawField ∧
      (Covers rawThenMean ⟨.exclude, .exclude⟩ rawField ↔
        ∃ demands, rawThenMean.demands = .ok demands ∧
          ((∃ g, Lasts demands g ∧ ∃ fault, (test g).outcome = .error fault) ∨
            ∃ g, Lasts demands g ∧ Alike g rawField)) :=
  ⟨rfl, asks_rawField, covers_iff rfl asks_rawField⟩

theorem ofModel_rawThenMean :
    (ofModel rawThenMean ⟨.exclude, .exclude⟩).outcome = .ok [(some "a", meanField)] := by
  decide +kernel

/-- The mean takes over the guard of the field, and the column of the field goes untested. -/
theorem not_covers_rawField :
    (UnitModel.ofSpec [("mark", .text "point"),
        ("encoding", .object [("x", .text "a:Q"), ("y", .text "mean(a):Q")])]).outcome =
      .ok rawThenMean ∧
    rawThenMean.Asks rawField ∧ ¬ Covers rawThenMean ⟨.exclude, .exclude⟩ rawField := by
  refine ⟨by decide +kernel, asks_rawField, ?_⟩
  rintro ⟨guards, hguards, -, hfilter⟩
  obtain rfl := Except.ok.inj (ofModel_rawThenMean.symm.trans hguards)
  have htests : (Guards.tests [(some "a", meanField)]).outcome =
      .ok [passing false "datum[\"mean_a\"]"] := by decide +kernel
  obtain ⟨tests, ref, hagain, -, hdatum, hmem⟩ := hfilter (conjunction _)
    (outcome_filter?_eq_some_iff.2 ⟨_, htests, by simp, rfl⟩)
  have hraw : rawField.datum = .ok "datum[\"a\"]" := by decide +kernel
  obtain rfl := Except.ok.inj (hraw.symm.trans hdatum)
  obtain rfl := Except.ok.inj (htests.symm.trans hagain)
  rw [List.mem_singleton] at hmem
  exact absurd (passing_inj.1 hmem).2 (by decide)

end Guards

end ChartLowering
