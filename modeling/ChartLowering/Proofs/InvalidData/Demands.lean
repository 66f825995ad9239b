import ChartLowering.InvalidData.Guards
import ChartLowering.Proofs.Report
import Mathlib.Data.List.Induction

/-!
# The definitions that ask for a guard

A model asks for guards one definition at a time. A guard goes by the field of its definition, so
that a later definition of the same field takes the place of an earlier one.
-/

namespace ChartLowering

/-- The field definition on a channel if its field has to be guarded there. -/
def UnitModel.demand? (m : UnitModel) (channel : String) (fd : FieldDef) :
    Except Fault (Option FieldDef) :=
  match if Channel.isScaled channel then m.scale? channel else none with
  | none => pure none
  | some scale => do
      let mode ← InvalidData.policy m.settings m.mark channel (some scale) (some fd)
      if mode.passes then pure none
      else if fd.type.isSome then pure (some fd)
      else throw (.invariant (.typeMissingInFilter (.text channel) (Lifted.fieldValue fd.field)))

/-- The field definition that a definition is if its field has to be guarded. -/
def UnitModel.asked? (m : UnitModel) (d : String × Value) : Except Fault (Option FieldDef) := do
  match ← ChannelDef.anyFieldDef? d.2 with
  | some fd => m.demand? d.1 fd
  | none => pure none

/-- The definitions of an encoding whose fields have to be guarded, in order. -/
def UnitModel.demands (m : UnitModel) : Except Fault (List FieldDef) := do
  let found ← m.encoding.definitions.mapM m.asked?
  pure (found.filterMap id)

/-- A definition that is visited on a channel with a scale whose policy keeps invalid values out. -/
def UnitModel.Asks (m : UnitModel) (fd : FieldDef) : Prop :=
  ∃ channel v scale mode, (channel, v) ∈ m.encoding.definitions ∧
    ChannelDef.anyFieldDef? v = .ok (some fd) ∧
    Channel.isScaled channel = true ∧ m.scale? channel = some scale ∧
    InvalidData.policy m.settings m.mark channel (some scale) (some fd) = .ok mode ∧
    mode.passes = false

/-- A field is guarded only by a definition with a type, without which asking for it fails. -/
theorem UnitModel.demand?_eq_some_iff {m : UnitModel} {channel : String} {fd other : FieldDef} :
    m.demand? channel fd = .ok (some other) ↔
      other = fd ∧ fd.type.isSome = true ∧ ∃ scale mode, Channel.isScaled channel = true ∧
        m.scale? channel = some scale ∧
        InvalidData.policy m.settings m.mark channel (some scale) (some fd) = .ok mode ∧
        mode.passes = false := by
  unfold demand?
  constructor
  · intro h
    cases hscale : if Channel.isScaled channel then m.scale? channel else none with
    | none =>
        rw [hscale] at h
        cases h
    | some scale =>
        obtain ⟨hscaled, hscale'⟩ := Option.ite_none_right_eq_some.1 hscale
        rw [hscale] at h
        obtain ⟨mode, hpolicy, h⟩ := bind_eq_ok_iff.1 h
        cases hmode : mode.passes with
        | true =>
            rw [hmode, if_pos rfl] at h
            cases h
        | false =>
            rw [hmode, if_neg Bool.false_ne_true] at h
            cases htype : fd.type.isSome with
            | false =>
                rw [htype, if_neg Bool.false_ne_true] at h
                cases h
            | true =>
                rw [htype, if_pos rfl] at h
                obtain rfl := Option.some.inj (Except.ok.inj h)
                exact ⟨rfl, rfl, scale, mode, hscaled, hscale', hpolicy, hmode⟩
  · rintro ⟨rfl, htype, scale, mode, hscaled, hscale, hpolicy, hmode⟩
    simp [hscaled, hscale, hpolicy, hmode, htype, bind, Except.bind, pure, Except.pure]

theorem UnitModel.asked?_eq_some_iff {m : UnitModel} {d : String × Value} {fd : FieldDef} :
    m.asked? d = .ok (some fd) ↔
      ChannelDef.anyFieldDef? d.2 = .ok (some fd) ∧ m.demand? d.1 fd = .ok (some fd) := by
  rw [asked?, bind_eq_ok_iff]
  constructor
  · rintro ⟨found, hfound, h⟩
    cases found with
    | none => cases h
    | some other =>
        obtain rfl := (demand?_eq_some_iff.1 h).1
        exact ⟨hfound, h⟩
  · rintro ⟨hdef, hdemand⟩
    exact ⟨some fd, hdef, hdemand⟩

/-- What is asked for is what the definitions say, each one being visited. -/
theorem UnitModel.mem_demands_iff {m : UnitModel} {demands : List FieldDef}
    (h : m.demands = .ok demands) {fd : FieldDef} : fd ∈ demands ↔ m.Asks fd := by
  obtain ⟨found, hfound, hpure⟩ := bind_eq_ok_iff.1 h
  obtain rfl := Except.ok.inj hpure
  rw [List.mem_filterMap]
  constructor
  · rintro ⟨asked, hmem, rfl⟩
    obtain ⟨d, hd, hasked⟩ := (mem_of_mapM_eq_ok hfound).1 hmem
    obtain ⟨hdef, hdemand⟩ := asked?_eq_some_iff.1 hasked
    obtain ⟨-, -, scale, mode, hrest⟩ := demand?_eq_some_iff.1 hdemand
    exact ⟨d.1, d.2, scale, mode, hd, hdef, hrest⟩
  · rintro ⟨channel, v, scale, mode, hmem, hdef, hscaled, hscale, hpolicy, hmode⟩
    obtain ⟨asked, hasked, hd⟩ := exists_of_mapM_eq_ok hfound hmem
    have hdemand : m.asked? (channel, v) = m.demand? channel fd := by
      rw [asked?, hdef]
      rfl
    rw [hdemand] at hd
    cases htype : fd.type.isSome with
    | true =>
        rw [demand?_eq_some_iff.2 ⟨rfl, htype, scale, mode, hscaled, hscale, hpolicy, hmode⟩] at hd
        exact ⟨asked, hasked, (Except.ok.inj hd).symm⟩
    | false =>
        simp [demand?, hscaled, hscale, hpolicy, hmode, htype, bind, Except.bind] at hd

namespace Guards

/-- The guards that definitions amount to. -/
def ofDemands (demands : List FieldDef) : Guards :=
  demands.foldl (fun guards fd ↦ guards.put fd.field fd) []

/-- A definition that is the last one of its field. -/
def Lasts (demands : List FieldDef) (fd : FieldDef) : Prop :=
  ∃ before after, demands = before ++ fd :: after ∧ ∀ later ∈ after, later.field ≠ fd.field

theorem outcome_visit (m : UnitModel) (guards : Guards) (channel : String) (fd : FieldDef) :
    (visit m guards channel fd).outcome =
      (fun found ↦ found.elim guards fun fd ↦ guards.put fd.field fd) <$> m.demand? channel fd := by
  unfold visit UnitModel.demand?
  cases if Channel.isScaled channel then m.scale? channel else none with
  | none => rfl
  | some scale =>
      simp only [Report.outcome_bind, Report.outcome_lift]
      cases InvalidData.policy m.settings m.mark channel (some scale) (some fd) with
      | error fault => rfl
      | ok mode =>
          cases hpasses : mode.passes with
          | true => simp [bind, Except.bind, hpasses]; rfl
          | false => cases fd.type.isSome <;> simp [bind, Except.bind, hpasses] <;> rfl

/-- What a model guards, or how it fails to, follows from what it asks for. -/
theorem outcome_ofModel (m : UnitModel) {sources : DataSources}
    (hsources : sources.includesAll = false) :
    (ofModel m sources).outcome = ofDemands <$> m.demands := by
  have hstep (guards : Guards) (d : String × Value) :
      (do
        match ← (ChannelDef.anyFieldDef? d.2 : Report (Option FieldDef)) with
        | some fd => visit m guards d.1 fd
        | none => pure guards).outcome =
        (fun found ↦ found.elim guards fun fd ↦ guards.put fd.field fd) <$> m.asked? d := by
    rw [Report.outcome_bind, Report.outcome_lift, UnitModel.asked?]
    cases ChannelDef.anyFieldDef? d.2 with
    | error fault => rfl
    | ok found =>
        cases found with
        | none => rfl
        | some fd => exact outcome_visit m guards d.1 fd
  rw [ofModel, hsources, if_neg Bool.false_ne_true, Encoding.foldFieldDefs,
    Report.outcome_foldlM]
  refine (congrArg
    (fun step : Guards → String × Value → Except Fault Guards ↦
      m.encoding.definitions.foldlM step [])
    (funext fun guards ↦ funext fun d ↦ hstep guards d)).trans ?_
  rw [foldlM_eq_mapM, UnitModel.demands]
  cases m.encoding.definitions.mapM m.asked? <;> rfl

theorem ofDemands_concat (demands : List FieldDef) (fd : FieldDef) :
    ofDemands (demands ++ [fd]) = (ofDemands demands).put fd.field fd := by
  rw [ofDemands, List.foldl_append]
  rfl

theorem fields_put_of_mem {guards : Guards} {field : Option String} (fd : FieldDef)
    (h : field ∈ guards.fields) : (guards.put field fd).fields = guards.fields := by
  induction guards with
  | nil => cases h
  | cons g rest ih =>
      by_cases hg : g.1 = field
      · simp [put, fields, hg]
      · have hrest : field ∈ fields rest := (List.mem_cons.1 h).resolve_left (Ne.symm hg)
        simpa [put, fields, hg] using ih hrest

theorem fields_put_of_notMem {guards : Guards} {field : Option String} (fd : FieldDef)
    (h : field ∉ guards.fields) : (guards.put field fd).fields = guards.fields ++ [field] := by
  induction guards with
  | nil => rfl
  | cons g rest ih =>
      rw [fields, List.map_cons, List.mem_cons, not_or] at h
      simpa [put, fields, Ne.symm h.1] using ih h.2

theorem nodup_fields_ofDemands (demands : List FieldDef) : (ofDemands demands).fields.Nodup := by
  induction demands using List.reverseRecOn with
  | nil => exact List.nodup_nil
  | append_singleton demands fd ih =>
      rw [ofDemands_concat]
      by_cases h : fd.field ∈ (ofDemands demands).fields
      · rw [fields_put_of_mem fd h]
        exact ih
      · rw [fields_put_of_notMem fd h, List.nodup_append]
        refine ⟨ih, by simp, ?_⟩
        intro f hf g hg
        rw [List.mem_singleton.1 hg]
        exact fun heq ↦ h (heq ▸ hf)

theorem mem_put_iff {guards : Guards} (hg : guards.fields.Nodup) {field other : Option String}
    {fd gd : FieldDef} :
    (other, gd) ∈ guards.put field fd ↔
      other = field ∧ gd = fd ∨ other ≠ field ∧ (other, gd) ∈ guards := by
  induction guards with
  | nil => simp [put]
  | cons g rest ih =>
      obtain ⟨f, d⟩ := g
      obtain ⟨hfirst, hrest⟩ := List.nodup_cons.1 hg
      by_cases h : f = field
      · subst h
        have hgone : ∀ e, (f, e) ∉ rest := fun e hmem ↦
          hfirst (List.mem_map.2 ⟨_, hmem, rfl⟩)
        simp only [put, beq_self_eq_true, if_true, List.mem_cons, Prod.mk.injEq]
        constructor
        · rintro (⟨rfl, rfl⟩ | hmem)
          · exact .inl ⟨rfl, rfl⟩
          · exact .inr ⟨fun heq ↦ hgone gd (heq ▸ hmem), .inr hmem⟩
        · rintro (h | ⟨hne, h | hmem⟩)
          · exact .inl h
          · exact (hne h.1).elim
          · exact .inr hmem
      · simp only [put, beq_iff_eq, h, if_false, List.mem_cons, Prod.mk.injEq, ih hrest]
        constructor
        · rintro (⟨rfl, rfl⟩ | hmem | ⟨hne, hmem⟩)
          · exact .inr ⟨h, .inl ⟨rfl, rfl⟩⟩
          · exact .inl hmem
          · exact .inr ⟨hne, .inr hmem⟩
        · rintro (hmem | ⟨hne, hmem | hmem⟩)
          · exact .inr (.inl hmem)
          · exact .inl hmem
          · exact .inr (.inr ⟨hne, hmem⟩)

theorem lasts_concat_iff {demands : List FieldDef} {last fd : FieldDef} :
    Lasts (demands ++ [last]) fd ↔ fd = last ∨ last.field ≠ fd.field ∧ Lasts demands fd := by
  constructor
  · rintro ⟨before, after, hsplit, hafter⟩
    obtain rfl | ⟨after, end_, rfl⟩ := after.eq_nil_or_concat
    · obtain ⟨-, h⟩ := List.append_inj' hsplit rfl
      exact .inl (List.head_eq_of_cons_eq h).symm
    · rw [List.concat_eq_append, ← List.cons_append, ← List.append_assoc] at hsplit
      obtain ⟨hdemands, h⟩ := List.append_inj' hsplit rfl
      obtain rfl := List.head_eq_of_cons_eq h
      refine .inr ⟨hafter last (by simp), before, after, hdemands, ?_⟩
      exact fun later hlater ↦ hafter later (by simp [hlater])
  · rintro (rfl | ⟨hne, before, after, rfl, hafter⟩)
    · exact ⟨demands, [], rfl, by simp⟩
    · refine ⟨before, after ++ [last], by simp, ?_⟩
      intro later hlater
      obtain hlater | hlater := List.mem_append.1 hlater
      · exact hafter later hlater
      · rw [List.mem_singleton.1 hlater]
        exact hne

/-- The guards are the last definitions of their fields. -/
theorem mem_ofDemands_iff {demands : List FieldDef} {field : Option String} {fd : FieldDef} :
    (field, fd) ∈ ofDemands demands ↔ field = fd.field ∧ Lasts demands fd := by
  induction demands using List.reverseRecOn with
  | nil => simp [ofDemands, Lasts]
  | append_singleton demands last ih =>
      rw [ofDemands_concat, mem_put_iff (nodup_fields_ofDemands demands), ih, lasts_concat_iff]
      constructor
      · rintro (⟨rfl, rfl⟩ | ⟨hne, rfl, hlasts⟩)
        · exact ⟨rfl, .inl rfl⟩
        · exact ⟨rfl, .inr ⟨Ne.symm hne, hlasts⟩⟩
      · rintro ⟨rfl, rfl | ⟨hne, hlasts⟩⟩
        · exact .inl ⟨rfl, rfl⟩
        · exact .inr ⟨Ne.symm hne, rfl, hlasts⟩

end Guards

end ChartLowering
