import ChartLowering.Proofs.Encoding.Typed
import ChartLowering.Proofs.InvalidData.Coverage

/-!
# What a filter takes for a defect

Fields without a type never reach the guards of a model. Discrete fields do, namely those whose
scale is made continuous by the specification itself, and the filter cannot be written then.
-/

namespace ChartLowering

/-- A computation that finds nothing that earlier steps should have ruled out. -/
def Intact {α : Type} (e : Except Fault α) : Prop := ∀ reason, e ≠ .error (.invariant reason)

namespace Intact

variable {α β : Type} {e : Except Fault α} {f : α → Except Fault β}

@[simp] theorem ok (a : α) : Intact (.ok a) := fun _ h ↦ by cases h

@[simp] theorem pure (a : α) : Intact (Pure.pure a : Except Fault α) := ok a

theorem throw {fault : Fault} (h : ∀ reason, fault ≠ .invariant reason) :
    Intact (MonadExcept.throw fault : Except Fault α) :=
  fun reason heq ↦ h reason (Except.error.inj heq)

theorem bind (he : Intact e) (hf : ∀ a, e = .ok a → Intact (f a)) : Intact (e >>= f) := by
  cases e with
  | error fault => exact fun reason heq ↦ he reason (congrArg _ (Except.error.inj heq))
  | ok a => exact hf a rfl

theorem map {g : α → β} (he : Intact e) : Intact (g <$> e) := by
  rw [← bind_pure_comp]
  exact he.bind fun _ _ ↦ pure _

theorem mapM {items : List α} (hf : ∀ a ∈ items, Intact (f a)) : Intact (items.mapM f) := by
  intro reason h
  obtain ⟨a, ha, hfault⟩ := exists_error_of_mapM h
  exact hf a ha reason hfault

end Intact

section Reading

variable {v : Value} {members : Record Value} {mark : MarkDef} {settings : Settings}

theorem unable_ne_invariant (v : Value) (action : String) (reason : Reason) :
    v.unable action ≠ .invariant reason := by
  cases v with
  | fieldDef members =>
      rw [Value.unable]
      split <;> exact Fault.noConfusion
  | _ => exact Fault.noConfusion

theorem intact_optional {α : Type} (read? : Value → Option α) (v : Value) :
    Intact (Value.optional read? v) := by
  unfold Value.optional
  split
  · exact .pure _
  · split
    · exact .pure _
    · exact .throw fun _ ↦ Fault.noConfusion

theorem intact_readType (v : Value) : Intact (FieldDef.readType v) := by
  have hread : Intact (FieldType.read v) := by
    unfold FieldType.read
    split
    · split
      · exact .pure _
      · exact .throw fun _ ↦ Fault.noConfusion
    · split
      · exact .throw (unable_ne_invariant _ _)
      · exact .throw fun _ ↦ Fault.noConfusion
  unfold FieldDef.readType
  split
  · exact .pure _
  · split
    · exact .pure _
    · exact .throw fun _ ↦ Fault.noConfusion
    · rename_i fault _ hfault
      exact .throw fun reason heq ↦ hread reason (heq ▸ hfault)

theorem intact_ofMembers (members : Record Value) : Intact (FieldDef.ofMembers members) :=
  (intact_readType _).bind fun _ _ ↦ (intact_optional _ _).bind fun _ _ ↦
    (intact_optional _ _).bind fun _ _ ↦ (intact_optional _ _).bind fun _ _ ↦
      (intact_optional _ _).bind fun _ _ ↦ .pure _

theorem intact_require (members : Record Value) (key : String) : Intact (members.require key) := by
  unfold Record.require
  split
  · exact .pure _
  · exact .throw fun _ ↦ Fault.noConfusion

theorem intact_isAmong (v : Value) (names : List String) : Intact (v.isAmong names) := by
  unfold Value.isAmong
  split
  · exact .pure _
  · exact .throw fun _ ↦ Fault.noConfusion

theorem intact_property (mark : MarkDef) (settings : Settings) (name : String) :
    Intact (mark.property settings name) := by
  have hblock : Intact (mark.block settings) := by
    refine (intact_require mark "type").bind fun type _ ↦ ?_
    split
    · exact .pure _
    · exact .throw fun _ ↦ Fault.noConfusion
  unfold MarkDef.property
  split
  · exact .pure _
  · exact hblock.bind fun _ _ ↦ .pure _

theorem intact_policy (settings : Settings) (mark : MarkDef) (channel : String)
    (scale : Option Scale) (fd : Option FieldDef) :
    Intact (InvalidData.policy settings mark channel scale fd) := by
  have hread (given : Value) : Intact (MarkInvalidMode.read given) := by
    unfold MarkInvalidMode.read
    split
    · exact .pure _
    · split
      · exact .pure _
      · exact .throw fun _ ↦ Fault.noConfusion
    · exact .throw fun _ ↦ Fault.noConfusion
  have hconcerns (type : Value) (counting : Bool) :
      Intact (ScaleInvalidMode.concerns type counting) := by
    unfold ScaleInvalidMode.concerns
    split
    · exact (intact_isAmong _ _).bind fun _ _ ↦ .pure _
    · exact .pure _
  refine (hconcerns _ _).bind fun concerned _ ↦ ?_
  split
  · refine (intact_property _ _ _).bind fun given _ ↦ (intact_isAmong _ _).bind fun isPath _ ↦ ?_
    refine (hread given).bind fun mode _ ↦ ?_
    split <;> exact .pure _
  · exact .pure _

theorem intact_datum (fd : FieldDef) : Intact fd.datum := by
  have hsegments (path : String) : Intact (FieldPath.segments path) := by
    unfold FieldPath.segments
    split
    · exact .pure _
    · exact .throw fun _ ↦ Fault.noConfusion
  exact ((hsegments _).bind fun _ _ ↦ .pure _).bind fun _ _ ↦ .pure _

theorem intact_anyFieldDef? (htyped : Encoding.Typed v) : Intact (ChannelDef.anyFieldDef? v) := by
  obtain ⟨members, rfl, -, hconditions⟩ := htyped
  have hself : Intact (ChannelDef.fieldDef? (.object members)) := by
    unfold ChannelDef.fieldDef?
    split
    · exact (intact_ofMembers members).map
    · exact .pure _
  refine hself.bind fun found hfound ↦ ?_
  cases found with
  | some fd => exact .pure _
  | none =>
      have hfield : ChannelDef.isFieldDef (.object members) = false := by
        by_contra hyes
        rw [ChannelDef.fieldDef?, if_pos (by simpa using hyes)] at hfound
        cases hread : FieldDef.read (.object members) <;> rw [hread] at hfound <;> cases hfound
      show Intact (ChannelDef.conditionalFieldDef? (.object members))
      unfold ChannelDef.conditionalFieldDef?
      split
      · rename_i condition hcondition
        split
        · rename_i hyes
          -- A condition that is a field definition has become an object.
          obtain ⟨inner, rfl, -⟩ := hconditions hfield condition hcondition hyes
          exact (Intact.ok inner).bind fun _ _ ↦ (intact_ofMembers _).bind fun _ _ ↦ .pure _
        · exact .pure _
      · exact .pure _

end Reading

section Scales

variable {v : Value} {members : Record Value} {mark : MarkDef} {settings : Settings}
  {name channel : String} {scale : Scale} {fd : FieldDef}

def FieldDef.isDiscrete (fd : FieldDef) : Bool :=
  fd.type == some .nominal || fd.type == some .ordinal

/-- A definition whose scale is continuous whatever the type of its field: the type of the scale is
given, or the scale is that of a number, with the field only in a condition. -/
def ForcesContinuous (v : Value) : Prop :=
  ∃ members : Record Value, Scale.scaledDef? v = some (.object members) ∧
    ((∃ type ∈ ScaleInvalidMode.continuousTypes,
        (members.value "scale").member? "type" = some (.text type)) ∨
      ChannelDef.isFieldDef (.object members) = false ∧ (members.value "datum").isNumber = true)

theorem continuous_of_policy {mode : ScaleInvalidMode}
    (h : InvalidData.policy settings mark channel (some scale) (some fd) = .ok mode)
    (hmode : mode.passes = false) : ∃ type ∈ ScaleInvalidMode.continuousTypes,
      scale.type = .text type := by
  obtain ⟨concerned, hconcerned, h⟩ := bind_eq_ok_iff.1 h
  cases concerned with
  | false =>
      obtain rfl := Except.ok.inj h
      cases hmode
  | true =>
      have hscale : Value.ofOption ((some scale).map Scale.type) = scale.type := rfl
      rw [hscale, ScaleInvalidMode.concerns] at hconcerned
      split at hconcerned
      · obtain ⟨among, hamong, hconcerned⟩ := bind_eq_ok_iff.1 hconcerned
        have hyes : among = true := (Bool.and_eq_true_iff.1 (Except.ok.inj hconcerned)).1
        rw [Value.isAmong] at hamong
        split at hamong
        · have hcontains := (Except.ok.inj hamong).trans hyes
          cases htype : scale.type with
          | text type =>
              rw [htype] at hcontains
              exact ⟨type, by simpa [Value.text?] using hcontains, rfl⟩
          | _ =>
              rw [htype] at hcontains
              cases hcontains
        · cases hamong
      · cases hconcerned

/-- The type of a scale is given, or it follows from what is shown on it. -/
theorem type_of_ofMembers (h : Scale.ofMembers name channel mark members = .ok (some scale)) :
    ∃ fd, ChannelDef.fieldDef? (.object members) = .ok fd ∧
      ((members.value "scale").member? "type" = some scale.type ∨
        ∃ type shape, scale.type = .text type ∧
          Scale.defaultType channel fd (members.value "datum") shape = .ok type) := by
  rw [Scale.ofMembers] at h
  split at h
  · cases h
  · obtain ⟨fd, hfd, h⟩ := bind_eq_ok_iff.1 h
    obtain ⟨parameters, hparameters, h⟩ := bind_eq_ok_iff.1 h
    obtain ⟨type, htype, h⟩ := bind_eq_ok_iff.1 h
    obtain ⟨zero, -, h⟩ := bind_eq_ok_iff.1 h
    obtain rfl := Option.some.inj (Except.ok.inj h)
    refine ⟨fd, hfd, ?_⟩
    split at htype
    · rename_i hgiven
      obtain rfl := Except.ok.inj htype
      left
      have hget : parameters.get? "type" = some (parameters.value "type") := by
        refine Record.get?_of_value rfl fun hnull ↦ ?_
        rw [hnull] at hgiven
        cases hgiven
      rw [Scale.parametersOf] at hparameters
      split at hparameters
      · cases hscale : members.value "scale" with
        | object given =>
            rw [hscale] at hparameters
            obtain rfl := Except.ok.inj hparameters
            exact hget
        | _ =>
            rw [hscale] at hparameters
            cases hparameters
      · obtain rfl := Except.ok.inj hparameters
        cases hget
    · right
      obtain ⟨shape, -, htype⟩ := bind_eq_ok_iff.1 htype
      obtain ⟨implied, himplied, htype⟩ := bind_eq_ok_iff.1 htype
      exact ⟨implied, shape, (Except.ok.inj htype).symm, himplied⟩

/-- No discrete field has a continuous scale of its own accord. -/
theorem defaultType_notMem {fd : Option FieldDef} {datum shape : Value} {type : String}
    (hfd : ∀ found ∈ fd, found.isDiscrete = true) (hdatum : fd = none → datum.isNumber = false)
    (h : Scale.defaultType channel fd datum shape = .ok type) :
    type ∉ ScaleInvalidMode.continuousTypes := by
  have hcategory (h : Scale.categoryType channel shape = .ok type) :
      type ∉ ScaleInvalidMode.continuousTypes := by
    rw [Scale.categoryType] at h
    split at h
    · obtain ⟨among, -, h⟩ := bind_eq_ok_iff.1 h
      obtain rfl := Except.ok.inj h
      cases among <;> decide
    · obtain rfl := Except.ok.inj h
      decide
  cases fd with
  | none =>
      rw [Scale.defaultType, hdatum rfl] at h
      obtain rfl := Except.ok.inj h
      decide
  | some found =>
      have hdiscrete := hfd found rfl
      rw [FieldDef.isDiscrete, Bool.or_eq_true, beq_iff_eq, beq_iff_eq] at hdiscrete
      obtain htype | htype := hdiscrete
      · simp only [Scale.defaultType, htype] at h
        exact hcategory h
      · simp only [Scale.defaultType, htype] at h
        exact hcategory h

/-- A scale belongs to the field definition that is found in its definition, if to any. -/
theorem fieldDef?_of_scaledDef? {found : Option FieldDef}
    (hscaled : Scale.scaledDef? v = some (.object members))
    (hfound : ChannelDef.fieldDef? (.object members) = .ok found)
    (hfd : ChannelDef.anyFieldDef? v = .ok (some fd)) :
    found = some fd ∨ found = none ∧ ChannelDef.isFieldDef (.object members) = false := by
  cases hfield : ChannelDef.isFieldDef (.object members) with
  | false =>
      rw [ChannelDef.fieldDef?, hfield, if_neg Bool.false_ne_true] at hfound
      exact .inr ⟨(Except.ok.inj hfound).symm, rfl⟩
  | true =>
      left
      have hread : FieldDef.ofMembers members = .ok fd := by
        rw [Scale.scaledDef?] at hscaled
        split at hscaled
        · obtain rfl := Option.some.inj hscaled
          obtain ⟨-, hread⟩ | ⟨hno, -⟩ := Encoding.anyFieldDef?_object_eq_some_iff.1 hfd
          · exact hread
          · rw [hfield] at hno
            cases hno
        · rename_i hself
          obtain ⟨hcondition, -⟩ := Option.filter_eq_some_iff.1 hscaled
          cases v with
          | object outer =>
              obtain ⟨hyes, -⟩ | ⟨-, condition, inner, hsame, -, hinner, hread⟩ :=
                Encoding.anyFieldDef?_object_eq_some_iff.1 hfd
              · rw [hyes] at hself
                exact (hself rfl).elim
              · obtain rfl := Option.some.inj (hsame.symm.trans hcondition)
                obtain rfl := Except.ok.inj hinner
                exact hread
          | _ => cases hcondition
      rw [ChannelDef.fieldDef?, hfield, if_pos rfl, FieldDef.read, hread] at hfound
      exact (Except.ok.inj hfound).symm

theorem forcesContinuous_of_scale
    (hscale : Scale.ofDefinition? name channel mark v = .ok (some scale))
    (hfd : ChannelDef.anyFieldDef? v = .ok (some fd)) (hdiscrete : fd.isDiscrete = true)
    (htype : ∃ type ∈ ScaleInvalidMode.continuousTypes, scale.type = .text type) :
    ForcesContinuous v := by
  obtain ⟨type, hmem, htype⟩ := htype
  rw [Scale.ofDefinition?] at hscale
  split at hscale
  · rename_i members hscaled
    refine ⟨members, hscaled, ?_⟩
    obtain ⟨found, hfound, hgiven | ⟨implied, shape, himplied, hread⟩⟩ := type_of_ofMembers hscale
    · exact .inl ⟨type, hmem, htype ▸ hgiven⟩
    · right
      obtain rfl : implied = type := Value.text.inj (himplied.symm.trans htype)
      obtain rfl | ⟨rfl, hfield⟩ := fieldDef?_of_scaledDef? hscaled hfound hfd
      · exact (defaultType_notMem (by simpa using hdiscrete) (by simp) hread hmem).elim
      · refine ⟨hfield, ?_⟩
        by_contra hnumber
        exact defaultType_notMem (by simp) (fun _ ↦ by simpa using hnumber) hread hmem
  · cases hscale

end Scales

section Guards

variable {m : UnitModel} {sources : DataSources} {demands : List FieldDef} {fd : FieldDef}

/-- Every field definition of a unit that has been built has a type when its guards are found. -/
theorem UnitModel.intact_demands (htyped : ∀ d ∈ m.encoding.definitions, Encoding.Typed d.2) :
    Intact m.demands := by
  refine (Intact.mapM fun d hd ↦ ?_).bind fun _ _ ↦ .pure _
  refine (intact_anyFieldDef? (htyped d hd)).bind fun found hfound ↦ ?_
  cases found with
  | none => exact .pure _
  | some fd =>
      have htype : fd.type.isSome = true := (htyped d hd).type_isSome hfound
      show Intact (m.demand? d.1 fd)
      unfold UnitModel.demand?
      cases if Channel.isScaled d.1 then m.scale? d.1 else none with
      | none => exact .pure _
      | some scale =>
          refine (intact_policy _ _ _ _ _).bind fun mode _ ↦ ?_
          rw [if_pos htype]
          split <;> exact .pure _

theorem UnitModel.exists_of_ofSpec {spec : Record Value} {settings : Settings} {name : String}
    {parse : Shorthand.Reader} (h : (ofSpec spec settings name parse).outcome = .ok m) :
    (Encoding.normalize (spec.value "encoding") parse).outcome = .ok m.encoding ∧
      initScales name m.mark m.encoding = .ok m.scales := by
  rw [ofSpec] at h
  split at h
  · cases h
  · obtain ⟨encoding, hencoding, h⟩ := Report.outcome_bind_eq_ok_iff.1 h
    obtain ⟨scales, hscales, h⟩ := Report.outcome_bind_eq_ok_iff.1 h
    obtain rfl := Except.ok.inj h
    exact ⟨hencoding, hscales⟩

namespace Guards

/-- The first guard that no test can be written for is that of a discrete field, with a column that
can be read. -/
def Stuck (guards : Guards) : Prop :=
  ∃ before g after, guards = before ++ g :: after ∧
    (∀ b ∈ before, ∃ text, (test b.2).outcome = .ok text) ∧
    g.2.isDiscrete = true ∧ ∃ ref, g.2.datum = .ok ref

theorem outcome_test_eq_invariant_iff (htype : fd.type.isSome = true) :
    (∃ reason, (test fd).outcome = .error (.invariant reason)) ↔
      fd.isDiscrete = true ∧ ∃ ref, fd.datum = .ok ref := by
  rw [test, Report.outcome_bind, Report.outcome_lift, FieldDef.isDiscrete]
  obtain ⟨type, htype⟩ := Option.isSome_iff_exists.1 htype
  rw [htype]
  cases hdatum : fd.datum with
  | error fault =>
      have hintact := intact_datum fd
      rw [hdatum] at hintact
      refine iff_of_false ?_ (by simp)
      rintro ⟨reason, h⟩
      exact hintact reason (congrArg _ (Except.error.inj h))
  | ok ref =>
      cases type with
      | nominal => exact iff_of_true ⟨_, rfl⟩ ⟨rfl, ref, rfl⟩
      | ordinal => exact iff_of_true ⟨_, rfl⟩ ⟨rfl, ref, rfl⟩
      | quantitative | temporal =>
          apply iff_of_false
          · rintro ⟨reason, h⟩
            cases h
          · rintro ⟨h, -⟩
            cases h

theorem outcome_filter?_eq_error_iff {guards : Guards} {fault : Fault} :
    guards.filter?.outcome = .error fault ↔ guards.tests.outcome = .error fault := by
  rw [filter?, Report.outcome_bind]
  cases guards.tests.outcome with
  | error other => exact ⟨fun h ↦ congrArg _ (Except.error.inj h),
      fun h ↦ congrArg _ (Except.error.inj h)⟩
  | ok tests =>
      apply iff_of_false
      · intro h
        cases tests <;> cases h
      · intro h
        cases h

/-- The filter of guards with types is taken for a defect just where the guards are stuck. -/
theorem outcome_filter?_eq_invariant_iff {guards : Guards}
    (htype : ∀ g ∈ guards, g.2.type.isSome = true) :
    (∃ reason, guards.filter?.outcome = .error (.invariant reason)) ↔ guards.Stuck := by
  simp only [outcome_filter?_eq_error_iff, tests, Report.outcome_mapM, mapM_eq_error_iff]
  constructor
  · rintro ⟨reason, before, g, after, rfl, hbefore, hg⟩
    exact ⟨before, g, after, rfl, hbefore,
      (outcome_test_eq_invariant_iff (htype g (by simp))).1 ⟨reason, hg⟩⟩
  · rintro ⟨before, g, after, rfl, hbefore, hg⟩
    obtain ⟨reason, hreason⟩ := (outcome_test_eq_invariant_iff (htype g (by simp))).2 hg
    exact ⟨reason, before, g, after, rfl, hbefore, hreason⟩

theorem exists_demands {guards : Guards} (h : (ofModel m sources).outcome = .ok guards) :
    guards = [] ∨ ∃ demands, m.demands = .ok demands ∧ guards = ofDemands demands := by
  cases hsources : sources.includesAll with
  | true =>
      rw [ofModel, hsources, if_pos rfl] at h
      exact .inl (Except.ok.inj h).symm
  | false =>
      rw [outcome_ofModel m hsources] at h
      cases hdemands : m.demands with
      | error fault =>
          rw [hdemands] at h
          cases h
      | ok demands =>
          rw [hdemands] at h
          exact .inr ⟨demands, rfl, (Except.ok.inj h).symm⟩

/-- A guard goes by a definition that asks for it. -/
theorem asks_of_mem {guards : Guards} (h : (ofModel m sources).outcome = .ok guards)
    {g : Option String × FieldDef} (hg : g ∈ guards) : m.Asks g.2 := by
  obtain rfl | ⟨demands, hdemands, rfl⟩ := exists_demands h
  · cases hg
  · obtain ⟨before, after, hsplit, -⟩ := (mem_ofDemands_iff.1 hg).2
    exact (m.mem_demands_iff hdemands).1 (by simp [hsplit])

end Guards

theorem UnitModel.exists_of_scale? {name : String}
    (hscales : initScales name m.mark m.encoding = .ok m.scales) {channel : String} {scale : Scale}
    (hscale : m.scale? channel = some scale) :
    ∃ v, (channel, v) ∈ m.encoding ∧ v.isList = false ∧
      Scale.ofDefinition? (scaleName name channel) channel m.mark v = .ok (some scale) := by
  obtain ⟨found, hfound, h⟩ := bind_eq_ok_iff.1 hscales
  have hmem : (channel, scale) ∈ found.filterMap id :=
    Except.ok.inj h ▸ Record.mem_of_get? hscale
  obtain ⟨kept, hkept, rfl⟩ := List.mem_filterMap.1 hmem
  obtain ⟨⟨other, v⟩, hv, hd⟩ := (mem_of_mapM_eq_ok hfound).1 hkept
  obtain ⟨scale?, hinit, hd⟩ := bind_eq_ok_iff.1 hd
  obtain ⟨_, rfl, heq⟩ := Option.map_eq_some_iff.1 (Except.ok.inj hd)
  obtain ⟨rfl, rfl⟩ := Prod.mk.inj heq
  rw [initScale?] at hinit
  split at hinit
  · rename_i hscaled
    simp only [Bool.and_eq_true, Bool.not_eq_true'] at hscaled
    exact ⟨v, hv, hscaled.2, hinit⟩
  · cases hinit

/-- What asks for the guard of a discrete field is a definition that forces a continuous scale. -/
theorem UnitModel.forcesContinuous_of_asks {name : String}
    (hscales : initScales name m.mark m.encoding = .ok m.scales) (hkeys : m.encoding.keys.Nodup)
    (hasks : m.Asks fd) (hdiscrete : fd.isDiscrete = true) :
    ∃ m' ∈ m.encoding, ChannelDef.anyFieldDef? m'.2 = .ok (some fd) ∧ ForcesContinuous m'.2 := by
  obtain ⟨channel, v, scale, mode, hmem, hfd, -, hscale, hpolicy, hmode⟩ := hasks
  obtain ⟨w, hw, hlist, hinit⟩ := exists_of_scale? hscales hscale
  have hsame : v = w := by
    obtain ⟨⟨other, u⟩, hu, hv⟩ := List.mem_flatMap.1 hmem
    obtain ⟨x, hx, heq⟩ := List.mem_map.1 hv
    obtain ⟨rfl, rfl⟩ := Prod.mk.inj heq
    obtain rfl := Record.eq_of_mem_of_nodup hkeys hu hw
    cases u with
    | list => cases hlist
    | _ => exact List.mem_singleton.1 hx
  subst hsame
  exact ⟨(channel, v), hw, hfd,
    forcesContinuous_of_scale hinit hfd hdiscrete (continuous_of_policy hpolicy hmode)⟩

/-- Guards never fail for want of a type. Writing their filter fails as a defect just where they
are stuck at a discrete field, and the scale of such a field has been forced to be continuous. -/
theorem Guards.broken_iff_stuck {spec : Record Value} {settings : Settings} {name : String}
    {parse : Shorthand.Reader} (h : (UnitModel.ofSpec spec settings name parse).outcome = .ok m)
    (sources : DataSources) :
    Intact (ofModel m sources).outcome ∧
      ∀ guards, (ofModel m sources).outcome = .ok guards →
        ((∃ reason, guards.filter?.outcome = .error (.invariant reason)) ↔ guards.Stuck) ∧
        ((∀ members, (spec.value "encoding").members = .ok members → members.keys.Nodup) →
          ∀ g ∈ guards, g.2.isDiscrete = true → ∃ d ∈ m.encoding,
            ChannelDef.anyFieldDef? d.2 = .ok (some g.2) ∧ ForcesContinuous d.2) := by
  obtain ⟨hencoding, hscales⟩ := UnitModel.exists_of_ofSpec h
  have htyped := Encoding.typed_of_normalize hencoding
  refine ⟨?_, fun guards hguards ↦ ⟨outcome_filter?_eq_invariant_iff fun g hg ↦ ?_,
    fun hraw g hg hdiscrete ↦ ?_⟩⟩
  · cases hsources : sources.includesAll with
    | true =>
        rw [ofModel, hsources, if_pos rfl]
        exact .pure _
    | false =>
        rw [outcome_ofModel m hsources]
        exact (UnitModel.intact_demands htyped).map
  · obtain ⟨channel, v, _, _, hmem, hfd, -⟩ := asks_of_mem hguards hg
    exact (htyped _ hmem).type_isSome hfd
  · exact UnitModel.forcesContinuous_of_asks hscales
      (Encoding.nodup_keys_of_normalize hencoding hraw) (asks_of_mem hguards hg) hdiscrete

/-- A unit whose fields have the scales of their own types. -/
def plainUnit : Record Value :=
  [("mark", .text "point"), ("encoding", .object
    [("x", .text "a:Q"), ("y", .text "when:T"), ("color", .text "kind:N")])]

theorem Guards.broken_iff_stuck_plainUnit :
    ∃ m guards, (UnitModel.ofSpec plainUnit).outcome = .ok m ∧
      (ofModel m ⟨.exclude, .exclude⟩).outcome = .ok guards ∧
      guards.fields = [some "a", some "when"] ∧ Intact guards.filter?.outcome := by
  have hrun : (do
      let m ← (UnitModel.ofSpec plainUnit).outcome
      let guards ← (ofModel m ⟨.exclude, .exclude⟩).outcome
      pure (guards.fields, guards.any (·.2.isDiscrete))) =
        .ok ([some "a", some "when"], false) := by
    decide +kernel
  obtain ⟨m, hm, hrun⟩ := bind_eq_ok_iff.1 hrun
  obtain ⟨guards, hguards, hrun⟩ := bind_eq_ok_iff.1 hrun
  obtain ⟨hfields, hplain⟩ := Prod.mk.inj (Except.ok.inj hrun)
  obtain ⟨-, hbroken⟩ := broken_iff_stuck hm ⟨.exclude, .exclude⟩
  refine ⟨m, guards, hm, hguards, hfields, fun reason hreason ↦ ?_⟩
  obtain ⟨before, g, after, rfl, -, hdiscrete, -⟩ := (hbroken guards hguards).1.1 ⟨reason, hreason⟩
  have hall := List.any_eq_false.1 hplain g (by simp)
  exact hall hdiscrete

/-- A unit that gives the names of things a linear scale. -/
def linearNames : Record Value :=
  [("mark", .text "point"), ("encoding", .object
    [("x", .object [("field", .text "a"), ("type", .text "nominal"),
      ("scale", .object [("type", .text "linear")])])])]

theorem Guards.broken_linearNames :
    ∃ m guards reason, (UnitModel.ofSpec linearNames).outcome = .ok m ∧
      (ofModel m ⟨.exclude, .exclude⟩).outcome = .ok guards ∧
      guards.filter?.outcome = .error (.invariant reason) := by
  have hrun : (do
      let m ← (UnitModel.ofSpec linearNames).outcome
      let guards ← (ofModel m ⟨.exclude, .exclude⟩).outcome
      pure guards.filter?.outcome) = .ok (.error
        (.invariant (.discreteFilter (.text "a") "<FieldType.NOMINAL: 'nominal'>"))) := by
    decide +kernel
  obtain ⟨m, hm, hrun⟩ := bind_eq_ok_iff.1 hrun
  obtain ⟨guards, hguards, hrun⟩ := bind_eq_ok_iff.1 hrun
  exact ⟨m, guards, _, hm, hguards, Except.ok.inj hrun⟩

end Guards

end ChartLowering
