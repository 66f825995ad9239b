import ChartLowering.Proofs.Encode.SingleCondition
import ChartLowering.Proofs.InvalidData.Defects

/-!
# Types of the fields of a unit

Normalizing an encoding fails for many reasons, but never for want of a type, and finding the scales
of a normal encoding does not either. Whoever goes through the field definitions of a unit comes
across definitions with types only, and across all of them in their order.
-/

namespace ChartLowering

/-- A computation that does not end for want of a type. -/
def TypesKnown {α : Type} (e : Except Fault α) : Prop :=
  ∀ channel, e ≠ .error (.spec (.typeMissing channel))

namespace TypesKnown

variable {α β : Type} {e : Except Fault α} {f : α → Except Fault β} {fault : Fault}

theorem ok (a : α) : TypesKnown (.ok a) := fun _ h ↦ by cases h

theorem pure (a : α) : TypesKnown (Pure.pure a : Except Fault α) := ok a

theorem throw (h : ∀ channel, fault ≠ .spec (.typeMissing channel)) :
    TypesKnown (MonadExcept.throw fault : Except Fault α) :=
  fun channel heq ↦ h channel (Except.error.inj heq)

theorem throw_spec {reason : Reason} (h : ∀ channel, reason ≠ .typeMissing channel) :
    TypesKnown (MonadExcept.throw (Fault.spec reason) : Except Fault α) :=
  throw fun channel heq ↦ h channel (Fault.spec.inj heq)

theorem bind (he : TypesKnown e) (hf : ∀ a, e = .ok a → TypesKnown (f a)) :
    TypesKnown (e >>= f) := by
  cases e with
  | error fault => exact fun channel heq ↦ he channel (congrArg _ (Except.error.inj heq))
  | ok a => exact hf a rfl

theorem map {g : α → β} (he : TypesKnown e) : TypesKnown (g <$> e) := by
  rw [← bind_pure_comp]
  exact he.bind fun _ _ ↦ pure _

theorem mapM {items : List α} (hf : ∀ a ∈ items, TypesKnown (f a)) :
    TypesKnown (items.mapM f) := by
  intro channel h
  obtain ⟨a, ha, hfault⟩ := exists_error_of_mapM h
  exact hf a ha channel hfault

theorem outcome_bind {r : Report α} {g : α → Report β} (hr : TypesKnown r.outcome)
    (hg : ∀ a, r.outcome = .ok a → TypesKnown (g a).outcome) : TypesKnown (r >>= g).outcome := by
  rw [Report.outcome_bind]
  exact hr.bind hg

end TypesKnown

section Reading

variable {v : Value} {members : Record Value} {channel : String}

theorem unable_ne_typeMissing (v : Value) (action : String) (channel : Value) :
    v.unable action ≠ .spec (.typeMissing channel) := by
  cases v with
  | fieldDef members =>
      rw [Value.unable]
      split <;> exact Fault.noConfusion
  | _ => exact Fault.noConfusion

theorem typesKnown_members (v : Value) (action : String) : TypesKnown (v.members action) := by
  unfold Value.members
  split
  · exact .pure _
  · exact .throw (unable_ne_typeMissing _ _)

theorem typesKnown_require (members : Record Value) (key : String) :
    TypesKnown (members.require key) := by
  unfold Record.require
  split
  · exact .pure _
  · exact .throw fun _ ↦ Fault.noConfusion

theorem typesKnown_isAmong (v : Value) (names : List String) : TypesKnown (v.isAmong names) := by
  unfold Value.isAmong
  split
  · exact .pure _
  · exact .throw fun _ ↦ Fault.noConfusion

theorem typesKnown_optional {α : Type} (read? : Value → Option α) (v : Value) :
    TypesKnown (Value.optional read? v) := by
  unfold Value.optional
  split
  · exact .pure _
  · split
    · exact .pure _
    · exact .throw fun _ ↦ Fault.noConfusion

theorem typesKnown_elements (v : Value) : TypesKnown v.elements := by
  unfold Value.elements
  split <;> first | exact .pure _ | exact .throw fun _ ↦ Fault.noConfusion

theorem typesKnown_asRecord (v : Value) : TypesKnown v.asRecord := by
  have hpair (w : Value) : TypesKnown w.asPair := by
    refine (typesKnown_elements w).bind fun parts _ ↦ ?_
    split
    · split
      · exact .pure _
      · exact .throw fun _ ↦ Fault.noConfusion
    · exact .throw fun _ ↦ Fault.noConfusion
  unfold Value.asRecord
  split
  · exact .pure _
  · split
    · exact .throw fun _ ↦ Fault.noConfusion
    · exact .pure _
  · refine (typesKnown_elements _).bind fun parts _ ↦ ?_
    exact (TypesKnown.mapM fun w _ ↦ hpair w).bind fun _ _ ↦ .pure _

/-- A type that cannot be read is not a type that is missing. -/
theorem typesKnown_read (v : Value) : TypesKnown (FieldType.read v) := by
  unfold FieldType.read
  split
  · split
    · exact .pure _
    · exact .throw fun _ ↦ Fault.noConfusion
  · split
    · exact .throw (unable_ne_typeMissing _ _)
    · exact .throw fun _ ↦ Fault.noConfusion

theorem typesKnown_ofMembers (members : Record Value) :
    TypesKnown (FieldDef.ofMembers members) := by
  have htype (v : Value) : TypesKnown (FieldDef.readType v) := by
    unfold FieldDef.readType
    split
    · exact .pure _
    · split
      · exact .pure _
      · exact .throw fun _ ↦ Fault.noConfusion
      · rename_i fault _ hfault
        exact .throw fun channel heq ↦ typesKnown_read _ channel (heq ▸ hfault)
  exact (htype _).bind fun _ _ ↦ (typesKnown_optional _ _).bind fun _ _ ↦
    (typesKnown_optional _ _).bind fun _ _ ↦ (typesKnown_optional _ _).bind fun _ _ ↦
      (typesKnown_optional _ _).bind fun _ _ ↦ .pure _

end Reading

namespace Encoding

open ChannelDef

section Normalizing

variable {parse : Shorthand.Reader} {v : Value} {members : Record Value} {channel : String}

theorem typesKnown_typeOf (channel : String) (members : Record Value) :
    TypesKnown (typeOf channel members) := by
  unfold typeOf
  split
  · exact .pure _
  · split
    · exact .throw_spec fun _ ↦ Reason.noConfusion
    · exact typesKnown_read _

theorem typesKnown_spellField (channel : String) (members : Record Value) :
    TypesKnown (spellField channel members) := by
  refine (typesKnown_typeOf channel members).bind fun type _ ↦ ?_
  dsimp only
  split <;> exact .pure _

theorem typesKnown_spellCondition (channel : String) (v : Value) :
    TypesKnown (spellCondition channel v) := by
  refine (typesKnown_asRecord v).bind fun members _ ↦ ?_
  split
  · exact (typesKnown_spellField channel members).bind fun _ _ ↦ .pure _
  · exact .pure _

theorem typesKnown_spellConditions (channel : String) (members : Record Value) :
    TypesKnown (spellConditions channel members) := by
  unfold spellConditions
  split
  · exact (TypesKnown.mapM fun c _ ↦ typesKnown_spellCondition channel c).bind fun _ _ ↦ .pure _
  · split
    · exact (typesKnown_spellCondition channel _).bind fun _ _ ↦ .pure _
    · exact .pure _
  · exact .pure _

theorem typesKnown_shorthandMembers (hparse : Shorthand.Documented parse) (s : String) :
    TypesKnown (shorthandMembers s parse) := by
  have hknown : TypesKnown (parse s) := by
    intro channel h
    cases hparse.refused s _ h
  refine hknown.bind fun members _ ↦ ?_
  split
  · exact .throw_spec fun _ ↦ Reason.noConfusion
  · exact .pure _

theorem typesKnown_spelledMembers (hparse : Shorthand.Documented parse) (channel : String)
    (v : Value) : TypesKnown (spelledMembers channel v parse) := by
  have hraw : TypesKnown (rawMembers channel v parse) := by
    unfold rawMembers
    split
    · exact .pure _
    · exact typesKnown_shorthandMembers hparse _
    · exact .pure _
    · exact .throw_spec fun _ ↦ Reason.noConfusion
  refine hraw.bind fun raw _ ↦ ?_
  dsimp only
  split
  · exact (typesKnown_shorthandMembers hparse _).bind fun _ _ ↦ .pure _
  · exact .pure _

theorem typesKnown_normalizeDef (hparse : Shorthand.Documented parse) (channel : String)
    (v : Value) : TypesKnown (normalizeDef channel v parse).outcome := by
  refine .outcome_bind (typesKnown_spelledMembers hparse channel v) fun members _ ↦ ?_
  split
  · exact .outcome_bind (typesKnown_spellField channel members) fun _ _ ↦ .pure _
  · refine .outcome_bind (typesKnown_spellConditions channel members) fun spelled _ ↦ ?_
    split
    · exact .pure _
    · exact .outcome_bind (.ok ()) fun _ _ ↦ .pure _

theorem typesKnown_normalizeChannel (hparse : Shorthand.Documented parse) (channel : String)
    (v : Value) : TypesKnown (normalizeChannel channel v parse).outcome := by
  unfold normalizeChannel
  split
  · exact .pure _
  · refine .outcome_bind ?_ fun _ _ ↦ .pure _
    rw [Report.outcome_mapM]
    exact .mapM fun item _ ↦ typesKnown_normalizeDef hparse channel item
  · exact typesKnown_normalizeDef hparse channel v

theorem typesKnown_normalize (hparse : Shorthand.Documented parse) (raw : Value) :
    TypesKnown (normalize raw parse).outcome := by
  have hmembers (members : Record Value) : TypesKnown (normalizeMembers members parse).outcome := by
    induction members with
    | nil => exact .pure _
    | cons m rest ih =>
        refine .outcome_bind (typesKnown_normalizeChannel hparse m.1 m.2) fun kept _ ↦ ?_
        exact .outcome_bind ih fun _ _ ↦ .pure _
  unfold normalize
  split
  · exact .outcome_bind (typesKnown_members raw _) fun members _ ↦ hmembers members
  · exact .pure _

end Normalizing

section Visits

variable {e : Encoding}

/-- Only field definitions of a kind are come across in an encoding: what a step does with others
makes no difference to going through it. -/
def VisitsOnly (e : Encoding) (kind : FieldDef → Prop) : Prop :=
  ∀ {α : Type} (step other : α → String → FieldDef → Report α),
    (∀ found channel fd, kind fd → step found channel fd = other found channel fd) →
      ∀ start, e.foldFieldDefs step start = e.foldFieldDefs other start

theorem anyFieldDef?_of_mem_visited {d : String × Except Fault FieldDef} (h : d ∈ e.visited)
    {fd : FieldDef} (hfd : d.2 = .ok fd) :
    ∃ v, (d.1, v) ∈ e.definitions ∧ anyFieldDef? v = .ok (some fd) := by
  obtain ⟨⟨channel, v⟩, hmem, hd⟩ := List.mem_filterMap.1 h
  cases hfound : anyFieldDef? v with
  | error fault =>
      rw [hfound] at hd
      obtain rfl := Option.some.inj hd
      cases hfd
  | ok found =>
      rw [hfound] at hd
      cases found with
      | none => cases hd
      | some own =>
          obtain rfl := Option.some.inj hd
          obtain rfl := Except.ok.inj hfd
          exact ⟨v, hmem, hfound⟩

theorem visitsOnly_of_definitions {kind : FieldDef → Prop}
    (h : ∀ d ∈ e.definitions, ∀ fd, anyFieldDef? d.2 = .ok (some fd) → kind fd) :
    e.VisitsOnly kind := by
  intro α step other hsame start
  have hvisited : ∀ d ∈ e.visited, ∀ fd, d.2 = .ok fd → kind fd := by
    intro d hd fd hfd
    obtain ⟨v, hmem, hfound⟩ := anyFieldDef?_of_mem_visited hd hfd
    exact h _ hmem fd hfound
  rw [foldFieldDefs_eq, foldFieldDefs_eq]
  generalize e.visited = visits at hvisited
  induction visits generalizing start with
  | nil => rfl
  | cons d rest ih =>
      obtain ⟨hd, hrest⟩ := List.forall_mem_cons.1 hvisited
      rw [List.foldlM_cons, List.foldlM_cons]
      cases hfd : d.2 with
      | error fault => rfl
      | ok fd =>
          simp only [Report.lift_ok, pure_bind, hsame start d.1 fd (hd fd hfd)]
          apply bind_congr
          intro found
          exact ih found hrest

theorem mapM_visited (e : Encoding) : e.visited.mapM Prod.snd = fieldDefs e := by
  -- Definitions without a field are passed over on both sides, but only one of them keeps a place
  -- for them meanwhile.
  have hitems : (e.flatMap fun m ↦ m.2.itemsOrSelf) = e.definitions.map Prod.snd := by
    simp [definitions, List.map_flatMap, Function.comp_def]
  rw [fieldDefs, hitems, visited]
  induction e.definitions with
  | nil => rfl
  | cons d rest ih =>
      rw [List.filterMap_cons, List.map_cons, List.mapM_cons]
      cases hfound : anyFieldDef? d.2 with
      | error fault => rfl
      | ok found =>
          cases found with
          | none =>
              refine ih.trans ?_
              cases (rest.map Prod.snd).mapM anyFieldDef? <;> rfl
          | some fd =>
              rw [List.mapM_cons, ih]
              cases (rest.map Prod.snd).mapM anyFieldDef? <;> rfl

/-- What is come across, gathered in a list, are all field definitions of the encoding. -/
theorem foldFieldDefs_gather (e : Encoding) :
    e.foldFieldDefs (fun found _ fd ↦ pure (found ++ [fd])) [] =
      (fieldDefs e : Report (List FieldDef)) := by
  have hgather (visits : List (String × Except Fault FieldDef)) (before : List FieldDef) :
      visits.foldlM (fun found d ↦ do pure (found ++ [← (d.2 : Report FieldDef)])) before =
        (before ++ ·) <$> (liftM (visits.mapM Prod.snd) : Report (List FieldDef)) := by
    induction visits generalizing before with
    | nil => simp [Report.lift_pure]
    | cons d rest ih =>
        rw [List.foldlM_cons, List.mapM_cons, Report.lift_bind]
        cases hfd : d.2 with
        | error fault => rfl
        | ok fd =>
            rw [Report.lift_ok, pure_bind, pure_bind, ih, pure_bind]
            cases rest.mapM Prod.snd with
            | error fault => rfl
            | ok fds => exact congrArg pure (List.append_assoc before [fd] fds)
  rw [foldFieldDefs_eq, hgather, mapM_visited]
  simp

end Visits

end Encoding

section Scales

variable {v : Value} {members : Record Value} {mark : MarkDef} {channel : String} {e : Encoding}

/-- The field definition that a scale of a normal encoding belongs to is in its last form. -/
theorem Encoding.Typed.spelled_of_scaledDef? (htyped : Encoding.Typed v)
    (hscaled : Scale.scaledDef? v = some (.object members))
    (hfield : ChannelDef.isFieldDef (.object members) = true) : Encoding.Spelled members := by
  obtain ⟨own, rfl, hself, hconditions⟩ := htyped
  rw [Scale.scaledDef?] at hscaled
  split at hscaled
  · obtain rfl := Value.object.inj (Option.some.inj hscaled)
    exact hself hfield
  · rename_i hother
    obtain ⟨hcondition, -⟩ := Option.filter_eq_some_iff.1 hscaled
    have hno : ChannelDef.isFieldDef (.object own) = false := by
      simp only [Bool.or_eq_true, not_or] at hother
      simpa using hother.1
    obtain ⟨inner, heq, hspelled⟩ := hconditions hno _ hcondition hfield
    obtain rfl := Value.object.inj heq
    exact hspelled

theorem typesKnown_defaultType {fd : Option FieldDef}
    (htype : ∀ found ∈ fd, found.type.isSome = true) (datum shape : Value) :
    TypesKnown (Scale.defaultType channel fd datum shape) := by
  have hcategory : TypesKnown (Scale.categoryType channel shape) := by
    unfold Scale.categoryType
    split
    · exact (typesKnown_isAmong _ _).bind fun _ _ ↦ .pure _
    · exact .pure _
  cases fd with
  | none => exact .pure _
  | some found =>
      obtain ⟨type, hfound⟩ := Option.isSome_iff_exists.1 (htype found rfl)
      unfold Scale.defaultType
      simp only [hfound]
      cases type with
      | nominal | ordinal => exact hcategory
      | temporal | quantitative => exact .pure _

theorem typesKnown_fieldDef? (members : Record Value) :
    TypesKnown (ChannelDef.fieldDef? (.object members)) := by
  unfold ChannelDef.fieldDef?
  split
  · exact (typesKnown_ofMembers members).map
  · exact .pure _

theorem typesKnown_parametersOf (members : Record Value) :
    TypesKnown (Scale.parametersOf members) := by
  unfold Scale.parametersOf
  dsimp only
  split
  · exact typesKnown_members _ _
  · exact .pure _

theorem typesKnown_impliedType {fd : Option FieldDef}
    (htype : ∀ found ∈ fd, found.type.isSome = true) (datum : Value) :
    TypesKnown (Scale.impliedType channel mark fd datum) :=
  (typesKnown_require mark "type").bind fun shape _ ↦
    (typesKnown_defaultType htype datum shape).bind fun _ _ ↦ .pure _

theorem typesKnown_zeroOf (fd : Option FieldDef) (parameters : Record Value) (type : Value) :
    TypesKnown (Scale.zeroOf channel fd parameters type) := by
  unfold Scale.zeroOf Scale.startsAtZero
  split
  · split
    · exact typesKnown_isAmong _ _
    · exact .pure _
  · exact .pure _

/-- A field that a scale of a normal encoding shows has a type. -/
theorem Encoding.Typed.type_isSome_of_scaledDef? (htyped : Encoding.Typed v)
    (hscaled : Scale.scaledDef? v = some (.object members)) {found : FieldDef}
    (hfd : ChannelDef.fieldDef? (.object members) = .ok (some found)) :
    found.type.isSome = true := by
  unfold ChannelDef.fieldDef? at hfd
  split at hfd
  · rename_i hfield
    refine type_isSome_of_ofMembers (htyped.spelled_of_scaledDef? hscaled hfield) ?_
    cases hown : FieldDef.ofMembers members with
    | error fault =>
        rw [FieldDef.read, hown] at hfd
        cases hfd
    | ok own =>
        rw [FieldDef.read, hown] at hfd
        exact congrArg _ (Option.some.inj (Except.ok.inj hfd))
  · cases hfd

theorem typesKnown_ofDefinition? {name : String} (htyped : Encoding.Typed v) :
    TypesKnown (Scale.ofDefinition? name channel mark v) := by
  unfold Scale.ofDefinition?
  split
  · rename_i members hscaled
    unfold Scale.ofMembers
    split
    · exact .pure _
    refine (typesKnown_fieldDef? members).bind fun fd hfd ↦
      (typesKnown_parametersOf members).bind fun parameters _ ↦ ?_
    have htype : ∀ found ∈ fd, found.type.isSome = true := by
      rintro found rfl
      exact htyped.type_isSome_of_scaledDef? hscaled hfd
    dsimp only
    refine .bind ?_ fun type _ ↦ (typesKnown_zeroOf fd parameters type).bind fun _ _ ↦ .pure _
    -- Only a type that is implied depends on that of the field.
    split
    · exact .pure _
    · exact typesKnown_impliedType htype _
  · exact .pure _

theorem typesKnown_initScales {view : String} (htyped : ∀ d ∈ e.definitions, Encoding.Typed d.2) :
    TypesKnown (UnitModel.initScales view mark e) := by
  refine (TypesKnown.mapM fun m hm ↦ ?_).bind fun _ _ ↦ .pure _
  refine .bind ?_ fun _ _ ↦ .pure _
  unfold UnitModel.initScale?
  split
  · rename_i hscaled
    have hlist : m.2.isList = false := by simpa using (Bool.and_eq_true_iff.1 hscaled).2
    have hitems : m.2 ∈ m.2.itemsOrSelf := by
      cases hv : m.2 with
      | list items =>
          rw [hv] at hlist
          cases hlist
      | _ => exact List.mem_singleton_self _
    exact typesKnown_ofDefinition?
      (htyped m (List.mem_flatMap.2 ⟨m, hm, List.mem_map.2 ⟨m.2, hitems, rfl⟩⟩))
  · exact .pure _

end Scales

/-- A unit is never refused for want of a type. In one that is built all field definitions that are
come across have a type, so that its guards are not refused for want of one either, and they are
the field definitions of its encoding in their order. -/
theorem UnitModel.typesKnown_ofSpec {parse : Shorthand.Reader}
    (hparse : Shorthand.Documented parse) (spec : Record Value) (settings : Settings)
    (name : String) :
    (∀ channel, (ofSpec spec settings name parse).outcome ≠ .error (.spec (.typeMissing channel))) ∧
      ∀ m, (ofSpec spec settings name parse).outcome = .ok m →
        m.encoding.VisitsOnly (fun fd ↦ ∃ type : FieldType, fd.type = some type) ∧
        (∀ sources channel field, (Guards.ofModel m sources).outcome ≠
          .error (.invariant (.typeMissingInFilter channel field))) ∧
        m.encoding.foldFieldDefs (fun found _ fd ↦ pure (found ++ [fd])) [] =
          (ChannelDef.fieldDefs m.encoding : Report (List FieldDef)) := by
  constructor
  · show TypesKnown (ofSpec spec settings name parse).outcome
    unfold ofSpec
    dsimp only
    split
    · exact .throw_spec fun _ ↦ Reason.noConfusion
    · refine .outcome_bind (Encoding.typesKnown_normalize hparse _) fun encoding hencoding ↦ ?_
      refine .outcome_bind (typesKnown_initScales ?_) fun _ _ ↦ .pure _
      exact Encoding.typed_of_normalize hencoding
  · intro m hm
    have htyped := Encoding.typed_of_normalize (exists_of_ofSpec hm).1
    refine ⟨?_, ?_, Encoding.foldFieldDefs_gather m.encoding⟩
    · apply Encoding.visitsOnly_of_definitions
      intro d hd fd hfd
      exact Option.isSome_iff_exists.1 ((htyped d hd).type_isSome hfd)
    · intro sources channel field
      cases hsources : sources.includesAll with
      | true =>
          rw [Guards.ofModel, hsources, if_pos rfl]
          exact Intact.ok _ _
      | false =>
          rw [Guards.outcome_ofModel m hsources]
          exact (intact_demands htyped).map _

/-- A unit with a shorthand, a list, a field in a condition, and a count. -/
def mixedUnit : Record Value :=
  [("mark", .text "point"), ("encoding", .object
    [("x", .text "mean(price):Q"),
     ("tooltip", .list
       [.text "kind", .object [("field", .text "when"), ("timeUnit", .text "year")]]),
     ("color", .object [("value", .text "gray"), ("condition", .object
       [("test", .text "datum.price > 1"), ("field", .text "kind"), ("type", .text "O")])]),
     ("y", .object [("aggregate", .text "count")])])]

theorem UnitModel.typesKnown_ofSpec_mixedUnit :
    ∃ m, (ofSpec mixedUnit).outcome = .ok m ∧
      (∀ sources channel field, (Guards.ofModel m sources).outcome ≠
        .error (.invariant (.typeMissingInFilter channel field))) ∧
      List.map FieldDef.type <$> ChannelDef.fieldDefs m.encoding =
        .ok [some .quantitative, some .nominal, some .temporal, some .ordinal,
          some .quantitative] := by
  have hrun : (do
      let m ← (ofSpec mixedUnit).outcome
      List.map FieldDef.type <$> ChannelDef.fieldDefs m.encoding) =
        .ok [some .quantitative, some .nominal, some .temporal, some .ordinal,
          some .quantitative] := by
    decide +kernel
  obtain ⟨m, hm, hrun⟩ := bind_eq_ok_iff.1 hrun
  obtain ⟨-, hbuilt⟩ := typesKnown_ofSpec Shorthand.documented_members mixedUnit {} ""
  obtain ⟨-, hguards, -⟩ := hbuilt m hm
  exact ⟨m, hm, hguards, hrun⟩

end ChartLowering
