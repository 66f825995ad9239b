import ChartLowering.Encode.Position
import ChartLowering.Proofs.InvalidData.Defects

/-!
# How invalid values of a channel are treated

The filter of invalid rows and the encoders of a channel find out on their own what to do about the
invalid values of its field. They agree: none of them does anything, or the filter guards the field,
or both encoders show something else in place of the value.
-/

namespace ChartLowering

/-- What is done about the invalid values of a field on a channel. -/
inductive Treatment where
  /-- There are none that the scale could meet. -/
  | needless
  /-- Something else is shown in their place. -/
  | shown
  /-- Their rows are filtered out. -/
  | filtered
  deriving DecidableEq, Repr

section Policies

variable {m : UnitModel} {channel : String} {fd : FieldDef} {mode : ScaleInvalidMode}

namespace UnitModel

/-- The policy of a channel for the field that is shown on it. -/
def policy (m : UnitModel) (channel : String) (fd : FieldDef) : Except Fault ScaleInvalidMode :=
  InvalidData.policy m.settings m.mark channel (m.scale? channel) (some fd)

/-- No value of the field can be invalid to the scale: it is a count, or the channel has no scale,
or one that lists its values. -/
def IsSafe (m : UnitModel) (channel : String) (fd : FieldDef) : Prop :=
  fd.isCounting = true ∨ ∀ scale, m.scale? channel = some scale →
    ∀ type ∈ ScaleInvalidMode.continuousTypes, scale.type ≠ .text type

end UnitModel

theorem ScaleInvalidMode.concerned_iff {type : Value} {counting concerned : Bool}
    (h : concerns type counting = .ok concerned) :
    concerned = true ↔ counting = false ∧ ∃ name ∈ continuousTypes, type = .text name := by
  rw [concerns] at h
  split at h
  · obtain ⟨among, hamong, h⟩ := bind_eq_ok_iff.1 h
    obtain rfl := Except.ok.inj h
    rw [Value.isAmong] at hamong
    split at hamong
    · obtain rfl := Except.ok.inj hamong
      cases type with
      | text name => cases counting <;> simp [Value.text?]
      | _ => simp [Value.text?]
    · cases hamong
  · rename_i hfalsy
    obtain rfl := Except.ok.inj h
    apply iff_of_false Bool.false_ne_true
    rintro ⟨-, name, hname, rfl⟩
    -- No type of a continuous scale is the empty text.
    have hgiven : ∀ name ∈ continuousTypes, (Value.text name).truthy = true := by decide
    exact hfalsy (hgiven name hname)

theorem MarkInvalidMode.resolve_ne_alwaysValid (mode : MarkInvalidMode) (isPath : Bool) :
    mode.resolve isPath ≠ .alwaysValid := by
  cases mode <;> cases isPath <;> decide

/-- Only what is safe is taken to be always valid. -/
theorem UnitModel.policy_eq_alwaysValid_iff (h : m.policy channel fd = .ok mode) :
    mode = .alwaysValid ↔ m.IsSafe channel fd := by
  obtain ⟨concerned, hconcerned, h⟩ := bind_eq_ok_iff.1 h
  have hiff := ScaleInvalidMode.concerned_iff hconcerned
  have hsafe : m.IsSafe channel fd ↔ concerned = false := by
    rw [← Bool.not_eq_true, hiff, IsSafe]
    cases hscale : m.scale? channel with
    | none => simp [Value.ofOption]
    | some scale =>
        cases hcounting : fd.isCounting <;> simp [Value.ofOption, hcounting]
  rw [hsafe]
  cases concerned with
  | false => exact iff_of_true (Except.ok.inj h).symm rfl
  | true =>
      apply iff_of_false _ Bool.noConfusion
      obtain ⟨given, -, h⟩ := bind_eq_ok_iff.1 h
      obtain ⟨isPath, -, h⟩ := bind_eq_ok_iff.1 h
      obtain ⟨read, -, h⟩ := bind_eq_ok_iff.1 h
      dsimp only at h
      split at h
      · obtain rfl := Except.ok.inj h
        exact ScaleInvalidMode.noConfusion
      · obtain rfl := Except.ok.inj h
        exact read.resolve_ne_alwaysValid isPath

end Policies

namespace Treatment

variable {m : UnitModel} {channel : String} {fd : FieldDef} {mode : ScaleInvalidMode}

def ofMode : ScaleInvalidMode → Treatment
  | .alwaysValid => needless
  | .show => shown
  | _ => filtered

/-- Is this what is to be done about the field on the channel? -/
def Applies (t : Treatment) (m : UnitModel) (channel : String) (fd : FieldDef) : Prop :=
  match t with
  | needless => m.IsSafe channel fd
  | shown => ¬m.IsSafe channel fd ∧ m.policy channel fd = .ok .show
  | filtered => ¬m.IsSafe channel fd ∧ ∃ mode, m.policy channel fd = .ok mode ∧ mode ≠ .show

/-- The guards after the field has been visited. -/
def guards (t : Treatment) (fd : FieldDef) (found : Guards) : Guards :=
  match t with
  | filtered => found.put fd.field fd
  | _ => found

/-- A reference that stands in for the invalid values of a field: it holds where the column of the
field is not valid, and it carries a value or an expression. -/
def StandsIn (fd : FieldDef) (ref : ValueRef) : Prop :=
  (∃ column, fd.datum = .ok column ∧
    ref.get? "test" = some (.text (Expression.validity column false))) ∧
  (ref.has "value" = true ∨ ref.has "signal" = true)

/-- The references for invalid values that an encoder adds. -/
def Overrides (t : Treatment) (fd : FieldDef) (refs : List ValueRef) : Prop :=
  match t with
  | shown => ∃ ref, refs = [ref] ∧ StandsIn fd ref
  | _ => refs = []

theorem applies_iff (h : m.policy channel fd = .ok mode) (t : Treatment) :
    t.Applies m channel fd ↔ t = ofMode mode := by
  have hsafe := m.policy_eq_alwaysValid_iff h
  cases t with
  | needless =>
      rw [Applies, ← hsafe]
      cases mode <;> decide
  | shown =>
      rw [Applies, ← hsafe, h, Except.ok.injEq]
      cases mode <;> decide
  | filtered =>
      rw [Applies, ← hsafe, h]
      simp only [Except.ok.injEq, exists_eq_left']
      cases mode <;> decide

/-- What visiting a field definition with a type does to the guards. -/
theorem visit_eq (hscaled : Channel.isScaled channel = true) (htype : fd.type.isSome = true)
    (h : m.policy channel fd = .ok mode) (found : Guards) :
    Guards.visit m found channel fd = pure ((ofMode mode).guards fd found) := by
  rw [Guards.visit, if_pos hscaled]
  rw [UnitModel.policy] at h
  cases hscale : m.scale? channel with
  | none =>
      rw [hscale] at h
      obtain rfl := Except.ok.inj h
      rfl
  | some scale =>
      rw [hscale] at h
      dsimp only
      rw [h, Report.lift_ok, pure_bind, htype]
      cases mode <;> rfl

section Substitutes

variable {settings : Settings} {mark : MarkDef} {name : String} {scale : Scale} {v : Value}
  {ref : Option ValueRef}

/-- The references that invalid values can be replaced by: an expression, a literal, or a literal
through a scale. -/
def IsSubstitute (ref : ValueRef) : Prop :=
  (∃ v, ref = [("signal", v)]) ∨ (∃ v, ref = [("value", v)]) ∨
    ∃ name v, ref = [("scale", name), ("value", v)]

theorem exists_of_zeroOrEnd {stop : DomainEnd} (hname : name ≠ "")
    (h : ValueRef.zeroOrEnd (some name) (some scale) stop = .ok ref) :
    ∃ r, ref = some r ∧ IsSubstitute r := by
  have hfilter : (some name).filter (· != "") = some name := by simpa using hname
  unfold ValueRef.zeroOrEnd at h
  rw [hfilter] at h
  obtain ⟨zero, -, h⟩ := bind_eq_ok_iff.1 h
  cases zero with
  | definitely =>
      obtain rfl := Except.ok.inj h
      exact ⟨_, rfl, .inr (.inr ⟨_, _, rfl⟩)⟩
  | maybe | definitelyNot =>
      obtain rfl := Except.ok.inj h
      exact ⟨_, rfl, .inl ⟨_, rfl⟩⟩

/-- A channel whose scale has a name always has something to show for invalid values. -/
theorem exists_of_substitute (hname : name ≠ "")
    (h : InvalidData.substitute settings channel (some name) (some scale) = .ok ref) :
    ∃ r, ref = some r ∧ IsSubstitute r := by
  rw [InvalidData.substitute] at h
  split at h
  · split at h
    · obtain rfl := Except.ok.inj h
      exact ⟨_, rfl, .inl ⟨_, rfl⟩⟩
    · obtain rfl := Except.ok.inj h
      exact ⟨_, rfl, .inr (.inl ⟨_, rfl⟩)⟩
  · exact exists_of_zeroOrEnd hname h

theorem standsIn_of_isSubstitute {column : String} {r : ValueRef} (hcolumn : fd.datum = .ok column)
    (h : IsSubstitute r) :
    StandsIn fd (Record.override [("test", .text (Expression.isNotFinite column))] r) := by
  rcases h with ⟨v, rfl⟩ | ⟨v, rfl⟩ | ⟨name, v, rfl⟩
  · exact ⟨⟨column, hcolumn, rfl⟩, .inr rfl⟩
  · exact ⟨⟨column, hcolumn, rfl⟩, .inl rfl⟩
  · exact ⟨⟨column, hcolumn, rfl⟩, .inl rfl⟩

end Substitutes

section Encoders

/-- Every scale of a unit has a name, after its channel if not after the view. -/
theorem name_ne_empty {spec : Record Value} {settings : Settings} {name : String}
    {parse : Shorthand.Reader} {scale : Scale}
    (hm : (UnitModel.ofSpec spec settings name parse).outcome = .ok m)
    (hscaled : Channel.isScaled channel = true) (hscale : m.scale? channel = some scale) :
    scale.name ≠ "" := by
  obtain ⟨-, hscales⟩ := UnitModel.exists_of_ofSpec hm
  obtain ⟨v, -, -, hdef⟩ := UnitModel.exists_of_scale? hscales hscale
  have hname : scale.name = UnitModel.scaleName name channel := by
    rw [Scale.ofDefinition?] at hdef
    split at hdef
    · rw [Scale.ofMembers] at hdef
      split at hdef
      · cases hdef
      · obtain ⟨_, -, hdef⟩ := bind_eq_ok_iff.1 hdef
        obtain ⟨_, -, hdef⟩ := bind_eq_ok_iff.1 hdef
        obtain ⟨_, -, hdef⟩ := bind_eq_ok_iff.1 hdef
        obtain ⟨_, -, hdef⟩ := bind_eq_ok_iff.1 hdef
        obtain rfl := Option.some.inj (Except.ok.inj hdef)
        rfl
    · cases hdef
  rw [hname, UnitModel.scaleName]
  split
  · rintro rfl
    revert hscaled
    decide
  · intro hempty
    rw [String.append_eq_empty_iff] at hempty
    simp at hempty

/-- What the encoders add for invalid values is what the policy of the channel says. -/
theorem overrides_of_invalidOverride? {spec : Record Value} {settings : Settings} {name : String}
    {parse : Shorthand.Reader} {invalid : Option ValueRef}
    (hm : (UnitModel.ofSpec spec settings name parse).outcome = .ok m)
    (hscaled : Channel.isScaled channel = true)
    (hfd : ChannelDef.fieldDef? (m.definition channel) = .ok (some fd))
    (h : m.invalidOverride? channel = .ok invalid) :
    ∃ mode, m.policy channel fd = .ok mode ∧ (ofMode mode).Overrides fd invalid.toList := by
  rw [UnitModel.invalidOverride?, InvalidData.override?, hfd] at h
  obtain ⟨found, hfound, h⟩ := bind_eq_ok_iff.1 h
  obtain rfl := Except.ok.inj hfound
  obtain ⟨mode, hmode, h⟩ := bind_eq_ok_iff.1 h
  refine ⟨mode, hmode, ?_⟩
  dsimp only at h
  split at h
  · rename_i hshow
    subst hshow
    obtain ⟨ref, href, h⟩ := bind_eq_ok_iff.1 h
    obtain ⟨column, hcolumn, h⟩ := bind_eq_ok_iff.1 h
    obtain rfl := Except.ok.inj h
    cases hscale : m.scale? channel with
    | none =>
        -- A channel without a scale shows nothing for invalid values.
        rw [hscale] at hmode
        cases hmode
    | some scale =>
        rw [UnitModel.scaleName?, hscale] at href
        obtain ⟨r, rfl, hr⟩ := exists_of_substitute (name_ne_empty hm hscaled hscale) href
        exact ⟨_, rfl, standsIn_of_isSubstitute hcolumn hr⟩
  · rename_i hshow
    obtain rfl := Except.ok.inj h
    cases mode <;> first | rfl | exact (hshow rfl).elim

end Encoders

end Treatment

section References

variable {c : ValueRef.Context} {v : Value} {ref : ValueRef}

theorem ValueRef.has_test_moved (offset : Value) :
    (moved offset ref).has "test" = Record.has ref "test" := by
  rw [moved]
  split
  · exact Record.has_put_of_ne (by decide)
  · rfl

theorem ValueRef.has_test_throughScale (scale : Option String) :
    (throughScale scale ref).has "test" = Record.has ref "test" := by
  unfold throughScale
  split <;> rfl

theorem ValueRef.has_test_ofField {scale : Option String} {fd : FieldDef} {suffix : Option String}
    {offset : Value} (h : ofField scale fd suffix offset = .ok ref) : ref.has "test" = false := by
  obtain ⟨path, -, h⟩ := bind_eq_ok_iff.1 h
  obtain rfl := Except.ok.inj h
  rw [has_test_moved, has_test_throughScale]
  rfl

theorem ValueRef.has_test_ofDefinition {scale suffix : Option String} {offset : Value}
    (h : ofDefinition scale v suffix offset = .ok ref) : ref.has "test" = false := by
  rw [ofDefinition] at h
  split at h
  · obtain rfl := Except.ok.inj h
    rw [ofDatum, has_test_moved, has_test_throughScale]
    split <;> rfl
  · obtain ⟨found, -, h⟩ := bind_eq_ok_iff.1 h
    cases found with
    | none => cases h
    | some fd => exact has_test_ofField h

theorem ValueRef.has_test_interpolated {scale : Option String} {fd : FieldDef}
    {band offset : Value} (h : interpolated scale fd band offset = .ok ref) :
    ref.has "test" = false := by
  rw [interpolated] at h
  split at h
  · cases h
  · obtain ⟨start, -, h⟩ := bind_eq_ok_iff.1 h
    obtain ⟨stop, -, h⟩ := bind_eq_ok_iff.1 h
    dsimp only at h
    split at h
    · obtain rfl := Except.ok.inj h
      exact has_test_moved offset
    · split at h
      · obtain rfl := Except.ok.inj h
        exact has_test_moved offset
      · obtain ⟨text, -, h⟩ := bind_eq_ok_iff.1 h
        obtain rfl := Except.ok.inj h
        exact has_test_moved offset

theorem ValueRef.has_test_ofBand {fd : FieldDef} {band : Value}
    (h : ofBand c fd band = .ok ref) : ref.has "test" = false := by
  have hcases (interpolates : Bool)
      (h : (if interpolates then interpolated c.scaleName fd band c.offset
        else ofField c.scaleName fd
          (if Lifted.needsRange fd c.channel then some "range" else none) c.offset) = .ok ref) :
      ref.has "test" = false := by
    cases interpolates with
    | true => exact has_test_interpolated h
    | false => exact has_test_ofField h
  rw [ofBand] at h
  split at h
  · obtain ⟨interpolates, -, h⟩ := bind_eq_ok_iff.1 h
    exact hcases interpolates h
  · exact hcases false h

/-- What a field or a datum is shown by has no test. -/
theorem ValueRef.has_test_ofShown (h : ofShown c v = .ok ref) : ref.has "test" = false := by
  have hplain (h : (do
      let suffix := if ← isDiscrete c.scale then some "range" else none
      ofDefinition c.scaleName v suffix c.offset) = .ok ref) : ref.has "test" = false := by
    obtain ⟨discrete, -, h⟩ := bind_eq_ok_iff.1 h
    exact has_test_ofDefinition h
  obtain ⟨found, -, h⟩ := bind_eq_ok_iff.1 h
  cases found with
  | none => exact hplain h
  | some fd =>
      have hband (band : Value) (h : (if banded fd band then ofBand c fd band else do
          let suffix := if ← isDiscrete c.scale then some "range" else none
          ofDefinition c.scaleName v suffix c.offset) = .ok ref) : ref.has "test" = false := by
        split at h
        · exact has_test_ofBand h
        · exact hplain h
      dsimp only at h
      split at h
      · split at h
        · obtain ⟨band, -, h⟩ := bind_eq_ok_iff.1 h
          exact hband band h
        · exact hband c.band h
      · exact hplain h

theorem ValueRef.midPoint_of_isFieldDef {default : Except Fault (Option ValueRef)}
    (h : ChannelDef.isFieldDef v = true) : midPoint c v default = some <$> ofShown c v := by
  rw [midPoint, h, Bool.true_or, if_pos rfl]
  exact bind_pure_comp some (ofShown c v)

end References

namespace Encode

variable {drawn : String} {main : Value → Except Fault (Option ValueRef)} {refs : List ValueRef}

/-- References as the value of an entry, one of them by itself. -/
def shownAs (refs : List ValueRef) : Value :=
  match refs with
  | [ref] => .object ref
  | refs => .list (refs.map .object)

theorem entry_append_singleton {ref : ValueRef} (h : ref.has "test" = false) :
    entry drawn (refs ++ [ref]) = [(drawn, shownAs (refs ++ [ref]))] := by
  cases refs with
  | nil =>
      have hget : Record.get? ref "test" = none := by
        rw [Record.has_eq_isSome] at h
        exact Option.not_isSome_iff_eq_none.1 (by simp [h])
      have htested : isTested ref = false := by
        rw [isTested, Record.value, hget]
        rfl
      rw [List.nil_append, entry, htested, if_neg Bool.false_ne_true]
      rfl
  | cons first rest => cases rest <;> rfl

/-- A reference with the test of a condition in front. -/
def IsTestOf (c : Value) (ref : ValueRef) : Prop :=
  ∃ test text own, c.require "test" = .ok test ∧ Predicate.text test = .ok text ∧
    ref = Record.override [("test", .text text)] own

theorem forall₂_isTestOf {conditions : List Value} {found : List (Option ValueRef)}
    (h : (conditions.mapM (ofCondition drawn main)).outcome = .ok found) :
    List.Forall₂ IsTestOf (conditions.filter fun c ↦ c.mentions "param" matches .ok false)
      (found.filterMap id) := by
  rw [Report.outcome_mapM, mapM_eq_ok_iff] at h
  induction h with
  | nil => exact .nil
  | @cons c kept _ _ hc _ ih =>
      obtain ⟨isParameter, hparam, hc⟩ := Report.outcome_bind_eq_ok_iff.1 hc
      have hparam : c.mentions "param" = .ok isParameter := hparam
      cases isParameter with
      | true =>
          obtain rfl := Except.ok.inj hc
          rw [List.filter_cons_of_neg (by simp [hparam])]
          exact ih
      | false =>
          obtain ⟨own, -, hc⟩ := Report.outcome_bind_eq_ok_iff.1 hc
          obtain ⟨test, htest, hc⟩ := Report.outcome_bind_eq_ok_iff.1 hc
          obtain ⟨text, htext, hc⟩ := Report.outcome_bind_eq_ok_iff.1 hc
          obtain rfl := Except.ok.inj hc
          rw [List.filter_cons_of_pos (by simp [hparam])]
          exact .cons ⟨test, text, _, htest, htext, rfl⟩ ih

end Encode

namespace UnitModel

variable {m : UnitModel} {channel : String} {fd : FieldDef} {invalid : Option ValueRef}
  {main : ValueRef} {drawn : Option String}

/-- One of the two encoders can draw the channel. -/
def IsDrawn (m : UnitModel) (channel : String) : Prop :=
  (∃ position drawn placed, m.pointPosition channel position drawn = .ok placed) ∨
    ∃ fallback drawn entry, (m.nonPosition channel fallback drawn).outcome = .ok entry

/-- The references for the conditions of a channel, those on parameters left out. -/
def AreTested (m : UnitModel) (channel : String) (refs : List ValueRef) : Prop :=
  ∃ conditions, Encode.conditions (m.definition channel) = .ok conditions ∧
    List.Forall₂ Encode.IsTestOf
      (conditions.filter fun c ↦ c.mentions "param" matches .ok false) refs

theorem pointPosition_eq_ok {position : DefaultPosition} {placed : Record Value}
    (hfield : ChannelDef.isFieldDef (m.definition channel) = true)
    (h : m.pointPosition channel position drawn = .ok placed) :
    ∃ main invalid, ValueRef.ofShown (m.context channel) (m.definition channel) = .ok main ∧
      m.invalidOverride? channel = .ok invalid ∧
      placed = [(MarkDef.drawnName channel drawn,
        Encode.shownAs (invalid.toList ++ [main]))] := by
  obtain ⟨shown, hshown, h⟩ := bind_eq_ok_iff.1 h
  rw [ValueRef.midPoint_of_isFieldDef hfield, ← bind_pure_comp] at hshown
  obtain ⟨main, hmain, hshown⟩ := bind_eq_ok_iff.1 hshown
  obtain rfl := Except.ok.inj hshown
  obtain ⟨invalid, hinvalid, h⟩ := bind_eq_ok_iff.1 h
  obtain rfl := Except.ok.inj h
  refine ⟨main, invalid, hmain, hinvalid, ?_⟩
  cases invalid <;> rfl

theorem nonPosition_eq_ok {fallback : Fallback} {entry : Record Value}
    (hfield : ChannelDef.isFieldDef (m.definition channel) = true)
    (h : (m.nonPosition channel fallback drawn).outcome = .ok entry) :
    ∃ main invalid tested, ValueRef.ofShown (m.context channel) (m.definition channel) = .ok main ∧
      m.invalidOverride? channel = .ok invalid ∧ m.AreTested channel tested ∧
      entry = [(MarkDef.drawnName channel drawn,
        Encode.shownAs (tested ++ invalid.toList ++ [main]))] := by
  obtain ⟨default, -, h⟩ := Report.outcome_bind_eq_ok_iff.1 h
  obtain ⟨invalid, hinvalid, h⟩ := Report.outcome_bind_eq_ok_iff.1 h
  obtain ⟨conditions, hconditions, h⟩ := Report.outcome_bind_eq_ok_iff.1 h
  obtain ⟨found, hfound, h⟩ := Report.outcome_bind_eq_ok_iff.1 h
  obtain ⟨own, hown, h⟩ := Report.outcome_bind_eq_ok_iff.1 h
  dsimp only [Report.outcome_lift] at hown
  rw [ValueRef.midPoint_of_isFieldDef hfield, ← bind_pure_comp] at hown
  obtain ⟨main, hmain, hown⟩ := bind_eq_ok_iff.1 hown
  obtain rfl := Except.ok.inj hown
  obtain rfl := Except.ok.inj h
  refine ⟨main, invalid, found.filterMap id, hmain, hinvalid,
    ⟨conditions, hconditions, Encode.forall₂_isTestOf hfound⟩, ?_⟩
  exact Encode.entry_append_singleton (ValueRef.has_test_ofShown hmain)

theorem isFieldDef_of_fieldDef?
    (hfd : ChannelDef.fieldDef? (m.definition channel) = .ok (some fd)) :
    ChannelDef.isFieldDef (m.definition channel) = true := by
  by_contra hno
  rw [ChannelDef.fieldDef?, if_neg hno] at hfd
  cases hfd

theorem anyFieldDef?_of_fieldDef?
    (hfd : ChannelDef.fieldDef? (m.definition channel) = .ok (some fd)) :
    ChannelDef.anyFieldDef? (m.definition channel) = .ok (some fd) := by
  rw [ChannelDef.anyFieldDef?, hfd]
  rfl

/-- A definition that is a field definition is gone through by itself. -/
theorem exists_definitions_eq (hfield : ChannelDef.isFieldDef (m.definition channel) = true) :
    ∃ before after, m.encoding = before ++ (channel, m.definition channel) :: after ∧
      m.encoding.definitions = Encoding.definitions before ++
        (channel, m.definition channel) :: Encoding.definitions after := by
  have hget : m.encoding.get? channel = some (m.definition channel) := by
    refine Record.get?_of_value rfl fun hnull ↦ ?_
    rw [hnull] at hfield
    cases hfield
  have hself : (m.definition channel).itemsOrSelf = [m.definition channel] := by
    cases hdef : m.definition channel with
    | list =>
        rw [hdef] at hfield
        cases hfield
    | _ => rfl
  obtain ⟨before, after, hsplit⟩ := List.append_of_mem (Record.mem_of_get? hget)
  refine ⟨before, after, hsplit, ?_⟩
  rw [hsplit, Encoding.definitions, List.flatMap_append, List.flatMap_cons, hself]
  rfl

theorem ofModel_eq {sources : DataSources} (hsources : sources.includesAll = false)
    (hfd : ChannelDef.fieldDef? (m.definition channel) = .ok (some fd)) :
    ∃ before after, m.encoding = before ++ (channel, m.definition channel) :: after ∧
      Guards.ofModel m sources = (do
        let found ← Encoding.foldFieldDefs before (Guards.visit m) []
        let found ← Guards.visit m found channel fd
        Encoding.foldFieldDefs after (Guards.visit m) found) := by
  obtain ⟨before, after, hsplit, hdefinitions⟩ :=
    exists_definitions_eq (isFieldDef_of_fieldDef? hfd)
  refine ⟨before, after, hsplit, ?_⟩
  rw [Guards.ofModel, hsources, if_neg Bool.false_ne_true, Encoding.foldFieldDefs, hdefinitions,
    List.foldlM_append]
  simp only [List.foldlM_cons, anyFieldDef?_of_fieldDef? hfd, Report.lift_ok, pure_bind]
  rfl

end UnitModel

namespace Treatment

/-- The filter and both encoders treat a field definition this way. The encoders put what stands
in for invalid values after the references for conditions and right before the one for the field
itself, which has no test. -/
structure IsTaken (t : Treatment) (m : UnitModel) (channel : String) (fd : FieldDef)
    (sources : DataSources) : Prop where
  applies : t.Applies m channel fd
  guarded : ∃ before after, m.encoding = before ++ (channel, m.definition channel) :: after ∧
    Guards.ofModel m sources = (do
      let found ← Encoding.foldFieldDefs before (Guards.visit m) []
      Encoding.foldFieldDefs after (Guards.visit m) (t.guards fd found))
  drawn : ∃ overrides main, t.Overrides fd overrides ∧ main.has "test" = false ∧
    ValueRef.ofShown (m.context channel) (m.definition channel) = .ok main ∧
    (∀ position drawn placed, m.pointPosition channel position drawn = .ok placed →
      placed = [(MarkDef.drawnName channel drawn, Encode.shownAs (overrides ++ [main]))]) ∧
    ∀ fallback drawn entry, (m.nonPosition channel fallback drawn).outcome = .ok entry →
      ∃ tested, m.AreTested channel tested ∧ entry =
        [(MarkDef.drawnName channel drawn, Encode.shownAs (tested ++ overrides ++ [main]))]

/-- There is one treatment of a field that the filter and both encoders take. -/
theorem existsUnique_isTaken {spec : Record Value} {settings : Settings} {name channel : String}
    {parse : Shorthand.Reader} {m : UnitModel} {fd : FieldDef} {sources : DataSources}
    (hm : (UnitModel.ofSpec spec settings name parse).outcome = .ok m)
    (hscaled : Channel.isScaled channel = true)
    (hfd : ChannelDef.fieldDef? (m.definition channel) = .ok (some fd))
    (hsources : sources.includesAll = false) (hdrawn : m.IsDrawn channel) :
    ∃! t : Treatment, t.IsTaken m channel fd sources := by
  have hfield := m.isFieldDef_of_fieldDef? hfd
  obtain ⟨main, invalid, hmain, hinvalid⟩ : ∃ main invalid,
      ValueRef.ofShown (m.context channel) (m.definition channel) = .ok main ∧
        m.invalidOverride? channel = .ok invalid := by
    rcases hdrawn with ⟨position, drawn, placed, h⟩ | ⟨fallback, drawn, entry, h⟩
    · obtain ⟨main, invalid, hmain, hinvalid, -⟩ := m.pointPosition_eq_ok hfield h
      exact ⟨main, invalid, hmain, hinvalid⟩
    · obtain ⟨main, invalid, -, hmain, hinvalid, -⟩ := m.nonPosition_eq_ok hfield h
      exact ⟨main, invalid, hmain, hinvalid⟩
  obtain ⟨mode, hmode, hoverrides⟩ := overrides_of_invalidOverride? hm hscaled hfd hinvalid
  have htype : fd.type.isSome = true := by
    obtain ⟨before, after, -, hdefinitions⟩ := m.exists_definitions_eq hfield
    have hmem : (channel, m.definition channel) ∈ m.encoding.definitions := by
      rw [hdefinitions]
      exact List.mem_append_right _ List.mem_cons_self
    have htyped := Encoding.typed_of_normalize (UnitModel.exists_of_ofSpec hm).1 _ hmem
    exact htyped.type_isSome (m.anyFieldDef?_of_fieldDef? hfd)
  refine ⟨ofMode mode, ⟨(applies_iff hmode _).2 rfl, ?_, ?_⟩,
    fun t ht ↦ (applies_iff hmode t).1 ht.applies⟩
  · obtain ⟨before, after, hsplit, hguards⟩ := m.ofModel_eq hsources hfd
    refine ⟨before, after, hsplit, hguards.trans ?_⟩
    simp only [visit_eq hscaled htype hmode]
    rfl
  · refine ⟨invalid.toList, main, hoverrides, ValueRef.has_test_ofShown hmain, hmain, ?_, ?_⟩
    · intro position drawn placed h
      obtain ⟨_, _, hmain', hinvalid', rfl⟩ := m.pointPosition_eq_ok hfield h
      obtain rfl := Except.ok.inj (hmain.symm.trans hmain')
      obtain rfl := Except.ok.inj (hinvalid.symm.trans hinvalid')
      rfl
    · intro fallback drawn entry h
      obtain ⟨_, _, tested, hmain', hinvalid', htested, rfl⟩ := m.nonPosition_eq_ok hfield h
      obtain rfl := Except.ok.inj (hmain.symm.trans hmain')
      obtain rfl := Except.ok.inj (hinvalid.symm.trans hinvalid')
      exact ⟨tested, htested, rfl⟩

/-- Points in the color of a measurement, but red where it is high. -/
def measuredColor : Record Value :=
  [("mark", .text "point"), ("encoding", .object
    [("x", .text "a:Q"), ("color", .object [("field", .text "b"), ("type", .text "quantitative"),
      ("condition", .object [("test", .text "datum.b > 9"), ("value", .text "red")])])])]

/-- Settings by which invalid values are shown in grey. -/
def greyInvalid : Settings :=
  { scale := { invalid := some [("color", .object [("value", .text "grey")])] } }

theorem existsUnique_isTaken_measuredColor :
    ∃ m fd, (UnitModel.ofSpec measuredColor greyInvalid).outcome = .ok m ∧
      ChannelDef.fieldDef? (m.definition "color") = .ok (some fd) ∧ m.IsDrawn "color" ∧
      (∃! t : Treatment, t.IsTaken m "color" fd ⟨.exclude, .exclude⟩) ∧
      shown.IsTaken m "color" fd ⟨.exclude, .exclude⟩ := by
  have hrun : (do
      let m ← (UnitModel.ofSpec measuredColor greyInvalid).outcome
      let fd ← ChannelDef.fieldDef? (m.definition "color")
      let entry ← (m.nonPosition "color").outcome
      pure (fd.map fun fd ↦ (m.policy "color" fd).toOption, entry.length)) =
        .ok (some (some .show), 1) := by
    decide +kernel
  obtain ⟨m, hm, hrun⟩ := bind_eq_ok_iff.1 hrun
  obtain ⟨found, hfd, hrun⟩ := bind_eq_ok_iff.1 hrun
  obtain ⟨entry, hentry, hrun⟩ := bind_eq_ok_iff.1 hrun
  obtain ⟨fd, rfl, hmode⟩ := Option.map_eq_some_iff.1 (Prod.mk.inj (Except.ok.inj hrun)).1
  have hpolicy : m.policy "color" fd = .ok .show := by
    cases h : m.policy "color" fd with
    | error fault =>
        rw [h] at hmode
        cases hmode
    | ok mode =>
        rw [h] at hmode
        exact congrArg _ (Option.some.inj hmode)
  have hdrawn : m.IsDrawn "color" := .inr ⟨_, _, entry, hentry⟩
  have hunique : ∃! t : Treatment, t.IsTaken m "color" fd ⟨.exclude, .exclude⟩ :=
    existsUnique_isTaken hm (by decide) hfd (by decide) hdrawn
  obtain ⟨t, ht, -⟩ := id hunique
  obtain rfl : t = shown := (applies_iff hpolicy t).1 ht.applies
  exact ⟨m, fd, hm, hfd, hdrawn, hunique, ht⟩

end Treatment

end ChartLowering
