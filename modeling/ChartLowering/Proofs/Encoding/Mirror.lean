import ChartLowering.Proofs.Encoding.Lifting
import ChartLowering.Proofs.Value.Convert

/-!
# Mirrored encodings

An encoding with x and y exchanged is brought into normal form, and lifted, just as the one that it
mirrors: nothing is decided by which of the two axes a definition is on.
-/

namespace ChartLowering

namespace Channel

/-- The channel on the other axis. -/
def mirror : String → String
  | "x" => "y"
  | "y" => "x"
  | "x2" => "y2"
  | "y2" => "x2"
  | channel => channel

theorem mirror_cases (channel : String) :
    channel ∈ ["x", "y", "x2", "y2"] ∨ mirror channel = channel := by
  unfold mirror
  split
  · exact .inl (by decide)
  · exact .inl (by decide)
  · exact .inl (by decide)
  · exact .inl (by decide)
  · exact .inr rfl

/-- What holds of the four channels of the axes holds of all, if it says no more than that a channel
is treated like its mirror image. -/
theorem alike_mirror {α : Type} {f : String → α}
    (h : ∀ channel ∈ ["x", "y", "x2", "y2"], f (mirror channel) = f channel) (channel : String) :
    f (mirror channel) = f channel := by
  obtain haxis | hother := mirror_cases channel
  · exact h channel haxis
  · rw [hother]

theorem mirror_mirror (channel : String) : mirror (mirror channel) = channel := by
  obtain haxis | hother := mirror_cases channel
  · revert channel
    decide
  · rw [hother, hother]

theorem mirror_injective : Function.Injective mirror :=
  Function.LeftInverse.injective mirror_mirror

theorem isNonPosition_mirror (channel : String) :
    isNonPosition (mirror channel) = isNonPosition channel :=
  alike_mirror (by decide) channel

theorem isScaled_mirror (channel : String) : isScaled (mirror channel) = isScaled channel :=
  alike_mirror (by decide) channel

theorem isXOrY_mirror (channel : String) : isXOrY (mirror channel) = isXOrY channel :=
  alike_mirror (by decide) channel

theorem secondary_mirror (channel : String) :
    secondary.contains (mirror channel) = secondary.contains channel :=
  alike_mirror (f := secondary.contains) (by decide) channel

/-- The channel that ends a range lies on the same axis. -/
theorem mirror_append_two {channel : String} (h : isXOrY channel = true) :
    mirror (channel ++ "2") = mirror channel ++ "2" := by
  rw [isXOrY, Bool.or_eq_true, beq_iff_eq, beq_iff_eq] at h
  obtain rfl | rfl := h
  · rfl
  · rfl

end Channel

namespace Encoding

section Normal

variable (channel : String) {parse : Shorthand.Reader}

theorem defaultType_mirror (members : Record Value) :
    defaultType members (Channel.mirror channel) = defaultType members channel := by
  have hplace := Channel.alike_mirror
    (f := ["latitude", "longitude", "latitude2", "longitude2"].contains) (by decide) channel
  rw [defaultType, defaultType, hplace]

theorem spelledBin_mirror (bin : Value) :
    spelledBin (Channel.mirror channel) bin = spelledBin channel bin := by
  rw [spelledBin, spelledBin, Channel.isNonPosition_mirror]

theorem typeOf_mirror (members : Record Value) :
    (typeOf (Channel.mirror channel) members).toOption = (typeOf channel members).toOption := by
  rw [typeOf, typeOf]
  split
  · rw [defaultType_mirror]
  · split <;> rfl

theorem spellField_mirror (members : Record Value) :
    (spellField (Channel.mirror channel) members).toOption =
      (spellField channel members).toOption := by
  simp only [spellField, toOption_bind, typeOf_mirror, spelledBin_mirror]

theorem spellCondition_mirror (condition : Value) :
    (spellCondition (Channel.mirror channel) condition).toOption =
      (spellCondition channel condition).toOption := by
  rw [spellCondition, spellCondition, toOption_bind, toOption_bind]
  congr 1
  funext members
  split
  · rw [toOption_bind, toOption_bind, spellField_mirror]
  · rfl

theorem rawMembers_mirror (v : Value) :
    (rawMembers (Channel.mirror channel) v parse).toOption =
      (rawMembers channel v parse).toOption := by
  cases v <;> rfl

theorem spelledMembers_mirror (v : Value) :
    (spelledMembers (Channel.mirror channel) v parse).toOption =
      (spelledMembers channel v parse).toOption := by
  rw [spelledMembers, spelledMembers, toOption_bind, toOption_bind, rawMembers_mirror]

theorem spellConditions_mirror (members : Record Value) :
    (spellConditions (Channel.mirror channel) members).toOption =
      (spellConditions channel members).toOption := by
  rw [spellConditions, spellConditions]
  split
  · simp only [toOption_bind, toOption_mapM, spellCondition_mirror]
  · split
    · rw [toOption_bind, toOption_bind, spellCondition_mirror]
    · rfl
  · rfl

theorem normalizeDef_mirror (v : Value) :
    (normalizeDef (Channel.mirror channel) v parse).result =
      (normalizeDef channel v parse).result := by
  rw [normalizeDef, normalizeDef, Report.result_bind, Report.result_bind, Report.result_lift,
    Report.result_lift, spelledMembers_mirror]
  congr 1
  funext members
  split
  · rw [Report.result_bind, Report.result_bind, Report.result_lift, Report.result_lift,
      spellField_mirror]
  · rw [Report.result_bind, Report.result_bind, Report.result_lift, Report.result_lift,
      spellConditions_mirror]
    congr 1
    funext spelled
    split <;> rfl

theorem normalizeChannel_mirror (v : Value) :
    (normalizeChannel (Channel.mirror channel) v parse).result =
      (normalizeChannel channel v parse).result := by
  unfold normalizeChannel
  split
  · rfl
  · simp only [Report.result_bind, Report.result_mapM, normalizeDef_mirror]
  · exact normalizeDef_mirror channel _

end Normal

/-- The encoding with x and y exchanged, also where they end a range. -/
def mirrored (encoding : Encoding) : Encoding :=
  Record.convert Channel.mirror (fun _ v ↦ v) encoding

/-- An encoding as a specification has it, mirrored if it is one at all. -/
def mirroredValue : Value → Value
  | .object members => .object (mirrored members)
  | v => v

section Members

variable (encoding : Encoding) (channel : String)

theorem get?_mirrored : (mirrored encoding).get? (Channel.mirror channel) = encoding.get? channel :=
  (Record.get?_convert Channel.mirror_injective encoding channel).trans Option.map_id'

theorem value_mirrored :
    (mirrored encoding).value (Channel.mirror channel) = encoding.value channel := by
  rw [Record.value, Record.value, get?_mirrored]

theorem has_mirrored : (mirrored encoding).has (Channel.mirror channel) = encoding.has channel :=
  Record.has_convert Channel.mirror_injective encoding channel

theorem put_mirrored (v : Value) :
    (mirrored encoding).put (Channel.mirror channel) v = mirrored (encoding.put channel v) :=
  Record.put_convert (g := fun _ v ↦ v) Channel.mirror_injective encoding channel v

theorem erase_mirrored :
    (mirrored encoding).erase (Channel.mirror channel) = mirrored (encoding.erase channel) :=
  Record.erase_convert Channel.mirror_injective encoding channel

theorem override_mirrored (more : Encoding) :
    (mirrored encoding).override (mirrored more) = mirrored (encoding.override more) :=
  Record.override_convert Channel.mirror_injective encoding more

theorem mirrored_append (more : Encoding) :
    mirrored (encoding ++ more) = mirrored encoding ++ mirrored more :=
  Record.convert_append encoding more

theorem fieldDefs_mirrored : ChannelDef.fieldDefs (mirrored encoding) =
    ChannelDef.fieldDefs encoding := by
  rw [ChannelDef.fieldDefs, ChannelDef.fieldDefs, mirrored, Record.convert, List.flatMap_map]

end Members

theorem normalizeMembers_mirrored (members : Record Value) (parse : Shorthand.Reader) :
    (normalizeMembers (mirrored members) parse).result =
      (normalizeMembers members parse).result.map mirrored := by
  induction members with
  | nil => rfl
  | cons m rest ih =>
      obtain ⟨channel, v⟩ := m
      have hcons : mirrored ((channel, v) :: rest) = (Channel.mirror channel, v) :: mirrored rest :=
        rfl
      rw [hcons, normalizeMembers, normalizeMembers]
      simp only [Report.result_bind, Report.result_pure, normalizeChannel_mirror, ih]
      rcases (normalizeChannel channel v parse).result with _ | _ | kept
      · rfl
      · rcases (normalizeMembers rest parse).result with _ | rest <;> rfl
      · rcases (normalizeMembers rest parse).result with _ | rest <;> rfl

theorem normalize_mirroredValue (v : Value) (parse : Shorthand.Reader) :
    (normalize (mirroredValue v) parse).result = (normalize v parse).result.map mirrored := by
  have hother : ∀ v : Value, v.members.toOption = none →
      (normalize v parse).result = (normalize v parse).result.map mirrored := by
    intro v hnone
    rw [normalize]
    split
    · rw [Report.result_bind, Report.result_lift, hnone]
      rfl
    · rfl
  cases v with
  | object members =>
      cases members with
      | nil => rfl
      | cons m rest => exact normalizeMembers_mirrored (m :: rest) parse
  | _ => exact hother _ rfl

end Encoding

namespace Lifted

variable (channel : String) (fd : FieldDef)

theorem needsRange_mirror : needsRange fd (Channel.mirror channel) = needsRange fd channel := by
  rw [needsRange, needsRange, Channel.isScaled_mirror]

theorem ofBin_mirror (bin : Binning) (output : String) (members : Record Value) :
    ofBin (Channel.mirror channel) fd bin output members = ofBin channel fd bin output members := by
  rw [ofBin, ofBin, needsRange_mirror, Channel.secondary_mirror, Channel.isXOrY_mirror]

theorem formatted_mirror (members : Record Value) :
    formatted (Channel.mirror channel) members = formatted channel members := by
  have htext : (Channel.mirror channel == "text" || Channel.mirror channel == "tooltip") =
      (channel == "text" || channel == "tooltip") :=
    Channel.alike_mirror (f := fun channel ↦ channel == "text" || channel == "tooltip")
      (by decide) channel
  rw [formatted, formatted, htext, Channel.isNonPosition_mirror, Channel.isXOrY_mirror]

theorem ofTimeUnit_mirror (unit : Operation) (output : String) (members : Record Value) :
    ofTimeUnit (Channel.mirror channel) fd unit output members =
      ofTimeUnit channel fd unit output members := by
  rw [ofTimeUnit, ofTimeUnit, formatted_mirror]

theorem ofDef_mirror (countTitle : String) (v : Value) :
    ofDef countTitle (Channel.mirror channel) v = ofDef countTitle channel v := by
  have hbin : ofBin (Channel.mirror channel) = ofBin channel := by
    funext fd bin output members
    exact ofBin_mirror channel fd bin output members
  have hunit : ofTimeUnit (Channel.mirror channel) = ofTimeUnit channel := by
    funext fd unit output members
    exact ofTimeUnit_mirror channel fd unit output members
  rw [ofDef, ofDef]
  congr 1
  funext found
  cases found with
  | none => rfl
  | some fd =>
      dsimp only
      rw [ofFieldDef, ofFieldDef, hbin, hunit]

variable {channel fd}

/-- Only bins on one of the two axes are given an end. -/
theorem isXOrY_of_secondary {countTitle : String} {v w : Value} {l : Lifted}
    (h : ofDef countTitle channel v = .ok l) (hw : l.secondary = some w) :
    Channel.isXOrY channel = true := by
  obtain ⟨found, -, h⟩ := bind_eq_ok_iff.1 h
  cases found with
  | none =>
      obtain rfl := Except.ok.inj h
      cases hw
  | some fd =>
      dsimp only at h
      rw [ofFieldDef] at h
      split at h
      · obtain ⟨output, -, h⟩ := bind_eq_ok_iff.1 h
        obtain ⟨members, hmembers, h⟩ := bind_eq_ok_iff.1 h
        obtain ⟨m, shown, name, rfl, -⟩ :=
          exists_of_ofAggregate (value_field_of_readDerived hmembers) h
        cases hw
      · obtain ⟨output, -, h⟩ := bind_eq_ok_iff.1 h
        obtain ⟨members, -, h⟩ := bind_eq_ok_iff.1 h
        obtain ⟨ending, range, -, rfl⟩ := exists_of_ofBin h
        exact (Option.ite_none_right_eq_some.1 hw).1
      · obtain ⟨output, -, h⟩ := bind_eq_ok_iff.1 h
        obtain ⟨members, -, h⟩ := bind_eq_ok_iff.1 h
        obtain ⟨shown, -, rfl⟩ := exists_of_ofTimeUnit h
        cases hw
      · obtain rfl := Except.ok.inj h
        cases hw

end Lifted

namespace Extraction

def mirrored (e : Extraction) : Extraction := { e with encoding := e.encoding.mirrored }

theorem add_mirrored (e : Extraction) {channel : String} {l : Lifted}
    (h : ∀ w, l.secondary = some w → Channel.isXOrY channel = true) :
    e.mirrored.add (Channel.mirror channel) l = (e.add channel l).mirrored := by
  rw [add, add, mirrored, mirrored]
  cases hw : l.secondary with
  | none => rfl
  | some w =>
      dsimp only
      rw [← Channel.mirror_append_two (h w hw), Encoding.put_mirrored]

theorem foldl_add_mirrored (lifted : List Lifted) (e : Extraction) {channel : String}
    (h : ∀ l ∈ lifted, ∀ w, l.secondary = some w → Channel.isXOrY channel = true) :
    lifted.foldl (fun e l ↦ e.add (Channel.mirror channel) l) e.mirrored =
      (lifted.foldl (fun e l ↦ e.add channel l) e).mirrored := by
  induction lifted generalizing e with
  | nil => rfl
  | cons l rest ih =>
      rw [List.foldl_cons, List.foldl_cons, add_mirrored e (h l List.mem_cons_self)]
      exact ih _ fun l hl ↦ h l (List.mem_cons_of_mem _ hl)

theorem put_mirrored (e : Extraction) (channel : String) (v : Value) :
    { e.mirrored with encoding := e.mirrored.encoding.put (Channel.mirror channel) v } =
      mirrored { e with encoding := e.encoding.put channel v } :=
  congrArg (fun encoding : Encoding ↦ { e with encoding })
    (Encoding.put_mirrored e.encoding channel v)

theorem addChannel_mirrored (countTitle : String) (e : Extraction) (channel : String) (v : Value) :
    e.mirrored.addChannel countTitle (Channel.mirror channel) v =
      mirrored <$> e.addChannel countTitle channel v := by
  have hdef : Lifted.ofDef countTitle (Channel.mirror channel) = Lifted.ofDef countTitle channel :=
    funext fun v ↦ Lifted.ofDef_mirror channel countTitle v
  have hone : (do
      let l ← Lifted.ofDef countTitle channel v
      let e := e.mirrored.add (Channel.mirror channel) l
      pure { e with encoding := e.encoding.put (Channel.mirror channel) l.definition }) =
      mirrored <$> (do
        let l ← Lifted.ofDef countTitle channel v
        let e := e.add channel l
        pure { e with encoding := e.encoding.put channel l.definition }) := by
    cases hl : Lifted.ofDef countTitle channel v with
    | error fault => rfl
    | ok l =>
        -- A range ends in a channel that is the mirror image only on x and y.
        have hadd := add_mirrored e fun w hw ↦ Lifted.isXOrY_of_secondary hl hw
        have hput := put_mirrored (e.add channel l) channel l.definition
        rw [← hadd] at hput
        exact congrArg Except.ok hput
  cases v with
  | list items =>
      rw [addChannel, addChannel, hdef]
      cases hl : items.mapM (Lifted.ofDef countTitle channel) with
      | error fault => rfl
      | ok lifted =>
          have hadd := foldl_add_mirrored lifted e fun l hmem w hw ↦ by
            obtain ⟨item, -, hitem⟩ := (mem_of_mapM_eq_ok hl).1 hmem
            exact Lifted.isXOrY_of_secondary hitem hw
          have hput := put_mirrored (lifted.foldl (fun e l ↦ e.add channel l) e) channel
            (.list (lifted.map Lifted.definition))
          rw [← hadd] at hput
          exact congrArg Except.ok hput
  | _ =>
      unfold addChannel
      rw [hdef]
      exact hone

theorem ofEncoding_mirrored (encoding : Encoding) (countTitle : String) :
    ofEncoding encoding.mirrored countTitle = mirrored <$> ofEncoding encoding countTitle := by
  have hfold : ∀ (title : String) (encoding : Encoding) (e : Extraction),
      encoding.mirrored.foldlM (fun e m ↦ e.addChannel title m.1 m.2) e.mirrored =
        mirrored <$> encoding.foldlM (fun e m ↦ e.addChannel title m.1 m.2) e := by
    intro title encoding
    induction encoding with
    | nil => exact fun e ↦ rfl
    | cons m rest ih =>
        intro e
        have hstep := addChannel_mirrored title e m.1 m.2
        rw [Encoding.mirrored, Record.convert, List.map_cons, List.foldlM_cons, List.foldlM_cons,
          hstep, bind_map_left, map_bind]
        congr 1
        funext e
        exact ih e
  exact hfold _ encoding empty

end Extraction

end ChartLowering
