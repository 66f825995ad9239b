import ChartLowering.Proofs.Encoding.Settled

/-!
# Units that differ in one definition

An encoding is brought into normal form channel by channel, and each channel gets its scale from its
own definition. A unit is therefore put together from what comes before a channel, the definition of
the channel, and what comes after it.
-/

namespace ChartLowering

namespace Encoding

variable {parse : Shorthand.Reader}

theorem normalizeMembers_append (before after : Record Value) :
    normalizeMembers (before ++ after) parse = (do
      let first ← normalizeMembers before parse
      let last ← normalizeMembers after parse
      pure (first ++ last)) := by
  induction before with
  | nil => exact (bind_pure _).symm
  | cons m rest ih =>
      rw [List.cons_append, normalizeMembers, normalizeMembers, ih]
      simp only [bind_assoc, pure_bind]
      congr 1
      funext kept
      congr 1
      funext first
      congr 1
      funext last
      cases kept <;> rfl

end Encoding

namespace UnitModel

variable {view : String} {mark : MarkDef} {channel : String}

theorem initScales_append (first last : Encoding) :
    initScales view mark (first ++ last) = (do
      let before ← initScales view mark first
      let after ← initScales view mark last
      pure (before ++ after)) := by
  simp only [initScales, List.mapM_append, bind_assoc, pure_bind, List.filterMap_append]

theorem keys_initScales_subset {encoding : Encoding} {scales : Record Scale}
    (h : initScales view mark encoding = .ok scales) : scales.keys ⊆ encoding.keys := by
  obtain ⟨found, hfound, h⟩ := bind_eq_ok_iff.1 h
  obtain rfl := Except.ok.inj h
  intro key hkey
  obtain ⟨⟨_, scale⟩, hmem, rfl⟩ := List.mem_map.1 hkey
  obtain ⟨kept, hkept, rfl⟩ := List.mem_filterMap.1 hmem
  obtain ⟨m, hm, hscale⟩ := (mem_of_mapM_eq_ok hfound).1 hkept
  obtain ⟨own, -, hscale⟩ := bind_eq_ok_iff.1 hscale
  obtain ⟨_, rfl, heq⟩ := Option.map_eq_some_iff.1 (Except.ok.inj hscale)
  obtain ⟨rfl, -⟩ := Prod.mk.inj heq
  exact List.mem_map_of_mem hm

/-- What there is for one channel, if anything, as a record. -/
def place {α : Type} (channel : String) (kept : Option α) : Record α :=
  (kept.map fun v ↦ (channel, v)).toList

/-- The scale of what is left of a definition. -/
def ownScale? (view : String) (mark : MarkDef) (channel : String) (kept : Option Value) :
    Except Fault (Option Scale) :=
  kept.elim (pure none) (initScale? view mark channel)

theorem initScales_place (kept : Option Value) :
    initScales view mark (place channel kept) =
      place channel <$> ownScale? view mark channel kept := by
  cases kept with
  | none => rfl
  | some v =>
      show initScales view mark [(channel, v)] = place channel <$> initScale? view mark channel v
      rw [initScales, List.mapM_cons]
      cases initScale? view mark channel v with
      | error fault => rfl
      | ok own => cases own <;> rfl

/-- A unit but for one channel. -/
structure Surroundings where
  name : String
  settings : Settings
  mark : MarkDef
  first : Encoding
  last : Encoding
  scales : Record Scale
  others : Record Scale

/-- The unit with a definition and a scale of its own for the channel. -/
def Surroundings.unit (s : Surroundings) (channel : String) (kept : Option Value)
    (own : Option Scale) : UnitModel where
  name := s.name
  settings := s.settings
  mark := s.mark
  encoding := s.first ++ place channel kept ++ s.last
  scales := s.scales ++ place channel own ++ s.others

theorem Surroundings.definition_unit {s : Surroundings} (h : channel ∉ s.first.keys) (v : Value)
    (own : Option Scale) : (s.unit channel (some v) own).definition channel = v := by
  have hget : (s.unit channel (some v) own).encoding.get? channel = some v := by
    show Record.get? (s.first ++ [(channel, v)] ++ s.last) channel = some v
    rw [List.append_assoc, Record.get?_append_of_notMem h, List.singleton_append,
      Record.get?_cons, if_pos rfl]
  rw [definition, Record.value, hget]
  rfl

/-- The channel has no definition and no scale but its own. -/
structure Surroundings.Clear (s : Surroundings) (channel : String) : Prop where
  first : channel ∉ s.first.keys
  scales : channel ∉ s.scales.keys
  others : channel ∉ s.others.keys

theorem Surroundings.Clear.scale?_unit {s : Surroundings} (h : s.Clear channel)
    (kept : Option Value) (own : Option Scale) :
    (s.unit channel kept own).scale? channel = own := by
  show Record.get? (s.scales ++ place channel own ++ s.others) channel = own
  rw [List.append_assoc, Record.get?_append_of_notMem h.scales]
  cases own with
  | none => exact Record.get?_of_notMem h.others
  | some scale =>
      show Record.get? ((channel, scale) :: s.others) channel = some scale
      rw [Record.get?_cons, if_pos rfl]

/-- A specification with another definition on one channel. -/
def specWith (spec members : Record Value) (channel : String) (v : Value) : Record Value :=
  spec.put "encoding" (.object (members.put channel v))

/-- The encoding of a specification in normal form, in three parts. -/
theorem exists_normalize_specWith (spec members : Record Value) (channel : String)
    (parse : Shorthand.Reader) :
    ∃ before after : Record Value, channel ∉ before.keys ∧
      (members.keys.Nodup → channel ∉ after.keys) ∧ ∀ v,
      Encoding.normalize ((specWith spec members channel v).value "encoding") parse = (do
        let first ← Encoding.normalizeMembers before parse
        let kept ← Encoding.normalizeChannel channel v parse
        let last ← Encoding.normalizeMembers after parse
        pure (first ++ place channel kept ++ last)) := by
  obtain ⟨before, after, hbefore, hafter, hput⟩ := members.exists_put_eq channel
  refine ⟨before, after, hbefore, hafter, fun v ↦ ?_⟩
  have hvalue : (specWith spec members channel v).value "encoding" =
      .object (before ++ (channel, v) :: after) := by
    rw [specWith, Record.value_put_self, hput]
  have htruthy : (Value.object (before ++ (channel, v) :: after)).truthy = true := by
    simp [Value.truthy]
  rw [hvalue, Encoding.normalize, if_pos htruthy]
  show Encoding.normalizeMembers (before ++ (channel, v) :: after) parse = _
  rw [Encoding.normalizeMembers_append, Encoding.normalizeMembers]
  simp only [bind_assoc, pure_bind]
  congr! 6 with first kept last
  cases kept <;> simp [place]

/-- What a unit is but for one channel follows from the mark and the rest of the encoding. -/
structure Surroundings.Fit (s : Surroundings) (mark : Value) (settings : Settings) (name : String)
    (first last : Report Encoding) : Prop where
  isGiven : mark.isNull = false
  name_eq : s.name = name
  settings_eq : s.settings = settings
  mark_eq : s.mark = MarkDef.ofValue mark
  first_eq : first.outcome = .ok s.first
  last_eq : last.outcome = .ok s.last
  scales_eq : initScales s.name s.mark s.first = .ok s.scales
  others_eq : initScales s.name s.mark s.last = .ok s.others

section Building

variable {settings : Settings} {name : String} {first last : Report Encoding}
  {middle : Report (Option Value)} {m : UnitModel} {parse : Shorthand.Reader}

theorem Surroundings.Fit.unique {s t : Surroundings} {mark : Value}
    (hs : s.Fit mark settings name first last) (ht : t.Fit mark settings name first last) :
    s = t := by
  have hname : s.name = t.name := hs.name_eq.trans ht.name_eq.symm
  have hsettings : s.settings = t.settings := hs.settings_eq.trans ht.settings_eq.symm
  have hmark : s.mark = t.mark := hs.mark_eq.trans ht.mark_eq.symm
  have hfirst : s.first = t.first := Except.ok.inj (hs.first_eq.symm.trans ht.first_eq)
  have hlast : s.last = t.last := Except.ok.inj (hs.last_eq.symm.trans ht.last_eq)
  have hscales := hs.scales_eq
  have hothers := hs.others_eq
  rw [hname, hmark, hfirst, ht.scales_eq] at hscales
  rw [hname, hmark, hlast, ht.others_eq] at hothers
  cases s
  cases t
  simp_all

/-- What it takes to build a unit whose encoding is in normal form in three parts. -/
theorem ofSpec_eq_ok_iff {spec : Record Value}
    (hencoding : Encoding.normalize (spec.value "encoding") parse = (do
      let first ← first
      let kept ← middle
      let last ← last
      pure (first ++ place channel kept ++ last))) :
    (ofSpec spec settings name parse).outcome = .ok m ↔
      ∃ s : Surroundings, s.Fit (spec.value "mark") settings name first last ∧
        ∃ kept own, middle.outcome = .ok kept ∧ ownScale? s.name s.mark channel kept = .ok own ∧
          m = s.unit channel kept own := by
  constructor
  · intro h
    rw [ofSpec, hencoding] at h
    split at h
    · cases h
    · rename_i hmark
      obtain ⟨encoding, hnormal, h⟩ := Report.outcome_bind_eq_ok_iff.1 h
      obtain ⟨found, hfound, h⟩ := Report.outcome_bind_eq_ok_iff.1 h
      obtain rfl := Except.ok.inj h
      obtain ⟨before, hbefore, hnormal⟩ := Report.outcome_bind_eq_ok_iff.1 hnormal
      obtain ⟨kept, hkept, hnormal⟩ := Report.outcome_bind_eq_ok_iff.1 hnormal
      obtain ⟨after, hafter, hnormal⟩ := Report.outcome_bind_eq_ok_iff.1 hnormal
      obtain rfl := Except.ok.inj hnormal
      rw [Report.outcome_lift, initScales_append, initScales_append, initScales_place] at hfound
      obtain ⟨some, hsome, hfound⟩ := bind_eq_ok_iff.1 hfound
      obtain ⟨others, hothers, hfound⟩ := bind_eq_ok_iff.1 hfound
      obtain rfl := Except.ok.inj hfound
      obtain ⟨scales, hscales, hsome⟩ := bind_eq_ok_iff.1 hsome
      obtain ⟨placed, hplaced, hsome⟩ := bind_eq_ok_iff.1 hsome
      obtain rfl := Except.ok.inj hsome
      rw [← bind_pure_comp] at hplaced
      obtain ⟨own, hown, hplaced⟩ := bind_eq_ok_iff.1 hplaced
      obtain rfl := Except.ok.inj hplaced
      exact ⟨⟨name, settings, _, before, after, scales, others⟩,
        ⟨by simpa using hmark, rfl, rfl, rfl, hbefore, hafter, hscales, hothers⟩,
        kept, own, hkept, hown, rfl⟩
  · rintro ⟨s, hs, kept, own, hkept, hown, rfl⟩
    have hfound : initScales s.name s.mark (s.first ++ place channel kept ++ s.last) =
        .ok (s.scales ++ place channel own ++ s.others) := by
      rw [initScales_append, initScales_append, hs.scales_eq, initScales_place, hown, hs.others_eq]
      rfl
    have hnormal : (Encoding.normalize (spec.value "encoding") parse).outcome =
        .ok (s.first ++ place channel kept ++ s.last) := by
      rw [hencoding]
      simp [hs.first_eq, hkept, hs.last_eq, Except.bind]
    rw [ofSpec, hs.isGiven, if_neg Bool.false_ne_true, ← hs.mark_eq, ← hs.name_eq,
      ← hs.settings_eq]
    refine Report.outcome_bind_eq_ok_iff.2 ⟨_, hnormal, ?_⟩
    exact Report.outcome_bind_eq_ok_iff.2 ⟨_, hfound, rfl⟩

end Building

/-- Either no definition of the channel makes a unit, or all of them make it with the same
surroundings, as long as they have a normal form and a scale. -/
theorem exists_surroundings (spec members : Record Value) (channel : String)
    (settings : Settings) (name : String) (parse : Shorthand.Reader) :
    (∀ v m, (ofSpec (specWith spec members channel v) settings name parse).outcome ≠ .ok m) ∨
      ∃ s : Surroundings, channel ∉ s.first.keys ∧ (members.keys.Nodup → s.Clear channel) ∧ ∀ v m,
        (ofSpec (specWith spec members channel v) settings name parse).outcome = .ok m ↔
          ∃ kept own, (Encoding.normalizeChannel channel v parse).outcome = .ok kept ∧
            ownScale? s.name s.mark channel kept = .ok own ∧ m = s.unit channel kept own := by
  obtain ⟨before, after, hbefore, hafter, hencoding⟩ :=
    exists_normalize_specWith spec members channel parse
  have hmark (v : Value) : (specWith spec members channel v).value "mark" = spec.value "mark" :=
    Record.value_put_of_ne (by decide)
  by_cases hbuilt : ∃ v m,
      (ofSpec (specWith spec members channel v) settings name parse).outcome = .ok m
  · right
    obtain ⟨v, m, hm⟩ := hbuilt
    obtain ⟨s, hs, -⟩ := (ofSpec_eq_ok_iff (hencoding v)).1 hm
    rw [hmark] at hs
    have hfirst : channel ∉ s.first.keys := fun hmem ↦
      hbefore ((Encoding.keys_sublist_of_normalizeMembers hs.first_eq).subset hmem)
    refine ⟨s, hfirst, fun hnodup ↦ ⟨hfirst, fun hmem ↦ ?_, fun hmem ↦ ?_⟩, fun w m ↦ ?_⟩
    · exact hfirst (keys_initScales_subset hs.scales_eq hmem)
    · exact hafter hnodup ((Encoding.keys_sublist_of_normalizeMembers hs.last_eq).subset
        (keys_initScales_subset hs.others_eq hmem))
    · rw [ofSpec_eq_ok_iff (hencoding w), hmark]
      constructor
      · rintro ⟨t, ht, hparts⟩
        rwa [hs.unique ht]
      · exact fun hparts ↦ ⟨s, hs, hparts⟩
  · left
    exact fun v m hm ↦ hbuilt ⟨v, m, hm⟩

end UnitModel

end ChartLowering
