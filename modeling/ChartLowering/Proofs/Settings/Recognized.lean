import ChartLowering.Proofs.Report
import ChartLowering.Proofs.Settings.Layers

/-!
# Settings with a meaning

Every setting is written at one path and read from there. What is written of it is read as the same
value again.
-/

namespace ChartLowering

namespace Settings

def shownSections (s : Settings) : Record Value :=
  [("mark", .object s.mark.members), ("boxplot", .object s.boxplot.members),
   ("errorbar", .object s.errorbar.members), ("scale", .object s.scale.members),
   ("countTitle", .text s.countTitle)]

def shownBlocks (s : Settings) : Record Value := s.markBlocks.map fun m ↦ (m.1, .object m.2)

/-- All settings as members. -/
def shown (s : Settings) : Record Value := s.shownSections ++ s.shownBlocks ++ s.extras

theorem members_eq_opened (s : Settings) :
    Value.object s.members = (Value.object s.shown).opened .whole := rfl

/-- Do the settings have a block for every mark that can have one? -/
def HasBlocks (s : Settings) : Prop := s.markBlocks.keys = markBlockDefaults.keys

theorem hasBlocks_default : HasBlocks {} := rfl

end Settings

/-- One setting: where it is written, what else it may be called, and what is made of a value that
is given for it. -/
structure Setting where
  path : List String
  synonym : Option (List String) := none
  coerced : Value → Option Value

namespace Setting

open Settings

/-- What is made of a value that may not be `null`. -/
def required {α : Type} (read? : Value → Option α) (write : α → Value) (v : Value) : Option Value :=
  (read? v).map write

/-- What is made of a value that may be `null`. -/
def optional {α : Type} (read? : Value → Option α) (write : α → Value) : Value → Option Value
  | .null => some .null
  | v => required read? write v

def ofMark : Record (Value → Option Value) :=
  [("color", optional Value.text? .text),
   ("invalid", optional (fun v ↦ v.text?.bind MarkInvalidMode.ofName?) fun m ↦ .text m.name)]

def toggle : Value → Option Value := optional Toggle.ofValue? Toggle.toValue

def ofBoxplot : Record (Value → Option Value) :=
  [("extent", required extent? BoxplotExtent.toValue), ("size", optional size? .float),
   ("box", toggle), ("median", toggle), ("outliers", toggle), ("rule", toggle), ("ticks", toggle)]

def ofErrorbar : Record (Value → Option Value) :=
  [("extent", required (fun v ↦ v.text?.bind ErrorbarExtent.ofName?) fun e ↦ .text e.name),
   ("rule", toggle), ("ticks", toggle)]

def ofScale : Record (Value → Option Value) := [("invalid", optional Value.members? .object)]

def countTitle : Setting where
  path := ["countTitle"]
  synonym := some ["count_title"]
  coerced := required Value.text? .text

/-- The settings of a section. -/
def within (name : String) (fields : Record (Value → Option Value)) : List Setting :=
  fields.map fun f ↦ { path := [name, f.1], coerced := f.2 }

/-- All settings with a meaning of their own. -/
def recognized : List Setting :=
  within "mark" ofMark ++ within "boxplot" ofBoxplot ++ within "errorbar" ofErrorbar ++
    within "scale" ofScale ++ [countTitle] ++
    markBlockDefaults.map fun m ↦ { path := [m.1], coerced := required Value.members? .object }

variable {x : Setting} {s : Settings} {given : Record Value} {v w : Value}

/-- The value of a setting. -/
def value (x : Setting) (s : Settings) : Value := Value.ofOption ((Value.object s.shown).at? x.path)

/-- What is made of values: a value that contains others is taken as it is or not at all, and only
objects are. -/
structure Plain (coerced : Value → Option Value) : Prop where
  list : ∀ items, coerced (.list items) = none
  fieldDef : ∀ members, coerced (.fieldDef members) = none
  object : (∀ members, coerced (.object members) = some (.object members)) ∨
    ∀ members, coerced (.object members) = none

/-- A setting is read from where it is written, and what is written of it can be read. -/
structure Lawful (x : Setting) : Prop where
  named : x.path ≠ [] ∧ x.synonym ≠ some []
  plain : Plain x.coerced
  /-- Only texts go by two names. -/
  text : x.synonym.isSome → ∀ s, ∃ text, x.value s = .text text
  written : ∀ s : Settings, s.HasBlocks → (Value.object s.shown).at? x.path = some (x.value s) ∧
    x.coerced (x.value s) = some (x.value s)
  read : ∀ given s, ofMembers given = .ok s → ∀ v, (Value.object given).at? x.path = some v →
    x.coerced v = some (x.value s)
  /-- Nothing but an object stands above it. -/
  above : ∀ given s, ofMembers given = .ok s → ∀ before after w, before ++ after = x.path →
    after ≠ [] → (Value.object given).at? before = some w → w.isObject = true

section Reading

variable {α : Type} {read? : Value → Option α} {write : α → Value} {key : String}

theorem coerced_of_defaulted {default a : α} (h : defaulted read? default given key = .ok a)
    (hv : given.get? key = some v) : required read? write v = some (write a) := by
  rw [defaulted, hv] at h
  dsimp only at h
  split at h
  · rename_i found hfound
    obtain rfl := Except.ok.inj h
    rw [required, hfound]
    rfl
  · cases h

theorem coerced_of_nullable {default a : Option α} (h : nullable read? default given key = .ok a)
    (hv : given.get? key = some v) :
    optional read? write v = some (Value.ofOption (a.map write)) := by
  rw [nullable, hv] at h
  dsimp only [Value.optional] at h
  split at h
  · obtain rfl := Except.ok.inj h
    rfl
  · rename_i hnull
    split at h
    · rename_i found hfound
      obtain rfl := Except.ok.inj h
      rw [optional, required, hfound]
      · rfl
      · exact hnull
    · cases h

theorem optional_written (write : α → Value) (hread : ∀ a, read? (write a) = some a)
    (hnull : ∀ a, write a ≠ .null) (a : Option α) :
    optional read? write (Value.ofOption (a.map write)) =
      some (Value.ofOption (a.map write)) := by
  cases a with
  | none => rfl
  | some a =>
      rw [Option.map_some, Value.ofOption, optional, required, hread]
      · rfl
      · exact hnull a

theorem required_written (hread : ∀ a, read? (write a) = some a) (a : α) :
    required read? write (write a) = some (write a) := by
  rw [required, hread]
  rfl

end Reading

theorem ofValue?_toValue (t : Toggle) : Toggle.ofValue? t.toValue = some t := by
  cases t <;> rfl

theorem extent?_toValue (e : BoxplotExtent) : extent? e.toValue = some e := by
  cases e <;> rfl

/-- A section is read member by member, and what is written of it can be read. -/
structure Section (name : String) (fields : Record (Value → Option Value))
    (members : Settings → Record Value) : Prop where
  plain : ∀ f ∈ fields, Plain f.2
  shown : ∀ s : Settings, s.shown.get? name = some (.object (members s))
  written : ∀ s, ∀ f ∈ fields, (members s).get? f.1 = some ((members s).value f.1) ∧
    f.2 ((members s).value f.1) = some ((members s).value f.1)
  read : ∀ given s, ofMembers given = .ok s → ∀ v, given.get? name = some v →
    ∃ found, v = .object found ∧ ∀ f ∈ fields, ∀ v, Record.get? found f.1 = some v →
      f.2 v = some ((members s).value f.1)

theorem readsMark {found : Record Value} {r : MarkSettings} (h : readMark found = .ok r) :
    ∀ f ∈ ofMark, ∀ v, found.get? f.1 = some v → f.2 v = some (r.members.value f.1) := by
  obtain ⟨color, hcolor, h⟩ := bind_eq_ok_iff.1 h
  obtain ⟨invalid, hinvalid, h⟩ := bind_eq_ok_iff.1 h
  obtain rfl := Except.ok.inj h
  simp only [ofMark, List.forall_mem_cons]
  refine ⟨fun _ ↦ coerced_of_nullable hcolor, fun _ ↦ coerced_of_nullable hinvalid, ?_⟩
  exact fun _ hf ↦ nomatch hf

theorem readsBoxplot {found : Record Value} {r : BoxplotSettings} (h : readBoxplot found = .ok r) :
    ∀ f ∈ ofBoxplot, ∀ v, found.get? f.1 = some v → f.2 v = some (r.members.value f.1) := by
  obtain ⟨extent, hextent, h⟩ := bind_eq_ok_iff.1 h
  obtain ⟨size, hsize, h⟩ := bind_eq_ok_iff.1 h
  obtain ⟨box, hbox, h⟩ := bind_eq_ok_iff.1 h
  obtain ⟨median, hmedian, h⟩ := bind_eq_ok_iff.1 h
  obtain ⟨outliers, houtliers, h⟩ := bind_eq_ok_iff.1 h
  obtain ⟨rule, hrule, h⟩ := bind_eq_ok_iff.1 h
  obtain ⟨ticks, hticks, h⟩ := bind_eq_ok_iff.1 h
  obtain rfl := Except.ok.inj h
  simp only [ofBoxplot, List.forall_mem_cons]
  refine ⟨fun _ ↦ coerced_of_defaulted hextent, fun _ ↦ coerced_of_nullable hsize,
    fun _ ↦ coerced_of_nullable hbox, fun _ ↦ coerced_of_nullable hmedian,
    fun _ ↦ coerced_of_nullable houtliers, fun _ ↦ coerced_of_nullable hrule,
    fun _ ↦ coerced_of_nullable hticks, ?_⟩
  exact fun _ hf ↦ nomatch hf

theorem readsErrorbar {found : Record Value} {r : ErrorbarSettings}
    (h : readErrorbar found = .ok r) :
    ∀ f ∈ ofErrorbar, ∀ v, found.get? f.1 = some v → f.2 v = some (r.members.value f.1) := by
  obtain ⟨extent, hextent, h⟩ := bind_eq_ok_iff.1 h
  obtain ⟨rule, hrule, h⟩ := bind_eq_ok_iff.1 h
  obtain ⟨ticks, hticks, h⟩ := bind_eq_ok_iff.1 h
  obtain rfl := Except.ok.inj h
  simp only [ofErrorbar, List.forall_mem_cons]
  refine ⟨fun _ ↦ coerced_of_defaulted hextent, fun _ ↦ coerced_of_nullable hrule,
    fun _ ↦ coerced_of_nullable hticks, ?_⟩
  exact fun _ hf ↦ nomatch hf

theorem readsScale {found : Record Value} {r : ScaleSettings} (h : readScale found = .ok r) :
    ∀ f ∈ ofScale, ∀ v, found.get? f.1 = some v → f.2 v = some (r.members.value f.1) := by
  obtain ⟨invalid, hinvalid, h⟩ := bind_eq_ok_iff.1 h
  obtain rfl := Except.ok.inj h
  simp only [ofScale, List.forall_mem_cons]
  exact ⟨fun _ ↦ coerced_of_nullable hinvalid, fun _ hf ↦ nomatch hf⟩

/-- What settings are read from. -/
structure ReadFrom (given : Record Value) (s : Settings) : Prop where
  mark : ∃ found, defaulted Value.members? [] given "mark" = .ok found ∧
    readMark found = .ok s.mark
  boxplot : ∃ found, defaulted Value.members? [] given "boxplot" = .ok found ∧
    readBoxplot found = .ok s.boxplot
  errorbar : ∃ found, defaulted Value.members? [] given "errorbar" = .ok found ∧
    readErrorbar found = .ok s.errorbar
  scale : ∃ found, defaulted Value.members? [] given "scale" = .ok found ∧
    readScale found = .ok s.scale
  title : defaulted Value.text? Defaults.countTitle given (countTitleKey given) = .ok s.countTitle
  blocks : (markBlockDefaults.mapM fun m ↦ do
    pure (m.1, ← defaulted Value.members? m.2 given m.1)) = .ok s.markBlocks

theorem readFrom_of_ofMembers (h : ofMembers given = .ok s) : ReadFrom given s := by
  rw [ofMembers] at h
  dsimp only at h
  obtain ⟨foundMark, hfoundMark, h⟩ := bind_eq_ok_iff.1 h
  obtain ⟨mark, hmark, h⟩ := bind_eq_ok_iff.1 h
  obtain ⟨foundBoxplot, hfoundBoxplot, h⟩ := bind_eq_ok_iff.1 h
  obtain ⟨boxplot, hboxplot, h⟩ := bind_eq_ok_iff.1 h
  obtain ⟨foundErrorbar, hfoundErrorbar, h⟩ := bind_eq_ok_iff.1 h
  obtain ⟨errorbar, herrorbar, h⟩ := bind_eq_ok_iff.1 h
  obtain ⟨foundScale, hfoundScale, h⟩ := bind_eq_ok_iff.1 h
  obtain ⟨scale, hscale, h⟩ := bind_eq_ok_iff.1 h
  obtain ⟨title, htitle, h⟩ := bind_eq_ok_iff.1 h
  obtain ⟨blocks, hblocks, h⟩ := bind_eq_ok_iff.1 h
  obtain rfl := Except.ok.inj h
  exact ⟨⟨_, hfoundMark, hmark⟩, ⟨_, hfoundBoxplot, hboxplot⟩, ⟨_, hfoundErrorbar, herrorbar⟩,
    ⟨_, hfoundScale, hscale⟩, htitle, hblocks⟩

theorem eq_object_of_defaulted {default found : Record Value} {key : String}
    (h : defaulted Value.members? default given key = .ok found) (hv : given.get? key = some v) :
    v = .object found := by
  rw [defaulted, hv] at h
  cases v with
  | object members =>
      obtain rfl := Except.ok.inj h
      rfl
  | null | bool | int | float | text | list | set | fieldDef => cases h

theorem plain_toggle : Plain toggle := ⟨fun _ ↦ rfl, fun _ ↦ rfl, .inl fun _ ↦ rfl⟩

theorem toggle_toggleValue (t : Option Toggle) :
    toggle (toggleValue t) = some (toggleValue t) :=
  optional_written Toggle.toValue ofValue?_toValue (fun t ↦ by cases t <;> exact nofun) t

theorem section_mark : Section "mark" ofMark fun s ↦ s.mark.members := by
  refine ⟨?_, fun _ ↦ rfl, fun s ↦ ?_, fun given s h v hv ↦ ?_⟩
  · simp only [ofMark, List.forall_mem_cons]
    exact ⟨⟨fun _ ↦ rfl, fun _ ↦ rfl, .inr fun _ ↦ rfl⟩,
      ⟨fun _ ↦ rfl, fun _ ↦ rfl, .inr fun _ ↦ rfl⟩, fun _ hf ↦ nomatch hf⟩
  · simp only [ofMark, List.forall_mem_cons]
    exact ⟨⟨rfl, optional_written .text (fun _ ↦ rfl) (fun _ ↦ nofun) s.mark.color⟩,
      ⟨rfl, optional_written (fun m ↦ .text m.name) MarkInvalidMode.ofName?_name (fun _ ↦ nofun)
        s.mark.invalid⟩,
      fun _ hf ↦ nomatch hf⟩
  · obtain ⟨found, hfound, hmark⟩ := (readFrom_of_ofMembers h).mark
    exact ⟨found, eq_object_of_defaulted hfound hv, readsMark hmark⟩

theorem section_boxplot : Section "boxplot" ofBoxplot fun s ↦ s.boxplot.members := by
  refine ⟨?_, fun _ ↦ rfl, fun s ↦ ?_, fun given s h v hv ↦ ?_⟩
  · simp only [ofBoxplot, List.forall_mem_cons]
    exact ⟨⟨fun _ ↦ rfl, fun _ ↦ rfl, .inr fun _ ↦ rfl⟩,
      ⟨fun _ ↦ rfl, fun _ ↦ rfl, .inr fun _ ↦ rfl⟩, plain_toggle, plain_toggle, plain_toggle,
      plain_toggle, plain_toggle, fun _ hf ↦ nomatch hf⟩
  · simp only [ofBoxplot, List.forall_mem_cons]
    exact ⟨⟨rfl, required_written extent?_toValue s.boxplot.extent⟩,
      ⟨rfl, optional_written .float (fun _ ↦ rfl) (fun _ ↦ nofun) s.boxplot.size⟩,
      ⟨rfl, toggle_toggleValue s.boxplot.box⟩, ⟨rfl, toggle_toggleValue s.boxplot.median⟩,
      ⟨rfl, toggle_toggleValue s.boxplot.outliers⟩, ⟨rfl, toggle_toggleValue s.boxplot.rule⟩,
      ⟨rfl, toggle_toggleValue s.boxplot.ticks⟩, fun _ hf ↦ nomatch hf⟩
  · obtain ⟨found, hfound, hboxplot⟩ := (readFrom_of_ofMembers h).boxplot
    exact ⟨found, eq_object_of_defaulted hfound hv, readsBoxplot hboxplot⟩

theorem section_errorbar : Section "errorbar" ofErrorbar fun s ↦ s.errorbar.members := by
  refine ⟨?_, fun _ ↦ rfl, fun s ↦ ?_, fun given s h v hv ↦ ?_⟩
  · simp only [ofErrorbar, List.forall_mem_cons]
    exact ⟨⟨fun _ ↦ rfl, fun _ ↦ rfl, .inr fun _ ↦ rfl⟩, plain_toggle, plain_toggle,
      fun _ hf ↦ nomatch hf⟩
  · simp only [ofErrorbar, List.forall_mem_cons]
    exact ⟨⟨rfl, required_written ErrorbarExtent.ofName?_name s.errorbar.extent⟩,
      ⟨rfl, toggle_toggleValue s.errorbar.rule⟩, ⟨rfl, toggle_toggleValue s.errorbar.ticks⟩,
      fun _ hf ↦ nomatch hf⟩
  · obtain ⟨found, hfound, herrorbar⟩ := (readFrom_of_ofMembers h).errorbar
    exact ⟨found, eq_object_of_defaulted hfound hv, readsErrorbar herrorbar⟩

theorem section_scale : Section "scale" ofScale fun s ↦ s.scale.members := by
  refine ⟨?_, fun _ ↦ rfl, fun s ↦ ?_, fun given s h v hv ↦ ?_⟩
  · simp only [ofScale, List.forall_mem_cons]
    exact ⟨⟨fun _ ↦ rfl, fun _ ↦ rfl, .inl fun _ ↦ rfl⟩, fun _ hf ↦ nomatch hf⟩
  · simp only [ofScale, List.forall_mem_cons]
    exact ⟨⟨rfl, optional_written .object (fun _ ↦ rfl) (fun _ ↦ nofun) s.scale.invalid⟩,
      fun _ hf ↦ nomatch hf⟩
  · obtain ⟨found, hfound, hscale⟩ := (readFrom_of_ofMembers h).scale
    exact ⟨found, eq_object_of_defaulted hfound hv, readsScale hscale⟩

theorem Section.lawful {name : String} {fields : Record (Value → Option Value)}
    {members : Settings → Record Value} (h : Section name fields members) :
    ∀ x ∈ within name fields, x.Lawful := by
  intro x hx
  obtain ⟨f, hf, rfl⟩ := List.mem_map.1 hx
  have hat : ∀ s : Settings, (Value.object s.shown).at? [name, f.1] =
      some ((members s).value f.1) := by
    intro s
    rw [Value.at?_object, h.shown, Option.bind_some, Value.at?_object, (h.written s f hf).1]
    rfl
  have hvalue : ∀ s : Settings, Setting.value ⟨[name, f.1], none, f.2⟩ s =
      (members s).value f.1 := by
    intro s
    rw [value, hat]
    rfl
  refine ⟨⟨List.cons_ne_nil _ _, nofun⟩, h.plain f hf, nofun, fun s _ ↦ ?_,
    fun given s hs v hv ↦ ?_, ?_⟩
  · rw [hvalue, hat]
    exact ⟨rfl, (h.written s f hf).2⟩
  · obtain ⟨w, hw, hv⟩ := Option.bind_eq_some_iff.1 hv
    obtain ⟨found, rfl, hfound⟩ := h.read given s hs w hw
    obtain ⟨u, hu, hv⟩ := Option.bind_eq_some_iff.1 hv
    obtain rfl := Option.some.inj hv
    rw [hvalue]
    exact hfound f hf u hu
  · intro given s hs before after w hpath hafter hw
    rcases before with _ | ⟨key, _ | ⟨other, rest⟩⟩
    · obtain rfl := Option.some.inj hw
      rfl
    · obtain ⟨rfl, -⟩ := List.cons.inj hpath
      obtain ⟨u, hu, hw⟩ := Option.bind_eq_some_iff.1 hw
      obtain rfl := Option.some.inj hw
      obtain ⟨found, rfl, -⟩ := h.read given s hs u hu
      rfl
    · simp only [List.cons_append, List.cons.injEq, List.append_eq_nil_iff] at hpath
      exact absurd hpath.2.2.2 hafter

theorem isObject_above_single {name : String} {before after : List String}
    (hpath : before ++ after = [name]) (hafter : after ≠ [])
    (hw : (Value.object given).at? before = some w) : w.isObject = true := by
  rcases before with _ | ⟨key, rest⟩
  · obtain rfl := Option.some.inj hw
    rfl
  · simp only [List.cons_append, List.cons.injEq, List.append_eq_nil_iff] at hpath
    exact absurd hpath.2.2 hafter

theorem lawful_countTitle : countTitle.Lawful := by
  refine ⟨by decide, ⟨fun _ ↦ rfl, fun _ ↦ rfl, .inr fun _ ↦ rfl⟩, fun _ s ↦ ⟨s.countTitle, rfl⟩,
    fun s _ ↦ ⟨rfl, rfl⟩, fun given s hs v hv ↦ ?_, fun _ _ _ _ _ _ ↦ isObject_above_single⟩
  obtain ⟨u, hu, hv⟩ := Option.bind_eq_some_iff.1 hv
  obtain rfl := Option.some.inj hv
  have hu : given.get? "countTitle" = some u := hu
  have htitle := (readFrom_of_ofMembers hs).title
  have hkey : countTitleKey given = "countTitle" := by
    rw [countTitleKey, Record.has_eq_isSome, hu]
    rfl
  rw [hkey] at htitle
  exact coerced_of_defaulted htitle hu

/-- What is read has a block for every mark that can have one. -/
theorem hasBlocks_of_ofMembers (h : ofMembers given = .ok s) : s.HasBlocks := by
  have hblocks := mapM_eq_ok_iff.1 (readFrom_of_ofMembers h).blocks
  rw [HasBlocks]
  -- One block is read for every default, under the same name.
  generalize s.markBlocks = blocks at hblocks ⊢
  generalize markBlockDefaults = defaults at hblocks ⊢
  induction hblocks with
  | nil => rfl
  | cons hread _ ih =>
      obtain ⟨block, -, hread⟩ := bind_eq_ok_iff.1 hread
      obtain rfl := Except.ok.inj hread
      exact congrArg (List.cons _) ih

theorem at?_block {m : String × Record Value} (hs : s.HasBlocks) (hm : m ∈ markBlockDefaults)
    {block : Record Value} (hblock : (m.1, block) ∈ s.markBlocks) :
    (Value.object s.shown).at? [m.1] = some (.object block) := by
  have hother : m.1 ∉ s.shownSections.keys := by
    have hnames : ∀ m ∈ markBlockDefaults,
        m.1 ∉ ["mark", "boxplot", "errorbar", "scale", "countTitle"] := by decide
    exact hnames m hm
  have hkeys : s.shownBlocks.keys = s.markBlocks.keys := List.map_map
  have hnodup : s.shownBlocks.keys.Nodup := by
    rw [hkeys, hs]
    decide
  have hfound : s.shownBlocks.lookup m.1 = some (.object block) :=
    Record.get?_of_mem hnodup (List.mem_map.2 ⟨_, hblock, rfl⟩)
  rw [Value.at?_object, shown, List.append_assoc, Record.get?_append_of_notMem hother,
    Record.get?, List.lookup_append, hfound]
  rfl

theorem lawful_block : ∀ m ∈ markBlockDefaults,
    Lawful { path := [m.1], coerced := required Value.members? .object } := by
  intro m hm
  refine ⟨⟨List.cons_ne_nil _ _, nofun⟩, ⟨fun _ ↦ rfl, fun _ ↦ rfl, .inl fun _ ↦ rfl⟩, nofun,
    fun s hs ↦ ?_, fun given s h v hv ↦ ?_, fun _ _ _ _ _ _ ↦ isObject_above_single⟩
  · have hkey : m.1 ∈ s.markBlocks.keys := hs ▸ List.mem_map_of_mem hm
    obtain ⟨b, hb, hname⟩ := List.mem_map.1 hkey
    have hblock : (m.1, b.2) ∈ s.markBlocks := hname ▸ hb
    rw [value, at?_block hs hm hblock]
    exact ⟨rfl, rfl⟩
  · obtain ⟨b, hb, hread⟩ := exists_of_mapM_eq_ok (readFrom_of_ofMembers h).blocks hm
    obtain ⟨block, hdefaulted, hread⟩ := bind_eq_ok_iff.1 hread
    obtain rfl := Except.ok.inj hread
    obtain ⟨u, hu, hv⟩ := Option.bind_eq_some_iff.1 hv
    obtain rfl := Option.some.inj hv
    rw [value, at?_block (hasBlocks_of_ofMembers h) hm hb]
    exact coerced_of_defaulted hdefaulted hu

theorem lawful_of_recognized (hx : x ∈ recognized) : x.Lawful := by
  simp only [recognized, List.mem_append, List.mem_singleton, List.mem_map] at hx
  obtain ((((hx | hx) | hx) | hx) | rfl) | ⟨m, hm, rfl⟩ := hx
  · exact section_mark.lawful x hx
  · exact section_boxplot.lawful x hx
  · exact section_errorbar.lawful x hx
  · exact section_scale.lawful x hx
  · exact lawful_countTitle
  · exact lawful_block m hm

theorem Plain.eq_of_object {coerced : Value → Option Value} (h : Plain coerced)
    {members : Record Value} (hv : coerced (.object members) = some w) : w = .object members := by
  obtain hall | hnone := h.object
  · rw [hall] at hv
    exact (Option.some.inj hv).symm
  · rw [hnone] at hv
    cases hv

theorem Plain.opened {coerced : Value → Option Value} (h : Plain coerced) (hv : coerced v = some v)
    (o : Opening) : coerced (v.opened o) = some (v.opened o) ∧
      (v.opened o).isObject = v.isObject := by
  cases v with
  | list items =>
      rw [h.list] at hv
      cases hv
  | fieldDef members =>
      rw [h.fieldDef] at hv
      cases hv
  | object members =>
      refine ⟨?_, rfl⟩
      obtain hall | hnone := h.object
      · exact hall _
      · rw [hnone] at hv
        cases hv
  | null | bool | int | float | text | set => exact ⟨hv, rfl⟩

end Setting

end ChartLowering
