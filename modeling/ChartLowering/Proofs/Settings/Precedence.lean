import ChartLowering.Proofs.Json.Reordered
import ChartLowering.Proofs.Settings.Layers

/-!
# Three layers

Of defaults, a file and the environment, the highest layer that says something at a path decides
what stands there. A layer also says something at every path that goes on from a single value of
it. Laying the same layer over again changes nothing, and the order of names is that in which they
first came up.
-/

namespace ChartLowering

namespace Value

variable {v w : Value} {members : Record Value} {key : String} {path before after : List String}

/-- Does a value say something at a path? Either something stands there, or the way there is cut
off by a value that is no object. -/
def Reaches (v : Value) (path : List String) : Prop :=
  ∃ before after w, before ++ after = path ∧ v.at? before = some w ∧
    (after = [] ∨ w.isObject = false)

theorem reaches_nil (v : Value) : v.Reaches [] := ⟨[], [], v, rfl, rfl, .inl rfl⟩

theorem Reaches.of_at? (h : v.at? path = some w) : v.Reaches path :=
  ⟨path, [], w, List.append_nil path, h, .inl rfl⟩

theorem reaches_of_not_object (h : v.isObject = false) : v.Reaches path :=
  ⟨[], path, v, rfl, rfl, .inr h⟩

theorem Reaches.of_get? (h : members.get? key = some v) (hv : v.Reaches path) :
    (object members).Reaches (key :: path) := by
  obtain ⟨before, after, w, rfl, hw, hend⟩ := hv
  refine ⟨key :: before, after, w, rfl, ?_, hend⟩
  simp [at?_object, h, hw]

theorem distinct_of_isJson (h : v.IsJson) : v.Distinct := by
  induction h with
  | null | bool | int | text | list => exact distinct_of_not_object rfl
  | object hkeys _ ih => exact distinct_object hkeys ih

/-- What stands on the way to a value is an object. -/
theorem exists_object_of_at?_append (hafter : after ≠ []) (h : v.at? (before ++ after) = some w) :
    ∃ members, v.at? before = some (.object members) := by
  induction before generalizing v with
  | nil =>
      obtain ⟨members, rfl⟩ := exists_object_of_at? hafter h
      exact ⟨members, rfl⟩
  | cons key rest ih =>
      obtain ⟨members, rfl⟩ := exists_object_of_at? (by simp) h
      rw [List.cons_append, at?_object] at h
      obtain ⟨u, hu, h⟩ := Option.bind_eq_some_iff.1 h
      obtain ⟨inner, hinner⟩ := ih h
      exact ⟨inner, by simp [at?_object, hu, hinner]⟩

end Value

namespace Settings

variable {base layer defaults file environment : Record Value} {v : Value}
  {path : List String}

/-- Where a layer says nothing, things stay as they were. -/
theorem at?_deepMerge_of_not_reaches (hlayer : (Value.object layer).Distinct)
    (h : ¬ (Value.object layer).Reaches path) :
    (Value.object (deepMerge base layer)).at? path = (Value.object base).at? path := by
  induction path generalizing base layer with
  | nil => exact absurd (Value.reaches_nil _) h
  | cons key rest ih =>
      rw [Value.at?_object, Value.at?_object, get?_deepMerge hlayer.nodup_keys]
      cases hv : layer.get? key with
      | none => simp
      | some v =>
          have hrest : ¬ v.Reaches rest := fun hrest ↦ h (hrest.of_get? hv)
          have hobject : v.isObject = true := by
            by_contra hno
            exact hrest (Value.reaches_of_not_object (by simpa using hno))
          obtain ⟨inner, rfl⟩ := Value.exists_of_isObject hobject
          have hnone : (Value.object inner).at? rest = none := by
            by_contra hsome
            obtain ⟨w, hw⟩ := Option.ne_none_iff_exists'.1 hsome
            exact hrest (.of_at? hw)
          cases hold : base.get? key with
          | none => simpa [mergeValue_none] using hnone
          | some old =>
              cases hobject : old.isObject with
              | true =>
                  obtain ⟨members, rfl⟩ := Value.exists_of_isObject hobject
                  simpa [mergeValue_object] using ih (hlayer.of_get? hv) hrest
              | false =>
                  -- Nothing stands below a single value, and the object in its place has nothing.
                  have hne : rest ≠ [] := fun hnil ↦ hrest (hnil ▸ Value.reaches_nil _)
                  obtain ⟨next, later, rfl⟩ := List.exists_cons_of_ne_nil hne
                  simp [mergeValue_over hobject, hnone, Value.at?_of_not_object hobject]

/-- A layer changes nothing where each of its values would leave the one that is there. -/
theorem deepMerge_eq_self
    (h : ∀ m ∈ layer, ∃ u, base.get? m.1 = some u ∧ mergeValue (some u) m.2 = u) :
    deepMerge base layer = base := by
  induction layer with
  | nil => rfl
  | cons m rest ih =>
      obtain ⟨⟨u, hu, hsame⟩, hrest⟩ := List.forall_mem_cons.1 h
      rw [deepMerge, hu, hsame, Record.put_eq_self hu]
      exact ih hrest

mutual

/-- A value that is laid over once more changes nothing. -/
theorem mergeValue_again (current : Option Value) :
    ∀ {v : Value}, v.Distinct → mergeValue (some (mergeValue current v)) v = mergeValue current v
  | .object layer, h => by
      have hmembers : ∀ m ∈ layer, ∀ current : Option Value,
          mergeValue (some (mergeValue current m.2)) m.2 = mergeValue current m.2 :=
        mergeMembers_again fun m hm ↦ h.of_get? (Record.get?_of_mem h.nodup_keys hm)
      have hself : deepMerge layer layer = layer := by
        refine deepMerge_eq_self fun m hm ↦ ⟨m.2, Record.get?_of_mem h.nodup_keys hm, ?_⟩
        simpa [mergeValue_none] using hmembers m hm none
      cases current with
      | none => simp [mergeValue_none, mergeValue_object, hself]
      | some old =>
          cases hobject : old.isObject with
          | false => simp [mergeValue_over hobject, mergeValue_object, hself]
          | true =>
              obtain ⟨base, rfl⟩ := Value.exists_of_isObject hobject
              rw [mergeValue_object, mergeValue_object]
              congr 1
              refine deepMerge_eq_self fun m hm ↦ ⟨_, ?_, hmembers m hm (Record.get? base m.1)⟩
              simp [get?_deepMerge h.nodup_keys, Record.get?_of_mem h.nodup_keys hm]
  | .null, _ | .bool _, _ | .int _, _ | .float _, _ | .text _, _ | .list _, _ | .set _, _
  | .fieldDef _, _ => rfl
termination_by structural v => v

theorem mergeMembers_again : ∀ {members : List (String × Value)}, (∀ m ∈ members, m.2.Distinct) →
    ∀ m ∈ members, ∀ current : Option Value,
      mergeValue (some (mergeValue current m.2)) m.2 = mergeValue current m.2
  | (key, v) :: rest, h => by
      obtain ⟨hv, hrest⟩ := List.forall_mem_cons.1 h
      exact List.forall_mem_cons.2
        ⟨fun current ↦ mergeValue_again current hv, mergeMembers_again hrest⟩
  | [], _ => by simp
termination_by structural members => members

end

theorem deepMerge_again (h : (Value.object layer).Distinct) :
    deepMerge (deepMerge base layer) layer = deepMerge base layer := by
  have hsame := mergeValue_again (some (.object base)) h
  rw [mergeValue_object, mergeValue_object] at hsame
  exact Value.object.inj hsame

/-- Names that are there keep their places, and the others follow in the order of the layer. -/
theorem keys_deepMerge (h : layer.keys.Nodup) :
    (deepMerge base layer).keys = base.keys ++ layer.keys.filter (· ∉ base.keys) := by
  induction layer generalizing base with
  | nil => simp [deepMerge, Record.keys]
  | cons m rest ih =>
      obtain ⟨key, v⟩ := m
      obtain ⟨hkey, hrest⟩ := List.nodup_cons.1 h
      have hcons : Record.keys ((key, v) :: rest) = key :: Record.keys rest := rfl
      rw [deepMerge, ih hrest, hcons]
      by_cases hmem : key ∈ base.keys
      · rw [Record.keys_put_of_mem base _ hmem, List.filter_cons_of_neg (by simpa using hmem)]
      · have hother : ∀ k ∈ Record.keys rest,
            decide (k ∉ base.keys ++ [key]) = decide (k ∉ base.keys) := by
          intro k hk
          have hne : k ≠ key := fun heq ↦ hkey (heq ▸ hk)
          simp [hne]
        rw [Record.keys_put_of_notMem hmem, List.filter_congr hother,
          List.filter_cons_of_pos (by simpa using hmem), List.append_assoc, List.singleton_append]

/-- An empty object takes on all that is laid over it. -/
theorem deepMerge_nil_left (h : layer.keys.Nodup) : deepMerge [] layer = layer := by
  have hlaid : ∀ base layer : Record Value, (Record.keys (base ++ layer)).Nodup →
      deepMerge base layer = base ++ layer := by
    intro base layer
    induction layer generalizing base with
    | nil => simp [deepMerge]
    | cons m rest ih =>
        intro h
        obtain ⟨key, v⟩ := m
        have hkey : key ∉ base.keys := by
          intro hmem
          rw [Record.keys, List.map_append, List.nodup_append] at h
          exact h.2.2 key hmem key (by simp) rfl
        have hrest := ih (base ++ [(key, v)]) (by simpa using h)
        rw [deepMerge, Record.get?_of_notMem hkey, mergeValue_none, Record.put_eq_append hkey]
        simpa using hrest
  exact hlaid [] layer h

/-- What three layers come to. -/
structure Layered (defaults file environment : Record Value) : Prop where
  /-- A single value of the environment holds. -/
  ofEnvironment : ∀ path leaf, leaf.isObject = false →
    (Value.object environment).at? path = some leaf →
      (Value.object (deepMerge (deepMerge defaults file) environment)).at? path = some leaf
  /-- A single value of the file holds where the environment says nothing. -/
  ofFile : ∀ path leaf, ¬ (Value.object environment).Reaches path → leaf.isObject = false →
    (Value.object file).at? path = some leaf →
      (Value.object (deepMerge (deepMerge defaults file) environment)).at? path = some leaf
  /-- Where neither of them says anything, there is what the defaults have there, or nothing. -/
  ofDefaults : ∀ path, ¬ (Value.object environment).Reaches path →
    ¬ (Value.object file).Reaches path →
    (Value.object (deepMerge (deepMerge defaults file) environment)).at? path =
      (Value.object defaults).at? path
  again : deepMerge (deepMerge defaults environment) environment = deepMerge defaults environment
  overEmpty : deepMerge [] defaults = defaults
  underEmpty : deepMerge defaults [] = defaults
  /-- Wherever objects meet, the names of the lower one come first. -/
  order : ∀ path lower upper, (Value.object defaults).at? path = some (.object lower) →
    (Value.object environment).at? path = some (.object upper) →
      ∃ members, (Value.object (deepMerge defaults environment)).at? path = some (.object members) ∧
        Record.keys members =
          Record.keys lower ++ (Record.keys upper).filter (· ∉ Record.keys lower)

theorem at?_deepMerge_of_leaf {leaf : Value} (hlayer : (Value.object layer).Distinct)
    (hleaf : leaf.isObject = false) (h : (Value.object layer).at? path = some leaf) :
    (Value.object (deepMerge base layer)).at? path = some leaf := by
  rw [← mergeValue_object]
  exact at?_mergeValue_of_leaf hlayer hleaf h

theorem at?_deepMerge_of_objects {lower upper : Record Value}
    (hlayer : (Value.object layer).Distinct)
    (hlower : (Value.object base).at? path = some (.object lower))
    (hupper : (Value.object layer).at? path = some (.object upper)) :
    (Value.object (deepMerge base layer)).at? path = some (.object (deepMerge lower upper)) := by
  rcases at?_mergeValue hlayer hlower with ⟨before, after, w, rfl, hafter, hw, hobject, -⟩ | h
  · obtain ⟨members, hmembers⟩ := Value.exists_object_of_at?_append hafter hupper
    rw [Option.some.inj (hw.symm.trans hmembers)] at hobject
    cases hobject
  · simpa [mergeValue_object, hupper] using h

/-- The environment stands above the file and the file above the defaults, value by value. -/
theorem layered_of_distinct (hdefaults : (Value.object defaults).Distinct)
    (hfile : (Value.object file).Distinct) (henvironment : (Value.object environment).Distinct) :
    Layered defaults file environment where
  ofEnvironment := fun _ _ hleaf h ↦ at?_deepMerge_of_leaf henvironment hleaf h
  ofFile := by
    intro path leaf hsilent hleaf h
    rw [at?_deepMerge_of_not_reaches henvironment hsilent]
    exact at?_deepMerge_of_leaf hfile hleaf h
  ofDefaults := by
    intro path hsilent hsilent'
    rw [at?_deepMerge_of_not_reaches henvironment hsilent,
      at?_deepMerge_of_not_reaches hfile hsilent']
  again := deepMerge_again henvironment
  overEmpty := deepMerge_nil_left hdefaults.nodup_keys
  underEmpty := rfl
  order := by
    intro path lower upper hlower hupper
    refine ⟨deepMerge lower upper, at?_deepMerge_of_objects henvironment hlower hupper, ?_⟩
    exact keys_deepMerge (henvironment.of_at? hupper).nodup_keys

def plainLook : Record Value :=
  [("mark", .object [("color", .text "black"), ("invalid", .text "filter")]),
   ("boxplot", .object [("extent", .text "tukey"), ("outliers", .bool true)])]

def filledOutliers : Record Value :=
  [("boxplot", .object [("outliers", .object [("filled", .bool true)]), ("size", .int 10)])]

def redWithoutOutliers : Record Value :=
  [("boxplot", .object [("outliers", .null)]), ("mark", .object [("color", .text "red")])]

theorem layered_of_distinct_redWithoutOutliers :
    Layered plainLook filledOutliers redWithoutOutliers ∧
    (Value.object (deepMerge (deepMerge plainLook filledOutliers) redWithoutOutliers)).at?
      ["boxplot", "outliers"] = some .null ∧
    (Value.object (deepMerge (deepMerge plainLook filledOutliers) redWithoutOutliers)).at?
      ["boxplot", "size"] = some (.int 10) ∧
    (Value.object (deepMerge (deepMerge plainLook filledOutliers) redWithoutOutliers)).at?
      ["mark", "invalid"] = some (.text "filter") := by
  have hdefaults : (Value.object plainLook).Distinct :=
    Value.distinct_of_isJson (by simp [plainLook, Record.keys])
  have hfile : (Value.object filledOutliers).Distinct :=
    Value.distinct_of_isJson (by simp [filledOutliers, Record.keys])
  have henvironment : (Value.object redWithoutOutliers).Distinct :=
    Value.distinct_of_isJson (by simp [redWithoutOutliers, Record.keys])
  have hlayered := layered_of_distinct hdefaults hfile henvironment
  have hoff : (Value.object redWithoutOutliers).at? ["boxplot", "outliers"] = some .null := rfl
  exact ⟨hlayered, hlayered.ofEnvironment _ _ rfl hoff, rfl, rfl⟩

end Settings

end ChartLowering
