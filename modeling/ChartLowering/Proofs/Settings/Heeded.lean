import ChartLowering.Proofs.Settings.Recognized

/-!
# Settings that are heeded

A layer of settings is laid over the ones before as they are written, and the result is read again.
A setting that the layer gives is heeded if the layer calls it by the name that it is written under,
and one that it does not give keeps its value if that reads back as it is.
-/

namespace ChartLowering.Setting

open Settings

variable {x : Setting} {base s : Settings} {cfg : Record Value} {v w : Value}

/-- The value that a layer gives under the name by which the setting is written. -/
def heard? (x : Setting) (cfg : Record Value) : Option Value := (Value.object cfg).at? x.path

/-- The value that a layer gives for a setting by any name. -/
def given? (x : Setting) (cfg : Record Value) : Option Value :=
  (x.heard? cfg).or (x.synonym.bind (Value.object cfg).at?)

/-- Does a setting take a given value? It becomes what is made of that, but an object over an object
gives its single values only. -/
def Takes (x : Setting) (old v new : Value) : Prop :=
  (v.isObject = false ∨ old.isObject = false → x.coerced v = some new) ∧
    ∀ path leaf, path ≠ [] → v.at? path = some leaf → leaf.isObject = false →
      new.at? path = some leaf

/-- Does a layer have the effect on a setting that it should have? -/
def Heeds (x : Setting) (cfg : Record Value) (base s : Settings) : Prop :=
  match x.given? cfg with
  | some v => x.Takes (x.value base) v (x.value s)
  | none => x.value s = x.value base

/-- Can a layer have that effect? What it gives by the name that the setting is written under is
heard; what it gives by another name makes no difference. What it passes over is written and read
again, unless it says nothing at all. -/
def Reaches (x : Setting) (cfg : Record Value) (base : Settings) : Prop :=
  match x.given? cfg with
  | some v => (x.heard? cfg).isSome ∨ x.coerced v = some (x.value base)
  | none => cfg = [] ∨ (x.value base).opened .whole = x.value base

instance (x : Setting) (cfg : Record Value) (base : Settings) : Decidable (x.Reaches cfg base) :=
  match h : x.given? cfg with
  | some v =>
      decidable_of_iff ((x.heard? cfg).isSome ∨ x.coerced v = some (x.value base)) (by
        rw [Reaches, h])
  | none =>
      decidable_of_iff (cfg = [] ∨ (x.value base).opened .whole = x.value base) (by
        rw [Reaches, h])

theorem apply_eq_ok (h : base.apply (.object cfg) = .ok s) :
    cfg = [] ∧ s = base ∨ cfg ≠ [] ∧ ofMembers (deepMerge base.members cfg) = .ok s := by
  rw [apply.eq_def] at h
  split at h
  · rename_i hnil
    obtain rfl := Value.object.inj hnil
    exact .inl ⟨rfl, (Except.ok.inj h).symm⟩
  · rename_i members hne hobject
    obtain rfl := Value.object.inj hobject
    refine .inr ⟨hne, ?_⟩
    split at h
    · cases h
    · exact h
  · rename_i hnone
    exact absurd rfl (hnone cfg)

section Heeding

variable (hx : x.Lawful) (hbase : base.HasBlocks) (hcfg : Value.Distinct (.object cfg))

include hx hbase hcfg

/-- A setting is read from what the layer says over what was there. -/
theorem coerced_laid (h : ofMembers (deepMerge base.members cfg) = .ok s) :
    x.coerced (((x.heard? cfg).map (mergeValue (some ((x.value base).opened .whole)))).getD
      ((x.value base).opened .whole)) = some (x.value s) := by
  have hold : (Value.object base.members).at? x.path = some ((x.value base).opened .whole) := by
    rw [members_eq_opened]
    exact Value.at?_opened (hx.written base hbase).1
  have hlaid := at?_mergeValue hcfg hold
  rw [mergeValue_object] at hlaid
  obtain ⟨before, after, w, hpath, hafter, -, hw, hstands⟩ | hgo := hlaid
  · rw [hx.above _ s h before after w hpath hafter hstands] at hw
    cases hw
  · exact hx.read _ s h _ hgo

theorem takes_of_heard (h : ofMembers (deepMerge base.members cfg) = .ok s)
    (hv : x.heard? cfg = some v) : x.Takes (x.value base) v (x.value s) := by
  have hlaid := coerced_laid hx hbase hcfg h
  rw [hv, Option.map_some, Option.getD_some] at hlaid
  refine ⟨fun hsingle ↦ ?_, fun path leaf hpath hat hleaf ↦ ?_⟩
  · obtain hsingle | hsingle := hsingle
    · rwa [mergeValue_of_not_object hsingle] at hlaid
    · rw [← (hx.plain.opened (hx.written base hbase).2 .whole).2] at hsingle
      rwa [mergeValue_over hsingle] at hlaid
  · obtain ⟨said, rfl⟩ := Value.exists_object_of_at? hpath hat
    obtain ⟨members, hmembers⟩ :=
      Value.exists_of_isObject (isObject_mergeValue (v := .object said) rfl)
    rw [hmembers] at hlaid
    rw [hx.plain.eq_of_object hlaid, ← hmembers]
    exact at?_mergeValue_of_leaf (hcfg.of_at? hv) hleaf hat

theorem value_of_unheard (h : ofMembers (deepMerge base.members cfg) = .ok s)
    (hnone : x.heard? cfg = none) : x.value s = (x.value base).opened .whole := by
  have hlaid := coerced_laid hx hbase hcfg h
  rw [hnone, Option.map_none, Option.getD_none,
    (hx.plain.opened (hx.written base hbase).2 .whole).1] at hlaid
  exact (Option.some.inj hlaid).symm

end Heeding

theorem given?_nil (hx : x.Lawful) : x.given? [] = none := by
  have hempty : ∀ path : List String, path ≠ [] → (Value.object []).at? path = none := by
    rintro (_ | ⟨key, rest⟩) hpath
    · exact absurd rfl hpath
    · rfl
  rw [given?, heard?, hempty _ hx.named.1, Option.none_or]
  cases hsynonym : x.synonym with
  | none => rfl
  | some path =>
      refine hempty path fun hnil ↦ hx.named.2 ?_
      rw [hsynonym, hnil]

/-- A setting is heeded just if it is given by the name that it is written under, or given as what
it is already; and if it is not given, just if it is read as what has been written. -/
theorem heeds_iff_reaches (hbase : base.HasBlocks) (hcfg : Value.Distinct (.object cfg))
    (h : base.apply (.object cfg) = .ok s) (hx : x ∈ recognized) :
    x.Heeds cfg base s ↔ x.Reaches cfg base := by
  have hx := lawful_of_recognized hx
  obtain ⟨rfl, rfl⟩ | ⟨hne, h⟩ := apply_eq_ok h
  · rw [Heeds, Reaches, given?_nil hx]
    exact iff_of_true rfl (.inl rfl)
  rw [Heeds, Reaches]
  cases hheard : x.heard? cfg with
  | some v =>
      have hgiven : x.given? cfg = some v := by
        rw [given?, hheard]
        rfl
      rw [hgiven]
      exact iff_of_true (takes_of_heard hx hbase hcfg h hheard) (.inl rfl)
  | none =>
      have hvalue := value_of_unheard hx hbase hcfg h hheard
      cases hgiven : x.given? cfg with
      | none =>
          rw [hvalue]
          exact (or_iff_right hne).symm
      | some v =>
          have hsynonym : x.synonym.isSome := by
            rw [given?, hheard] at hgiven
            cases hsynonym : x.synonym with
            | none =>
                rw [hsynonym] at hgiven
                cases hgiven
            | some path => rfl
          -- Given by its other name only, it stays the text that it is.
          obtain ⟨text, htext⟩ := hx.text hsynonym base
          rw [hvalue, htext]
          constructor
          · rintro ⟨htakes, -⟩
            exact .inr (htakes (.inr rfl))
          · rintro (hheard | hcoerced)
            · cases hheard
            refine ⟨fun _ ↦ hcoerced, fun path leaf hpath hat _ ↦ ?_⟩
            obtain ⟨members, rfl⟩ := Value.exists_object_of_at? hpath hat
            cases hx.plain.eq_of_object hcoerced

/-- A layer with a style over one that is there already, and with a title. -/
def styledMedian : Record Value :=
  [("boxplot", .object [("extent", .int 3), ("median", .object [("opacity", .int 1)])]),
   ("countTitle", .text "Rows")]

theorem distinct_styledMedian : Value.Distinct (.object styledMedian) := by
  refine Value.distinct_object (by decide) ?_
  simp only [styledMedian, List.forall_mem_cons]
  refine ⟨Value.distinct_object (by decide) ?_, Value.distinct_of_not_object rfl,
    fun _ hm ↦ nomatch hm⟩
  simp only [List.forall_mem_cons]
  refine ⟨Value.distinct_of_not_object rfl, Value.distinct_object (by decide) ?_,
    fun _ hm ↦ nomatch hm⟩
  simp only [List.forall_mem_cons]
  exact ⟨Value.distinct_of_not_object rfl, fun _ hm ↦ nomatch hm⟩

theorem exists_of_apply (h : (base.apply (.object cfg)).toOption.isSome) :
    ∃ s, base.apply (.object cfg) = .ok s := by
  cases hs : base.apply (.object cfg) with
  | ok s => exact ⟨s, rfl⟩
  | error fault =>
      rw [hs] at h
      cases h

theorem heeds_styledMedian : ∃ s, Settings.apply {} (.object styledMedian) = .ok s ∧
    ∀ x ∈ recognized, x.Heeds styledMedian {} s := by
  obtain ⟨s, hs⟩ := @exists_of_apply {} styledMedian (by decide +kernel)
  have hreaches : ∀ x ∈ recognized, x.Reaches styledMedian {} := by decide +kernel
  exact ⟨s, hs, fun x hx ↦
    (heeds_iff_reaches hasBlocks_default distinct_styledMedian hs hx).2 (hreaches x hx)⟩

/-- A title that is given by its other name is lost. -/
theorem not_heeds_otherName : ∃ s,
    Settings.apply {} (.object [("count_title", .text "Rows")]) = .ok s ∧
      s.countTitle = "Count of Records" ∧
      ¬countTitle.Heeds [("count_title", .text "Rows")] {} s := by
  obtain ⟨s, hs⟩ := @exists_of_apply {} [("count_title", .text "Rows")] (by decide +kernel)
  have htitle : (Settings.apply {} (.object [("count_title", .text "Rows")])).toOption.map
      Settings.countTitle = some "Count of Records" := by decide +kernel
  rw [hs] at htitle
  have htitle : s.countTitle = "Count of Records" := Option.some.inj htitle
  refine ⟨s, hs, htitle, fun h ↦ ?_⟩
  have htakes : countTitle.Takes (countTitle.value {}) (.text "Rows") (.text s.countTitle) := h
  have hsame : some (Value.text "Rows") = some (.text s.countTitle) := htakes.1 (.inl rfl)
  rw [htitle] at hsame
  exact absurd hsame (by decide)

end ChartLowering.Setting
