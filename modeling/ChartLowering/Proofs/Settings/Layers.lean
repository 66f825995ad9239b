import ChartLowering.Proofs.Value.Record
import ChartLowering.Settings.Layered

/-!
# Values over values

Where a layer says something, the result says the same, as far as neither of them is an object that
only adds to the other. What a layer passes over stays as it was.
-/

namespace ChartLowering

namespace Value

variable {v leaf : Value} {members : Record Value} {path : List String} {key : String}
  {o : Opening}

/-- What stands at a path of names into objects. -/
def at? (v : Value) : List String → Option Value
  | [] => some v
  | key :: rest => (v.member? key).bind fun w ↦ w.at? rest

theorem at?_object : (object members).at? (key :: path) = (members.get? key).bind (at? · path) :=
  rfl

theorem at?_of_not_object (h : v.isObject = false) : v.at? (key :: path) = none := by
  cases v with
  | object members => cases h
  | null | bool | int | float | text | list | set | fieldDef => rfl

theorem exists_of_isObject (h : v.isObject = true) : ∃ members, v = .object members := by
  cases v with
  | object members => exact ⟨members, rfl⟩
  | null | bool | int | float | text | list | set | fieldDef => cases h

theorem exists_object_of_at? (hpath : path ≠ []) (h : v.at? path = some leaf) :
    ∃ members, v = .object members := by
  obtain ⟨key, rest, rfl⟩ := List.exists_cons_of_ne_nil hpath
  cases hobject : v.isObject with
  | true => exact exists_of_isObject hobject
  | false =>
      rw [at?_of_not_object hobject] at h
      cases h

/-- A value in which no object has two members of one name. -/
def Distinct (v : Value) : Prop :=
  ∀ path members, v.at? path = some (.object members) → (Record.keys members).Nodup

theorem Distinct.nodup_keys (h : Distinct (.object members)) : members.keys.Nodup :=
  h [] members rfl

theorem Distinct.of_get? (h : Distinct (.object members)) (hv : members.get? key = some v) :
    Distinct v := by
  intro path inner hinner
  refine h (key :: path) inner ?_
  rw [at?_object, hv]
  exact hinner

theorem Distinct.of_at? (h : Distinct v) (hleaf : v.at? path = some leaf) : Distinct leaf := by
  induction path generalizing v with
  | nil => rwa [← Option.some.inj hleaf]
  | cons key rest ih =>
      obtain ⟨members, rfl⟩ := exists_object_of_at? (List.cons_ne_nil _ _) hleaf
      obtain ⟨w, hw, hleaf⟩ := Option.bind_eq_some_iff.1 hleaf
      exact ih (h.of_get? hw) hleaf

theorem distinct_of_not_object (h : v.isObject = false) : Distinct v := by
  rintro (_ | ⟨key, rest⟩) members hmembers
  · rw [Option.some.inj hmembers] at h
    cases h
  · rw [at?_of_not_object h] at hmembers
    cases hmembers

theorem distinct_object (h : members.keys.Nodup) (hmembers : ∀ m ∈ members, Distinct m.2) :
    Distinct (.object members) := by
  rintro (_ | ⟨key, rest⟩) inner hinner
  · rwa [← Value.object.inj (Option.some.inj hinner)]
  · obtain ⟨v, hv, hinner⟩ := Option.bind_eq_some_iff.1 hinner
    exact hmembers _ (Record.mem_of_get? hv) rest inner hinner

theorem at?_opened (h : v.at? path = some leaf) :
    (v.opened o).at? path = some (leaf.opened o) := by
  induction path generalizing v with
  | nil => exact congrArg (fun v ↦ some (opened o v)) (Option.some.inj h)
  | cons key rest ih =>
      obtain ⟨members, rfl⟩ := exists_object_of_at? (List.cons_ne_nil _ _) h
      obtain ⟨w, hw, h⟩ := Option.bind_eq_some_iff.1 h
      have hopened : (openedMembers o members).lookup key = some (w.opened o) := by
        have hmap := get?_openedMembers o members key
        rwa [show Record.get? members key = some w from hw] at hmap
      rw [opened]
      exact Option.bind_eq_some_iff.2 ⟨w.opened o, hopened, ih h⟩

end Value

namespace Settings

variable {base layer : Record Value} {current v leaf : Value} {key : String} {path : List String}

theorem get?_deepMerge (h : layer.keys.Nodup) : (deepMerge base layer).get? key =
    ((layer.get? key).map (mergeValue (base.get? key))).or (base.get? key) := by
  -- Every member of the layer is put into the base that the members before it have left.
  induction layer generalizing base with
  | nil => rfl
  | cons m rest ih =>
      obtain ⟨k, v⟩ := m
      rw [Record.keys, List.map_cons, List.nodup_cons] at h
      rw [deepMerge, ih h.2, Record.get?_cons]
      by_cases hk : key = k
      · subst hk
        rw [if_pos rfl, Record.get?_put_self, Record.get?_of_notMem h.1]
        rfl
      · rw [if_neg hk, Record.get?_put_of_ne _ _ hk]

theorem mergeValue_of_not_object {current : Option Value} (h : v.isObject = false) :
    mergeValue current v = v := by
  cases v with
  | object members => cases h
  | null | bool | int | float | text | list | set | fieldDef => rfl

theorem mergeValue_over {old : Value} (h : old.isObject = false) :
    mergeValue (some old) v = v := by
  cases v with
  | object members =>
      cases old with
      | object base => cases h
      | null | bool | int | float | text | list | set | fieldDef => rfl
  | null | bool | int | float | text | list | set | fieldDef => rfl

theorem mergeValue_none : mergeValue none v = v := by
  cases v <;> rfl

theorem mergeValue_object (base layer : Record Value) :
    mergeValue (some (.object base)) (.object layer) = .object (deepMerge base layer) := by
  rw [mergeValue]

theorem isObject_mergeValue {current : Option Value} (h : v.isObject = true) :
    (mergeValue current v).isObject = true := by
  obtain ⟨layer, rfl⟩ := Value.exists_of_isObject h
  match current with
  | none => rfl
  | some old =>
      cases hold : old.isObject with
      | false => rw [mergeValue_over hold, h]
      | true =>
          obtain ⟨base, rfl⟩ := Value.exists_of_isObject hold
          rw [mergeValue_object]
          rfl

/-- Every single value of a layer is there in the result. -/
theorem at?_mergeValue_of_leaf {current : Option Value} (hv : v.Distinct)
    (hleaf : leaf.isObject = false) (h : v.at? path = some leaf) :
    (mergeValue current v).at? path = some leaf := by
  induction path generalizing v current with
  | nil =>
      obtain rfl := Option.some.inj h
      rw [mergeValue_of_not_object hleaf]
      rfl
  | cons key rest ih =>
      obtain ⟨layer, rfl⟩ := Value.exists_object_of_at? (List.cons_ne_nil _ _) h
      match current with
      | none => rwa [mergeValue_none]
      | some old =>
          cases hold : old.isObject with
          | false => rwa [mergeValue_over hold]
          | true =>
              obtain ⟨base, rfl⟩ := Value.exists_of_isObject hold
              rw [Value.at?_object] at h
              obtain ⟨w, hw, h⟩ := Option.bind_eq_some_iff.1 h
              rw [mergeValue_object, Value.at?_object, get?_deepMerge hv.nodup_keys, hw]
              exact ih (hv.of_get? hw) h

/-- What stands at a path in the result, if there was something there before. Only where the layer
has another value in place of an object above does it not go on from what was there. -/
theorem at?_mergeValue {old base : Value} (hv : v.Distinct) (h : base.at? path = some old) :
    (∃ before after w, before ++ after = path ∧ after ≠ [] ∧ v.at? before = some w ∧
      w.isObject = false ∧ (mergeValue (some base) v).at? before = some w) ∨
    (mergeValue (some base) v).at? path =
      some (((v.at? path).map (mergeValue (some old))).getD old) := by
  induction path generalizing v base with
  | nil =>
      obtain rfl := Option.some.inj h
      exact .inr rfl
  | cons key rest ih =>
      obtain ⟨members, rfl⟩ := Value.exists_object_of_at? (List.cons_ne_nil _ _) h
      cases hobject : v.isObject with
      | false =>
          refine .inl ⟨[], key :: rest, v, rfl, List.cons_ne_nil _ _, rfl, hobject, ?_⟩
          rw [mergeValue_of_not_object hobject]
          rfl
      | true =>
          obtain ⟨layer, rfl⟩ := Value.exists_of_isObject hobject
          rw [Value.at?_object] at h
          obtain ⟨w, hw, h⟩ := Option.bind_eq_some_iff.1 h
          rw [mergeValue_object, Value.at?_object, Value.at?_object,
            get?_deepMerge hv.nodup_keys, hw]
          cases hu : Record.get? layer key with
          | none => exact .inr h
          | some u =>
              obtain ⟨before, after, leaf, rfl, hafter, hleaf⟩ | hgo := ih (hv.of_get? hu) h
              · refine .inl ⟨key :: before, after, leaf, rfl, hafter, ?_, hleaf.2.1, ?_⟩
                · rw [Value.at?_object, hu]
                  exact hleaf.1
                · rw [Value.at?_object, get?_deepMerge hv.nodup_keys, hw, hu]
                  exact hleaf.2.2
              · exact .inr hgo

end Settings

end ChartLowering
