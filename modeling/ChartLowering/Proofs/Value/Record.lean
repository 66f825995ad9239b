import ChartLowering.Value.Access
import Mathlib.Data.List.Nodup

/-!
# Records that members are laid over

Laying members over a record keeps its names distinct and adds no members but those.
-/

namespace ChartLowering.Record

variable {α : Type} {r s : Record α} {key : String} {value : α} {m : String × α}

theorem mem_of_mem_put (h : m ∈ r.put key value) : m = (key, value) ∨ m ∈ r := by
  induction r with
  | nil => exact .inl (List.mem_singleton.1 h)
  | cons n rest ih =>
      obtain ⟨k, v⟩ := n
      rw [put] at h
      split at h
      · obtain h | h := List.mem_cons.1 h
        · exact .inl h
        · exact .inr (List.mem_cons_of_mem _ h)
      · obtain h | h := List.mem_cons.1 h
        · exact .inr (h ▸ List.mem_cons_self)
        · exact (ih h).imp_right (List.mem_cons_of_mem _)

theorem mem_put_self (r : Record α) : (key, value) ∈ r.put key value := by
  induction r with
  | nil => exact List.mem_singleton_self _
  | cons n rest ih =>
      obtain ⟨k, v⟩ := n
      rw [put]
      split
      · exact List.mem_cons_self
      · exact List.mem_cons_of_mem _ ih

theorem mem_put_of_ne (hne : m.1 ≠ key) (h : m ∈ r) : m ∈ r.put key value := by
  induction r with
  | nil => cases h
  | cons n rest ih =>
      obtain ⟨k, v⟩ := n
      rw [put]
      obtain rfl | h := List.mem_cons.1 h
      · rw [if_neg (by simpa using hne)]
        exact List.mem_cons_self
      · split
        · exact List.mem_cons_of_mem _ h
        · exact List.mem_cons_of_mem _ (ih h)

theorem put_eq_self (h : r.get? key = some value) : r.put key value = r := by
  induction r with
  | nil => cases h
  | cons n rest ih =>
      obtain ⟨k, v⟩ := n
      rw [get?_cons] at h
      rw [put]
      split at h
      · rename_i hk
        rw [hk, Option.some.inj h, if_pos (beq_self_eq_true k)]
      · rename_i hk
        rw [if_neg (by simpa using Ne.symm hk), ih h]

theorem has_put_of_ne {other : String} (h : other ≠ key) :
    (r.put key value).has other = r.has other := by
  rw [has_eq_isSome, has_eq_isSome, get?_put_of_ne r value h]

theorem put_put (v w : α) : (r.put key v).put key w = r.put key w := by
  induction r with
  | nil => simp [put]
  | cons n rest ih =>
      obtain ⟨k, u⟩ := n
      by_cases hk : k = key
      · simp [put, hk]
      · simp [put, hk, ih]

/-- Members that are put under different names do not get in each other's way, as long as one of
them has its place already. -/
theorem put_comm {other : String} (h : other ≠ key) (hkey : r.has key = true) (v w : α) :
    (r.put other w).put key v = (r.put key v).put other w := by
  induction r with
  | nil => cases hkey
  | cons n rest ih =>
      obtain ⟨k, u⟩ := n
      by_cases hk : k = key
      · subst hk
        simp [put, h.symm]
      · have hrest : Record.has rest key = true := by simpa [has, hk] using hkey
        by_cases ho : k = other
        · subst ho
          simp [put, h]
        · simp [put, hk, ho, ih hrest]

theorem erase_put_of_ne {other : String} (h : key ≠ other) :
    (r.put key value).erase other = (r.erase other).put key value := by
  induction r with
  | nil => simp [put, erase, h]
  | cons n rest ih =>
      obtain ⟨k, v⟩ := n
      rw [put]
      split
      · rename_i hk
        obtain rfl := beq_iff_eq.1 hk
        rw [erase_cons, erase_cons, if_neg h, if_neg h, put, if_pos (beq_self_eq_true k)]
      · rename_i hk
        rw [erase_cons, erase_cons, ih]
        split
        · rfl
        · rw [put, if_neg hk]

theorem has_put (r : Record α) (key other : String) (value : α) :
    (r.put key value).has other = (other == key || r.has other) := by
  by_cases h : other = key
  · rw [h, has_eq_isSome, get?_put_self, beq_self_eq_true]
    rfl
  · rw [has_put_of_ne h, beq_eq_false_iff_ne.2 h, Bool.false_or]

/-- A member that is put last has its value put in the place where the members laid over others
have it. -/
theorem override_put (hs : s.keys.Nodup) (hkey : s.has key = true) :
    r.override (s.put key value) = (r.override s).put key value := by
  have hkeep : ∀ (t r : Record α), key ∉ t.keys → r.has key = true →
      (r.override t).put key value = Record.override (r.put key value) t := by
    intro t
    induction t with
    | nil => exact fun _ _ _ ↦ rfl
    | cons n rest ih =>
        intro r hne hr
        rw [keys, List.map_cons, List.mem_cons, not_or] at hne
        refine (ih (r.put n.1 n.2) hne.2 ?_).trans ?_
        · rw [has_put, hr, Bool.or_true]
        · rw [put_comm (Ne.symm hne.1) hr]
          rfl
  induction s generalizing r with
  | nil => cases hkey
  | cons n rest ih =>
      obtain ⟨k, v⟩ := n
      rw [keys, List.map_cons, List.nodup_cons] at hs
      rw [put]
      split
      · rename_i hk
        obtain rfl := beq_iff_eq.1 hk
        refine ((hkeep rest (r.put k v) hs.1 ?_).trans ?_).symm
        · rw [has_put, beq_self_eq_true, Bool.true_or]
        · rw [put_put]
          rfl
      · rename_i hk
        have hrest : Record.has rest key = true := by simpa [has, hk] using hkey
        exact ih hs.2 hrest

theorem erase_eq_self (h : r.has key = false) : r.erase key = r := by
  refine List.filter_eq_self.2 fun m hm ↦ ?_
  rw [has, List.any_eq_false] at h
  simpa using h m hm

theorem without_put {keys : List String} (h : key ∈ keys) :
    (r.put key value).without keys = r.without keys := by
  induction r with
  | nil => simp [put, without, h]
  | cons n rest ih =>
      obtain ⟨k, v⟩ := n
      rw [put]
      split
      · rename_i hk
        obtain rfl := beq_iff_eq.1 hk
        simp [without, h]
      · simp only [without, List.filter_cons] at ih ⊢
        rw [ih]

theorem without_put_of_notMem {keys : List String} (h : key ∉ keys) :
    (r.put key value).without keys = (r.without keys).put key value := by
  induction r with
  | nil => simp [put, without, h]
  | cons n rest ih =>
      obtain ⟨k, v⟩ := n
      rw [put]
      split
      · rename_i hk
        obtain rfl := beq_iff_eq.1 hk
        simp [without, put, h]
      · rename_i hk
        simp only [without, List.filter_cons] at ih ⊢
        split
        · rw [put, if_neg hk, ih]
        · exact ih

theorem without_override {keys : List String} :
    (r.override s).without keys = (r.without keys).override (s.without keys) := by
  induction s generalizing r with
  | nil => rfl
  | cons n rest ih =>
      obtain ⟨k, v⟩ := n
      refine (@ih (r.put k v)).trans ?_
      by_cases hk : k ∈ keys
      · rw [without_put hk]
        simp [without, hk]
      · rw [without_put_of_notMem hk]
        simp [without, hk, override]

theorem without_eq_self {keys : List String} (h : ∀ m ∈ r, m.1 ∉ keys) : r.without keys = r :=
  List.filter_eq_self.2 fun m hm ↦ by simpa using h m hm

theorem get?_without_of_notMem {keys : List String} (h : key ∉ keys) :
    (r.without keys).get? key = r.get? key := by
  induction r with
  | nil => rfl
  | cons m rest ih =>
      obtain ⟨k, v⟩ := m
      rw [without, List.filter_cons, get?_cons]
      split
      · rw [get?_cons]
        split
        · rfl
        · exact ih
      · rename_i hk
        rw [if_neg]
        · exact ih
        · rintro rfl
          exact hk (by simpa using h)

theorem has_without_of_mem {keys : List String} (h : key ∈ keys) :
    (r.without keys).has key = false := by
  rw [has, List.any_eq_false]
  intro m hm hkey
  have hkept := (List.mem_filter.1 hm).2
  rw [beq_iff_eq.1 hkey] at hkept
  simp [h] at hkept

theorem mem_of_mem_override (h : m ∈ r.override s) : m ∈ r ∨ m ∈ s := by
  induction s generalizing r with
  | nil => exact .inl h
  | cons n rest ih =>
      obtain h | h := ih h
      · exact (mem_of_mem_put h).elim (fun h ↦ .inr (h ▸ List.mem_cons_self)) .inl
      · exact .inr (List.mem_cons_of_mem _ h)

theorem has_override (hr : r.has key = false) (hs : s.has key = false) :
    (r.override s).has key = false := by
  rw [has, List.any_eq_false] at hr hs ⊢
  exact fun m hm ↦ (mem_of_mem_override hm).elim (hr m) (hs m)

theorem has_override_eq (r s : Record α) (key : String) :
    (r.override s).has key = (r.has key || s.has key) := by
  induction s generalizing r with
  | nil => exact (Bool.or_false _).symm
  | cons n rest ih =>
      obtain ⟨k, v⟩ := n
      show Record.has (override (r.put k v) rest) key = _
      rw [ih, has_put, has_cons, Bool.beq_comm, ← Bool.or_assoc, Bool.or_comm (k == key)]

theorem put_eq_append (h : key ∉ r.keys) : r.put key value = r ++ [(key, value)] := by
  induction r with
  | nil => rfl
  | cons n rest ih =>
      obtain ⟨k, v⟩ := n
      rw [keys, List.map_cons, List.mem_cons, not_or] at h
      rw [put, if_neg (by simpa using Ne.symm h.1), ih h.2]
      rfl

theorem keys_put_of_notMem (h : key ∉ r.keys) : (r.put key value).keys = r.keys ++ [key] := by
  rw [put_eq_append h]
  exact List.map_append

theorem override_eq_append (h : (keys (r ++ s)).Nodup) : r.override s = r ++ s := by
  induction s generalizing r with
  | nil => exact (List.append_nil r).symm
  | cons n rest ih =>
      obtain ⟨k, v⟩ := n
      have hsplit : r ++ (k, v) :: rest = r ++ [(k, v)] ++ rest := by simp
      have hk : k ∉ r.keys := by
        rw [keys, List.map_append, List.map_cons, List.nodup_append] at h
        exact fun hmem ↦ h.2.2 k hmem k List.mem_cons_self rfl
      show override (r.put k v) rest = _
      rw [put_eq_append hk, hsplit]
      exact ih (hsplit ▸ h)

theorem exists_put_eq (r : Record α) (key : String) :
    ∃ before after : Record α, key ∉ before.keys ∧ (r.keys.Nodup → key ∉ after.keys) ∧
      ∀ value, r.put key value = before ++ (key, value) :: after := by
  induction r with
  | nil => exact ⟨[], [], by simp [keys], by simp [keys], fun _ ↦ rfl⟩
  | cons m rest ih =>
      obtain ⟨k, v⟩ := m
      by_cases hk : k = key
      · subst hk
        refine ⟨[], rest, by simp [keys], fun hnodup ↦ (List.nodup_cons.1 hnodup).1,
          fun value ↦ ?_⟩
        rw [put, if_pos (beq_self_eq_true k)]
        rfl
      · obtain ⟨before, after, hbefore, hafter, hput⟩ := ih
        refine ⟨(k, v) :: before, after, ?_, fun hnodup ↦ hafter (List.nodup_cons.1 hnodup).2,
          fun value ↦ ?_⟩
        · rw [keys, List.map_cons, List.mem_cons, not_or]
          exact ⟨Ne.symm hk, hbefore⟩
        · rw [put, if_neg (by simpa using hk), hput value]
          rfl

theorem get?_of_notMem (h : key ∉ r.keys) : r.get? key = none := by
  rw [← Option.not_isSome_iff_eq_none, ← has_eq_isSome, has, List.any_eq_true]
  rintro ⟨m, hm, hkey⟩
  exact h (List.mem_map.2 ⟨m, hm, beq_iff_eq.1 hkey⟩)

theorem get?_append_of_notMem (h : key ∉ r.keys) : Record.get? (r ++ s) key = s.get? key := by
  induction r with
  | nil => rfl
  | cons m rest ih =>
      obtain ⟨k, v⟩ := m
      rw [keys, List.map_cons, List.mem_cons, not_or] at h
      rw [List.cons_append, get?_cons, if_neg h.1]
      exact ih h.2

theorem nodup_keys_put (h : r.keys.Nodup) : (r.put key value).keys.Nodup := by
  by_cases hmem : key ∈ r.keys
  · rwa [keys_put_of_mem r value hmem]
  · rw [keys_put_of_notMem hmem]
    refine List.nodup_append.2 ⟨h, by simp, ?_⟩
    intro k hk other hother heq
    rw [List.mem_singleton] at hother
    exact hmem (hother ▸ heq ▸ hk)

theorem nodup_keys_override (h : r.keys.Nodup) : (r.override s).keys.Nodup := by
  induction s generalizing r with
  | nil => exact h
  | cons n rest ih => exact ih (nodup_keys_put h)

theorem eq_of_mem_of_nodup (h : r.keys.Nodup) {v w : α} (hv : (key, v) ∈ r)
    (hw : (key, w) ∈ r) : v = w :=
  congrArg Prod.snd (List.inj_on_of_nodup_map h hv hw rfl)

theorem mem_of_get? (h : r.get? key = some value) : (key, value) ∈ r := by
  induction r with
  | nil => cases h
  | cons n rest ih =>
      obtain ⟨k, v⟩ := n
      rw [get?_cons] at h
      split at h
      · rename_i hk
        rw [hk, Option.some.inj h]
        exact List.mem_cons_self
      · exact List.mem_cons_of_mem _ (ih h)

theorem get?_of_mem (hr : r.keys.Nodup) (h : (key, value) ∈ r) : r.get? key = some value := by
  have hsome : (r.get? key).isSome := by
    rw [← has_eq_isSome, has, List.any_eq_true]
    exact ⟨_, h, beq_self_eq_true key⟩
  obtain ⟨v, hv⟩ := Option.isSome_iff_exists.1 hsome
  rw [hv, eq_of_mem_of_nodup hr (mem_of_get? hv) h]

theorem get?_override (hs : s.keys.Nodup) (key : String) :
    (r.override s).get? key = (s.get? key).or (r.get? key) := by
  induction s generalizing r with
  | nil => rfl
  | cons n rest ih =>
      obtain ⟨k, v⟩ := n
      rw [keys, List.map_cons, List.nodup_cons] at hs
      show Record.get? (override (r.put k v) rest) key = _
      rw [ih hs.2, get?_cons]
      by_cases hkey : key = k
      · rw [if_pos hkey, hkey, get?_put_self, get?_of_notMem hs.1]
        rfl
      · rw [if_neg hkey, get?_put_of_ne _ _ hkey]

theorem get?_override_of_ne (h : ∀ m ∈ s, m.1 ≠ key) : (r.override s).get? key = r.get? key := by
  induction s generalizing r with
  | nil => rfl
  | cons m rest ih =>
      obtain ⟨hm, hrest⟩ := List.forall_mem_cons.1 h
      exact (ih hrest).trans (get?_put_of_ne _ _ hm.symm)

theorem mem_override (hs : s.keys.Nodup) (h : m ∈ s) : m ∈ r.override s := by
  have hkeep : ∀ (t r : Record α), m.1 ∉ t.keys → m ∈ r → m ∈ r.override t := by
    intro t
    induction t with
    | nil => exact fun r _ hm ↦ hm
    | cons n rest ih =>
        intro r hne hm
        rw [keys, List.map_cons, List.mem_cons, not_or] at hne
        exact ih _ hne.2 (mem_put_of_ne hne.1 hm)
  induction s generalizing r with
  | nil => cases h
  | cons n rest ih =>
      rw [keys, List.map_cons, List.nodup_cons] at hs
      obtain rfl | h := List.mem_cons.1 h
      · exact hkeep rest _ hs.1 (mem_put_self r)
      · exact ih hs.2 h

section Values

variable {r : Record Value} {key other : String} {v : Value}

@[simp] theorem value_put_self : (r.put key v).value key = v := by
  rw [value, get?_put_self, Value.ofOption]

theorem value_put_of_ne (h : other ≠ key) : (r.put key v).value other = r.value other := by
  rw [value, get?_put_of_ne r v h, value]

theorem get?_of_value (h : r.value key = v) (hv : v ≠ .null) : r.get? key = some v := by
  rw [value] at h
  cases hfound : r.get? key with
  | none =>
      rw [hfound] at h
      exact (hv h.symm).elim
  | some w =>
      rw [hfound] at h
      exact congrArg some h

theorem value_of_get? (h : r.get? key = some v) : r.value key = v := by
  rw [value, h, Value.ofOption]

theorem value_of_none (h : r.get? key = none) : r.value key = .null := by
  rw [value, h, Value.ofOption]

@[simp] theorem require_put_self : (r.put key v).require key = .ok v := by
  rw [require, get?_put_self]
  rfl

theorem require_put_of_ne (h : other ≠ key) :
    (r.put key v).require other = r.require other := by
  rw [require, get?_put_of_ne r v h, require]

end Values

end ChartLowering.Record
