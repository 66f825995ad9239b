import ChartLowering.Proofs.Value.Record
import Mathlib.Logic.Function.Basic

/-!
# Records under other names

Members can be looked up, put and taken out of a record just as well after all names have been
changed, as long as different names stay different.
-/

namespace ChartLowering.Record

variable {α : Type}

/-- The record with other names, and with values changed according to their names. -/
def convert (f : String → String) (g : String → α → α) (r : Record α) : Record α :=
  r.map fun m ↦ (f m.1, g m.1 m.2)

variable {f : String → String} {g : String → α → α}

theorem convert_append (r s : Record α) :
    convert f g (r ++ s) = convert f g r ++ convert f g s :=
  List.map_append

theorem convert_eq_self {r : Record α} (h : ∀ m ∈ r, f m.1 = m.1 ∧ g m.1 m.2 = m.2) :
    convert f g r = r := by
  have hmember : ∀ m ∈ r, (fun m : String × α ↦ (f m.1, g m.1 m.2)) m = id m :=
    fun m hm ↦ Prod.ext (h m hm).1 (h m hm).2
  rw [convert, List.map_congr_left hmember, List.map_id]

section Injective

variable (hf : Function.Injective f)

include hf

theorem get?_convert (r : Record α) (key : String) :
    (convert f g r).get? (f key) = (r.get? key).map (g key) := by
  induction r with
  | nil => rfl
  | cons m rest ih =>
      obtain ⟨k, v⟩ := m
      rw [convert, List.map_cons, get?_cons, get?_cons]
      by_cases hk : key = k
      · rw [if_pos hk, if_pos (congrArg f hk), hk]
        rfl
      · have hne : f key ≠ f k := fun h ↦ hk (hf h)
        rw [if_neg hk, if_neg hne]
        exact ih

theorem has_convert (r : Record α) (key : String) :
    (convert f g r).has (f key) = r.has key := by
  rw [has_eq_isSome, has_eq_isSome, get?_convert hf, Option.isSome_map]

theorem put_convert (r : Record α) (key : String) (v : α) :
    (convert f g r).put (f key) (g key v) = convert f g (r.put key v) := by
  induction r with
  | nil => rfl
  | cons m rest ih =>
      obtain ⟨k, w⟩ := m
      rw [convert, List.map_cons, put, put]
      by_cases hk : k = key
      · rw [if_pos (by simp [hk]), if_pos (by simp [hk])]
        rfl
      · rw [if_neg (by simpa using fun h ↦ hk (hf h)), if_neg (by simpa using hk)]
        exact congrArg (List.cons _) ih

theorem erase_convert (r : Record α) (key : String) :
    (convert f g r).erase (f key) = convert f g (r.erase key) := by
  induction r with
  | nil => rfl
  | cons m rest ih =>
      obtain ⟨k, w⟩ := m
      rw [convert, List.map_cons, erase_cons, erase_cons]
      by_cases hk : k = key
      · rw [if_pos hk, if_pos (congrArg f hk)]
        exact ih
      · rw [if_neg hk, if_neg fun h ↦ hk (hf h)]
        exact congrArg (List.cons _) ih

theorem without_convert (r : Record α) (keys : List String) :
    (convert f g r).without (keys.map f) = convert f g (r.without keys) := by
  have hcontains : ∀ key, (keys.map f).contains (f key) = keys.contains key := by
    intro key
    rw [Bool.eq_iff_iff, List.contains_iff_mem, List.contains_iff_mem, List.mem_map_of_injective hf]
  rw [without, without, convert, convert, List.filter_map]
  congr 1
  apply List.filter_congr
  intro m _
  exact congrArg not (hcontains m.1)

theorem override_convert (r s : Record α) :
    (convert f g r).override (convert f g s) = convert f g (r.override s) := by
  induction s generalizing r with
  | nil => rfl
  | cons m rest ih =>
      exact (congrArg (fun r ↦ override r _) (put_convert hf r m.1 m.2)).trans (ih (r.put m.1 m.2))

end Injective

end ChartLowering.Record
