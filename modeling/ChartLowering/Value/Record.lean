/-!
# Records

Named members in the order in which they were added. A name that is put again keeps its place.
-/

namespace ChartLowering

abbrev Record (α : Type) := List (String × α)

namespace Record

variable {α : Type}

def get? (r : Record α) (key : String) : Option α := r.lookup key

def has (r : Record α) (key : String) : Bool := r.any fun m ↦ m.1 == key

def keys (r : Record α) : List String := r.map Prod.fst

/-- Replaces the member of that name in place, or adds one at the end. -/
def put : Record α → String → α → Record α
  | [], key, value => [(key, value)]
  | (k, v) :: rest, key, value =>
      if k == key then (key, value) :: rest else (k, v) :: put rest key value

def erase (r : Record α) (key : String) : Record α := r.filter fun m ↦ m.1 != key

def without (r : Record α) (keys : List String) : Record α := r.filter fun m ↦ !keys.contains m.1

/-- The members of the second record over those of the first. -/
def override (r s : Record α) : Record α := s.foldl (fun r m ↦ r.put m.1 m.2) r

@[simp] theorem get?_nil (key : String) : get? ([] : Record α) key = none := rfl

theorem get?_put_self (r : Record α) (key : String) (value : α) :
    (r.put key value).get? key = some value := by
  induction r with
  | nil => simp [put, get?]
  | cons m rest ih =>
      obtain ⟨k, v⟩ := m
      by_cases h : k = key
      · simp [put, get?, h]
      · have h' : (key == k) = false := by simpa using fun e ↦ h e.symm
        simpa [put, get?, h, List.lookup_cons, h'] using ih

theorem get?_put_of_ne (r : Record α) {key other : String} (value : α) (h : other ≠ key) :
    (r.put key value).get? other = r.get? other := by
  have h' : (other == key) = false := by simpa using h
  induction r with
  | nil => simp [put, get?, List.lookup_cons, h']
  | cons m rest ih =>
      obtain ⟨k, v⟩ := m
      by_cases hk : k = key
      · subst hk
        simp [put, get?, List.lookup_cons, h']
      · simp only [put, beq_iff_eq, hk, if_false, get?, List.lookup_cons]
        cases other == k with
        | true => rfl
        | false => exact ih

theorem get?_cons (k : String) (v : α) (r : Record α) (key : String) :
    get? ((k, v) :: r) key = if key = k then some v else r.get? key := by
  by_cases h : key = k
  · simp [get?, h]
  · have h' : (key == k) = false := by simpa using h
    simp [get?, List.lookup_cons, h', h]

theorem erase_cons (k : String) (v : α) (r : Record α) (key : String) :
    erase ((k, v) :: r) key = if k = key then r.erase key else (k, v) :: r.erase key := by
  by_cases h : k = key <;> simp [erase, h]

theorem has_cons (k : String) (v : α) (r : Record α) (key : String) :
    has ((k, v) :: r) key = (k == key || r.has key) := rfl

theorem has_eq_isSome (r : Record α) (key : String) : r.has key = (r.get? key).isSome := by
  induction r with
  | nil => rfl
  | cons m rest ih =>
      obtain ⟨k, v⟩ := m
      rw [has_cons, get?_cons, ih]
      by_cases h : k = key
      · simp [h]
      · simp [h, Ne.symm h]

theorem get?_erase_self (r : Record α) (key : String) : (r.erase key).get? key = none := by
  induction r with
  | nil => rfl
  | cons m rest ih =>
      obtain ⟨k, v⟩ := m
      rw [erase_cons]
      split
      · exact ih
      · rename_i h
        rw [get?_cons, if_neg (Ne.symm h), ih]

theorem get?_erase_of_ne (r : Record α) {key other : String} (h : other ≠ key) :
    (r.erase key).get? other = r.get? other := by
  induction r with
  | nil => rfl
  | cons m rest ih =>
      obtain ⟨k, v⟩ := m
      rw [erase_cons, get?_cons]
      split
      · rename_i hk
        rw [ih, if_neg (hk ▸ h)]
      · rw [get?_cons, ih]

theorem keys_put_of_mem (r : Record α) {key : String} (value : α) (h : key ∈ r.keys) :
    (r.put key value).keys = r.keys := by
  induction r with
  | nil => simp [keys] at h
  | cons m rest ih =>
      obtain ⟨k, v⟩ := m
      by_cases hk : k = key
      · simp [put, keys, hk]
      · have h' : key ∈ Record.keys rest := by
          simpa [keys, Ne.symm hk] using h
        simpa [put, keys, hk] using ih h'

end Record

end ChartLowering
