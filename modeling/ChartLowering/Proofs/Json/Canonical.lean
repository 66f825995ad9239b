import ChartLowering.FieldDef.Basic
import ChartLowering.Proofs.Json.Tree
import ChartLowering.Proofs.Report
import ChartLowering.Proofs.Value.Record

/-!
# What a canonical text tells

The canonical text of an object tells its members, each by its name and the tree of its value, but
not their order. Of a checked field definition it tells the members that are set.
-/

namespace ChartLowering

open Json

namespace Value

theorem storedMembers_eq_map (r : Record Value) :
    storedMembers r = r.map fun m ↦ (m.1, stored m.2) := by
  induction r with
  | nil => rfl
  | cons m rest ih => rw [storedMembers, ih, List.map_cons]

theorem storedAttributes_eq_map (r : Record Value) :
    storedAttributes r = (r.filter fun m ↦ !m.2.isNull).map fun m ↦ (m.1, stored m.2) := by
  induction r with
  | nil => rfl
  | cons m rest ih =>
      rw [storedAttributes, ih, List.filter_cons]
      cases m.2.isNull <;> rfl

theorem sortedMembers_eq_map (r : Record Value) :
    sortedMembers r = r.map fun m ↦ (m.1, sorted m.2) := by
  induction r with
  | nil => rfl
  | cons m rest ih => rw [sortedMembers, ih, List.map_cons]

theorem treeMembers_eq_map (r : Record Value) :
    treeMembers r = r.map fun m ↦ (m.1, tree m.2) := by
  induction r with
  | nil => rfl
  | cons m rest ih => rw [treeMembers, ih, List.map_cons]

theorem mem_byName_iff {r : Record Value} {m : String × Value} : m ∈ byName r ↔ m ∈ r :=
  (List.mergeSort_perm _ _).mem_iff

/-- Members of distinct names have one order by name. -/
theorem byName_eq_of_perm {r s : Record Value} (h : r.Perm s) (hr : r.keys.Nodup) :
    byName r = byName s := by
  have hle (r : Record Value) : (byName r).Pairwise fun a b ↦ a.1 ≤ b.1 := by
    have hsorted : (byName r).Pairwise fun a b ↦ decide (a.1 ≤ b.1) = true :=
      List.pairwise_mergeSort (by simpa using fun _ _ _ ↦ String.le_trans)
        (by simpa using String.le_total) r
    exact hsorted.imp of_decide_eq_true
  have hperm : (byName r).Perm (byName s) :=
    (List.mergeSort_perm _ _).trans (h.trans (List.mergeSort_perm _ _).symm)
  refine hperm.eq_of_pairwise ?_ (hle r) (hle s)
  rintro ⟨k, v⟩ ⟨l, w⟩ hv hw hkl hlk
  obtain rfl : k = l := String.le_antisymm hkl hlk
  rw [mem_byName_iff] at hv hw
  rw [Record.eq_of_mem_of_nodup hr hv (h.mem_iff.2 hw)]

theorem mem_treeMembers_sorted_iff {r : Record Value} {key : String} {t : Tree} :
    (key, t) ∈ treeMembers (byName (sortedMembers r)) ↔
      ∃ v, (key, v) ∈ r ∧ t = tree (sorted v) := by
  rw [treeMembers_eq_map, List.mem_map]
  constructor
  · rintro ⟨m, hm, h⟩
    rw [mem_byName_iff, sortedMembers_eq_map, List.mem_map] at hm
    obtain ⟨⟨k, v⟩, hv, rfl⟩ := hm
    obtain ⟨rfl, rfl⟩ := Prod.mk.inj h
    exact ⟨v, hv, rfl⟩
  · rintro ⟨v, hv, rfl⟩
    refine ⟨(key, sorted v), ?_, rfl⟩
    rw [mem_byName_iff, sortedMembers_eq_map]
    exact List.mem_map.2 ⟨(key, v), hv, rfl⟩

theorem exists_mem_of_tree_eq {r s : Record Value}
    (h : tree (sorted (.object r)) = tree (sorted (.object s))) {key : String} {v : Value}
    (hv : (key, v) ∈ r) : ∃ w, (key, w) ∈ s ∧ tree (sorted v) = tree (sorted w) := by
  have hmembers := Tree.object.inj h
  have hmem := mem_treeMembers_sorted_iff.2 ⟨v, hv, rfl⟩
  rw [hmembers] at hmem
  exact mem_treeMembers_sorted_iff.1 hmem

theorem plain_fieldDefs {r : Record Value} (h : ∀ m ∈ r, ∃ members, m.2 = .fieldDef members) :
    plain (.object r) = .ok (.object (storedMembers r)) := by
  have hmembers : plainMembers r = .ok (storedMembers r) := by
    induction r with
    | nil => rfl
    | cons m rest ih =>
        obtain ⟨key, v⟩ := m
        obtain ⟨members, rfl⟩ := h _ List.mem_cons_self
        rw [plainMembers, ih fun m hm ↦ h m (List.mem_cons_of_mem _ hm)]
        rfl
  rw [plain, hmembers]
  rfl

end Value

theorem canonical_fieldDefs {r : Record Value}
    (h : ∀ m ∈ r, ∃ members, m.2 = .fieldDef members) :
    canonical (.object r) =
      .ok (write compact (Value.sorted (.object (Value.storedMembers r)))) := by
  rw [canonical, Value.plain_fieldDefs h]
  rfl

namespace FieldDef

variable {fd other : FieldDef}

/-- The members of a definition besides its own have other names. -/
def Clean (fd : FieldDef) : Prop := ∀ m ∈ fd.extras, m.1 ∉ Value.attributeKeys

theorem clean_of_ofMembers {members : Record Value} (h : ofMembers members = .ok fd) :
    fd.Clean := by
  simp only [ofMembers] at h
  obtain ⟨type, -, h⟩ := bind_eq_ok_iff.1 h
  obtain ⟨field, -, h⟩ := bind_eq_ok_iff.1 h
  obtain ⟨aggregate, -, h⟩ := bind_eq_ok_iff.1 h
  obtain ⟨bin, -, h⟩ := bind_eq_ok_iff.1 h
  obtain ⟨timeUnit, -, h⟩ := bind_eq_ok_iff.1 h
  obtain rfl := Except.ok.inj h
  intro m hm hkey
  have hkept := (List.mem_filter.1 hm).2
  simp [hkey] at hkept

theorem mem_stored_iff {key : String} {w : Value} :
    (key, w) ∈ fd.stored ↔ ∃ v, (key, v) ∈ fd.members ∧ v.isNull = false ∧ w = v.stored := by
  rw [stored, Value.storedAttributes_eq_map, List.mem_map]
  constructor
  · rintro ⟨⟨k, v⟩, hv, h⟩
    obtain ⟨rfl, rfl⟩ := Prod.mk.inj h
    obtain ⟨hmem, hnull⟩ := List.mem_filter.1 hv
    exact ⟨v, hmem, by simpa using hnull, rfl⟩
  · rintro ⟨v, hv, hnull, rfl⟩
    exact ⟨(key, v), List.mem_filter.2 ⟨hv, by simp [hnull]⟩, rfl⟩

theorem mem_stored_own_iff (hfd : fd.Clean) {key : String} (hkey : key ∈ Value.attributeKeys)
    {own : Option String}
    (hown : ∀ v, (key, v) ∈ fd.members ↔
      v = Value.ofOption (own.map .text) ∨ (key, v) ∈ fd.extras) {w : Value} :
    (key, w) ∈ fd.stored ↔ ∃ s, own = some s ∧ w = .text s := by
  have hextras : ∀ v, (key, v) ∉ fd.extras := fun v h ↦ hfd _ h hkey
  rw [mem_stored_iff]
  simp only [hown, hextras, or_false]
  cases own with
  | none => simp [Value.ofOption, Value.isNull]
  | some s => simp [Value.ofOption, Value.isNull, Value.stored]

theorem mem_stored_type_iff (hfd : fd.Clean) {w : Value} :
    ("type", w) ∈ fd.stored ↔ ∃ s, fd.type.map FieldType.name = some s ∧ w = .text s :=
  mem_stored_own_iff hfd (by decide) fun v ↦ by simp [members, Function.comp_def]

theorem mem_stored_field_iff (hfd : fd.Clean) {w : Value} :
    ("field", w) ∈ fd.stored ↔ ∃ s, fd.field = some s ∧ w = .text s :=
  mem_stored_own_iff hfd (by decide) fun v ↦ by simp [members]

/-- The tree of a definition as its canonical text spells it. -/
def tree (fd : FieldDef) : Json.Tree := Json.tree (Value.sorted (.object fd.stored))

theorem text_eq_of_tree_eq {key : String} {own own' : Option String}
    (hown : ∀ w, (key, w) ∈ fd.stored ↔ ∃ s, own = some s ∧ w = .text s)
    (hown' : ∀ w, (key, w) ∈ other.stored ↔ ∃ s, own' = some s ∧ w = .text s)
    (h : fd.tree = other.tree) : own = own' := by
  cases ho : own with
  | some s =>
      obtain ⟨w, hw, htree⟩ := Value.exists_mem_of_tree_eq h ((hown _).2 ⟨s, ho, rfl⟩)
      obtain ⟨s', ho', rfl⟩ := (hown' w).1 hw
      rw [ho', Tree.text.inj htree]
  | none =>
      cases ho' : own' with
      | none => rfl
      | some s' =>
          obtain ⟨w, hw, htree⟩ := Value.exists_mem_of_tree_eq h.symm ((hown' _).2 ⟨s', ho', rfl⟩)
          obtain ⟨s, hs, -⟩ := (hown w).1 hw
          rw [ho] at hs
          cases hs

theorem field_eq_of_tree_eq (hfd : fd.Clean) (hother : other.Clean) (h : fd.tree = other.tree) :
    fd.field = other.field :=
  text_eq_of_tree_eq (fun _ ↦ mem_stored_field_iff hfd) (fun _ ↦ mem_stored_field_iff hother) h

theorem type_eq_of_tree_eq (hfd : fd.Clean) (hother : other.Clean) (h : fd.tree = other.tree) :
    fd.type = other.type := by
  have hname : fd.type.map FieldType.name = other.type.map FieldType.name :=
    text_eq_of_tree_eq (fun _ ↦ mem_stored_type_iff hfd) (fun _ ↦ mem_stored_type_iff hother) h
  have htoken := congrArg (Option.bind · FieldType.ofToken?) hname
  simpa [Option.bind_map, Function.comp_def] using htoken

end FieldDef

end ChartLowering
