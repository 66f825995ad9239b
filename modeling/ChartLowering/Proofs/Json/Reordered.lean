import ChartLowering.Proofs.Json.Canonical

/-!
# Canonical texts and the order of members

Two JSON values have the same canonical text exactly if they differ at most in the order of members.
Sorting takes the order away at every depth, and what is then written can be read in one way only.
-/

namespace ChartLowering

namespace Value

/-- A value that JSON has a form for, without decimals. No object in it names a member twice. -/
inductive IsJson : Value → Prop
  | null : IsJson null
  | bool (b : Bool) : IsJson (bool b)
  | int (i : Int) : IsJson (int i)
  | text (s : String) : IsJson (text s)
  | list {items : List Value} (h : ∀ v ∈ items, IsJson v) : IsJson (list items)
  | object {members : Record Value} (hkeys : members.keys.Nodup)
      (h : ∀ m ∈ members, IsJson m.2) : IsJson (object members)

attribute [simp] IsJson.null IsJson.bool IsJson.int IsJson.text

@[simp] theorem isJson_list_iff {items : List Value} :
    IsJson (list items) ↔ ∀ v ∈ items, IsJson v := by
  refine ⟨fun h ↦ ?_, .list⟩
  cases h with
  | list h => exact h

@[simp] theorem isJson_object_iff {members : Record Value} :
    IsJson (object members) ↔ members.keys.Nodup ∧ ∀ m ∈ members, IsJson m.2 := by
  refine ⟨fun h ↦ ?_, fun h ↦ .object h.1 h.2⟩
  cases h with
  | object hkeys h => exact ⟨hkeys, h⟩

/-- Two values that are equal if the order of members does not count, at any depth. -/
inductive Reordered : Value → Value → Prop
  | null : Reordered null null
  | bool (b : Bool) : Reordered (bool b) (bool b)
  | int (i : Int) : Reordered (int i) (int i)
  | text (s : String) : Reordered (text s) (text s)
  | list {items others : List Value} (hlength : items.length = others.length)
      (h : ∀ p ∈ items.zip others, Reordered p.1 p.2) : Reordered (list items) (list others)
  | object {members others : Record Value} (hkeys : members.keys.Perm others.keys)
      (h : ∀ key v w, (key, v) ∈ members → (key, w) ∈ others → Reordered v w) :
      Reordered (object members) (object others)

section Deciding

mutual

/-- Are two values equal if the order of members does not count? -/
def reorders : Value → Value → Bool
  | .null, .null => true
  | .bool a, .bool b => a == b
  | .int a, .int b => a == b
  | .text a, .text b => a == b
  | .list items, .list others => reordersItems items others
  | .object members, .object others =>
      decide ((Record.keys members).Perm (Record.keys others)) && reordersMembers members others
  | _, _ => false
termination_by structural v => v

def reordersItems : List Value → List Value → Bool
  | [], [] => true
  | v :: items, w :: others => reorders v w && reordersItems items others
  | _, _ => false
termination_by structural items => items

def reordersMembers : List (String × Value) → List (String × Value) → Bool
  | [], _ => true
  | (key, v) :: members, others =>
      others.all (fun m ↦ m.1 != key || reorders v m.2) && reordersMembers members others
termination_by structural members => members

end

theorem reordered_list_iff {items others : List Value} :
    Reordered (list items) (list others) ↔ List.Forall₂ Reordered items others := by
  rw [List.forall₂_iff_zip]
  constructor
  · intro h
    cases h with
    | list hlength h => exact ⟨hlength, fun hp ↦ h _ hp⟩
  · rintro ⟨hlength, h⟩
    exact .list hlength fun p hp ↦ h hp

theorem reordered_object_iff {members others : Record Value} :
    Reordered (object members) (object others) ↔ members.keys.Perm others.keys ∧
      ∀ key v w, (key, v) ∈ members → (key, w) ∈ others → Reordered v w := by
  refine ⟨fun h ↦ ?_, fun h ↦ .object h.1 h.2⟩
  cases h with
  | object hkeys h => exact ⟨hkeys, h⟩

mutual

theorem reorders_iff : ∀ v w : Value, reorders v w = true ↔ Reordered v w
  | .null, w => by
      cases w with
      | null => exact ⟨fun _ ↦ .null, fun _ ↦ rfl⟩
      | _ => exact ⟨nofun, nofun⟩
  | .bool a, w => by
      cases w with
      | bool b =>
          rw [reorders, beq_iff_eq]
          exact ⟨fun h ↦ h ▸ .bool a, fun h ↦ by cases h; rfl⟩
      | _ => exact ⟨nofun, nofun⟩
  | .int a, w => by
      cases w with
      | int b =>
          rw [reorders, beq_iff_eq]
          exact ⟨fun h ↦ h ▸ .int a, fun h ↦ by cases h; rfl⟩
      | _ => exact ⟨nofun, nofun⟩
  | .text a, w => by
      cases w with
      | text b =>
          rw [reorders, beq_iff_eq]
          exact ⟨fun h ↦ h ▸ .text a, fun h ↦ by cases h; rfl⟩
      | _ => exact ⟨nofun, nofun⟩
  | .list items, w => by
      cases w with
      | list others => rw [reorders, reordersItems_iff, reordered_list_iff]
      | _ => exact ⟨nofun, nofun⟩
  | .object members, w => by
      cases w with
      | object others =>
          rw [reorders, Bool.and_eq_true, decide_eq_true_iff, reordersMembers_iff,
            reordered_object_iff]
      | _ => exact ⟨nofun, nofun⟩
  | .float _, _ | .set _, _ | .fieldDef _, _ => ⟨nofun, nofun⟩

theorem reordersItems_iff : ∀ items others : List Value,
    reordersItems items others = true ↔ List.Forall₂ Reordered items others
  | [], [] => by simp [reordersItems]
  | [], _ :: _ | _ :: _, [] => by simp [reordersItems]
  | v :: items, w :: others => by
      rw [reordersItems, Bool.and_eq_true, reorders_iff, reordersItems_iff, List.forall₂_cons]

theorem reordersMembers_iff : ∀ members others : List (String × Value),
    reordersMembers members others = true ↔
      ∀ key v w, (key, v) ∈ members → (key, w) ∈ others → Reordered v w
  | [], _ => by simp [reordersMembers]
  | (key, v) :: members, others => by
      have hfirst : (others.all fun m ↦ m.1 != key || reorders v m.2) = true ↔
          ∀ w, (key, w) ∈ others → Reordered v w := by
        rw [List.all_eq_true]
        constructor
        · intro h w hw
          have hm := h (key, w) hw
          rwa [bne_self_eq_false, Bool.false_or, reorders_iff] at hm
        · rintro h ⟨k, w⟩ hm
          by_cases hk : k = key
          · subst hk
            simpa [reorders_iff v w] using h w hm
          · simp [hk]
      rw [reordersMembers, Bool.and_eq_true, hfirst, reordersMembers_iff]
      constructor
      · rintro ⟨hv, hrest⟩ k u w hu hw
        obtain heq | hu := List.mem_cons.1 hu
        · cases heq
          exact hv w hw
        · exact hrest k u w hu hw
      · intro h
        exact ⟨fun w hw ↦ h key v w List.mem_cons_self hw,
          fun k u w hu hw ↦ h k u w (List.mem_cons_of_mem _ hu) hw⟩

end

instance : DecidableRel Reordered := fun v w ↦ decidable_of_iff _ (reorders_iff v w)

end Deciding

section Sorting

theorem sortedItems_eq_map (items : List Value) : sortedItems items = items.map sorted := by
  induction items with
  | nil => rfl
  | cons v rest ih => rw [sortedItems, ih, List.map_cons]

theorem plain_of_isJson {v : Value} (h : v.IsJson) : v.plain = .ok v := by
  induction h with
  | null | bool | int | text => rfl
  | @list items _ ih =>
      have hitems : plainItems items = .ok items := by
        clear * - ih
        induction items with
        | nil => rfl
        | cons v rest ihrest =>
            rw [plainItems, ih v List.mem_cons_self,
              ihrest fun w hw ↦ ih w (List.mem_cons_of_mem _ hw)]
            rfl
      rw [plain, hitems]
      rfl
  | @object members _ _ ih =>
      have hmembers : plainMembers members = .ok members := by
        clear * - ih
        induction members with
        | nil => rfl
        | cons m rest ihrest =>
            rw [plainMembers, ih m List.mem_cons_self,
              ihrest fun n hn ↦ ih n (List.mem_cons_of_mem _ hn)]
            rfl
      rw [plain, hmembers]
      rfl

theorem keys_sortedMembers (r : Record Value) : Record.keys (sortedMembers r) = r.keys := by
  rw [sortedMembers_eq_map, Record.keys, List.map_map]
  rfl

/-- Members of the same names are the same up to order if those of one name are equal. -/
theorem perm_of_keys_perm {r s : Record Value} (hr : r.keys.Nodup) (hkeys : r.keys.Perm s.keys)
    (h : ∀ key v w, (key, v) ∈ r → (key, w) ∈ s → v = w) : r.Perm s := by
  have hs : s.keys.Nodup := hkeys.nodup_iff.1 hr
  have hsub : ∀ {r s : Record Value}, r.keys.Perm s.keys →
      (∀ key v w, (key, v) ∈ r → (key, w) ∈ s → v = w) → ∀ m ∈ r, m ∈ s := by
    intro r s hkeys h m hm
    have hkey : m.1 ∈ s.keys := hkeys.mem_iff.1 (List.mem_map_of_mem hm)
    obtain ⟨n, hn, hname⟩ := List.mem_map.1 hkey
    obtain ⟨key, w⟩ := n
    obtain rfl : key = m.1 := hname
    rwa [← h m.1 m.2 w hm hn] at hn
  refine (List.perm_ext_iff_of_nodup hr.of_map hs.of_map).2 fun m ↦ ⟨hsub hkeys h m, ?_⟩
  exact hsub hkeys.symm (fun key v w hv hw ↦ (h key w v hw hv).symm) m

/-- Sorting leaves nothing of the order of members. -/
theorem sorted_eq_of_reordered {v w : Value} (h : Reordered v w) (hv : v.IsJson) :
    sorted v = sorted w := by
  induction h with
  | null | bool | int | text => rfl
  | @list items others hlength _ ih =>
      cases hv with
      | list hitems =>
          have hsame : List.Forall₂ (fun v w ↦ sorted v = sorted w) items others :=
            List.forall₂_iff_zip.2 ⟨hlength, fun {v w} hp ↦
              ih (v, w) hp (hitems v (List.of_mem_zip hp).1)⟩
          rw [sorted, sorted, sortedItems_eq_map, sortedItems_eq_map]
          congr 1
          exact List.forall₂_eq_eq_eq ▸
            List.forall₂_map_left_iff.2 (List.forall₂_map_right_iff.2 hsame)
  | @object members others hkeys _ ih =>
      cases hv with
      | object hnodup hmembers =>
          have hperm : (sortedMembers members).Perm (sortedMembers others) := by
            refine perm_of_keys_perm (by rwa [keys_sortedMembers])
              (by rwa [keys_sortedMembers, keys_sortedMembers]) fun key v w hv hw ↦ ?_
            rw [sortedMembers_eq_map, List.mem_map] at hv hw
            obtain ⟨⟨k, v⟩, hv, heq⟩ := hv
            obtain ⟨rfl, rfl⟩ := Prod.mk.inj heq
            obtain ⟨⟨l, w⟩, hw, heq⟩ := hw
            obtain ⟨rfl, rfl⟩ := Prod.mk.inj heq
            exact ih _ v w hv hw (hmembers _ hv)
          rw [sorted, sorted, byName_eq_of_perm hperm (by rwa [keys_sortedMembers])]

end Sorting

end Value

namespace Json

open Value

section Words

theorem int_text_ne {i : Int} {s : String} (hs : ∀ c ∈ s.toList.head?, c ≠ '-' ∧ c.isDigit = false)
    (hne : s ≠ "") : toString i ≠ s := by
  rintro rfl
  cases hchars : (toString i).toList with
  | nil => exact hne (String.toList_eq_nil_iff.1 hchars)
  | cons c cs =>
      have hc : c ∈ (toString i).toList.head? := by rw [hchars]; rfl
      obtain ⟨hminus, hdigit⟩ := hs c hc
      obtain h | h := head?_int i c hc
      · exact hminus h
      · rw [hdigit] at h
        cases h

theorem word_int_ne {i : Int} {w : Word}
    (hw : ∀ c ∈ w.text.toList.head?, c ≠ '-' ∧ c.isDigit = false) : Word.int i ≠ w :=
  fun h ↦ int_text_ne hw w.ne_empty (congrArg Word.text h)

theorem word_int_ne_null (i : Int) : Word.int i ≠ .null := by
  apply word_int_ne
  intro c hc
  obtain rfl : 'n' = c := Option.some.inj hc
  decide

theorem word_int_ne_bool (i : Int) (b : Bool) : Word.int i ≠ .bool b := by
  apply word_int_ne
  intro c hc
  cases b with
  | false =>
      obtain rfl : 'f' = c := Option.some.inj hc
      decide
  | true =>
      obtain rfl : 't' = c := Option.some.inj hc
      decide

theorem word_null_ne_bool (b : Bool) : Word.null ≠ .bool b := by
  intro h
  have htext := congrArg Word.text h
  cases b <;> revert htext <;> decide

theorem word_bool_inj {a b : Bool} (h : Word.bool a = .bool b) : a = b := by
  have htext := congrArg Word.text h
  cases a <;> cases b <;> revert htext <;> decide

end Words

theorem treeItems_eq_map (items : List Value) : treeItems items = items.map tree := by
  induction items with
  | nil => rfl
  | cons v rest ih => rw [treeItems, ih, List.map_cons]

theorem keys_perm_of_tree_eq {r s : Record Value}
    (h : tree (sorted (.object r)) = tree (sorted (.object s))) : r.keys.Perm s.keys := by
  have hkeys (r : Record Value) :
      ((treeMembers (byName (sortedMembers r))).map Prod.fst).Perm r.keys := by
    rw [treeMembers_eq_map, List.map_map, ← keys_sortedMembers r]
    exact (List.mergeSort_perm _ _).map Prod.fst
  have hmembers := Tree.object.inj h
  exact (hkeys r).symm.trans (hmembers ▸ hkeys s)

/-- What has the same tree once it is sorted was equal but for the order of members. -/
theorem reordered_of_tree_eq {v w : Value} (hv : v.IsJson) (hw : w.IsJson)
    (h : tree (sorted v) = tree (sorted w)) : Reordered v w := by
  induction hv generalizing w with
  | null =>
      cases hw with
      | null => exact .null
      | bool b => exact (word_null_ne_bool b (Tree.word.inj h)).elim
      | int i => exact (word_int_ne_null i (Tree.word.inj h).symm).elim
      | text | list | object => cases h
  | bool b =>
      cases hw with
      | null => exact (word_null_ne_bool b (Tree.word.inj h).symm).elim
      | bool c =>
          obtain rfl := word_bool_inj (Tree.word.inj h)
          exact .bool b
      | int i => exact (word_int_ne_bool i b (Tree.word.inj h).symm).elim
      | text | list | object => cases h
  | int i =>
      cases hw with
      | null => exact (word_int_ne_null i (Tree.word.inj h)).elim
      | bool b => exact (word_int_ne_bool i b (Tree.word.inj h)).elim
      | int j =>
          obtain rfl := toString_int_inj (congrArg Word.text (Tree.word.inj h))
          exact .int i
      | text | list | object => cases h
  | text s =>
      cases hw with
      | text t =>
          obtain rfl := Tree.text.inj h
          exact .text s
      | null | bool | int | list | object => cases h
  | @list items hitems ih =>
      cases hw with
      | @list others hothers =>
          have hsame : List.Forall₂ (fun v w ↦ tree (sorted v) = tree (sorted w)) items others := by
            have htrees := Tree.list.inj h
            rw [sortedItems_eq_map, sortedItems_eq_map, treeItems_eq_map, treeItems_eq_map,
              List.map_map, List.map_map] at htrees
            rw [← List.forall₂_eq_eq_eq, List.forall₂_map_left_iff, List.forall₂_map_right_iff]
              at htrees
            exact htrees
          obtain ⟨hlength, hzip⟩ := List.forall₂_iff_zip.1 hsame
          refine .list hlength fun p hp ↦ ?_
          obtain ⟨hleft, hright⟩ := List.of_mem_zip hp
          exact ih p.1 hleft (hothers p.2 hright) (hzip hp)
      | null | bool | int | text | object => cases h
  | @object members hkeys _ ih =>
      cases hw with
      | @object others hnodup hothers =>
          refine .object (keys_perm_of_tree_eq h) fun key v w hv hw ↦ ?_
          obtain ⟨w', hw', htree⟩ := exists_mem_of_tree_eq h hv
          obtain rfl := Record.eq_of_mem_of_nodup hnodup hw hw'
          exact ih (key, v) hv (hothers _ hw) htree
      | null | bool | int | text | list => cases h

/-- All JSON values have a canonical text, and two of them have the same one exactly if they are
equal when the order of members does not count. -/
theorem canonical_eq_iff_reordered {v w : Value} (hv : v.IsJson) (hw : w.IsJson) :
    ∃ s t, canonical v = .ok s ∧ canonical w = .ok t ∧ (s = t ↔ Reordered v w) := by
  have hok : ∀ {v : Value}, v.IsJson → canonical v = .ok (write compact v.sorted) := by
    intro v h
    rw [canonical, plain_of_isJson h]
    rfl
  refine ⟨_, _, hok hv, hok hw, ?_⟩
  rw [Tree.write_eq_iff]
  exact ⟨reordered_of_tree_eq hv hw, fun h ↦ congrArg tree (sorted_eq_of_reordered h hv)⟩

/-- An object with a list of objects in it, and the same members in another order. -/
def nested : Value :=
  .object [("a", .list [.bool true, .object [("x", .int (-7)), ("y", .null)]]), ("b", .text "1")]

def nestedTurned : Value :=
  .object [("b", .text "1"), ("a", .list [.bool true, .object [("y", .null), ("x", .int (-7))]])]

theorem canonical_eq_iff_reordered_nested : nested.IsJson ∧ nestedTurned.IsJson ∧
    ∃ s t, canonical nested = .ok s ∧ canonical nestedTurned = .ok t ∧
      (s = t ↔ Reordered nested nestedTurned) := by
  have hnested : nested.IsJson := by simp [nested, Record.keys]
  have hturned : nestedTurned.IsJson := by simp [nestedTurned, Record.keys]
  exact ⟨hnested, hturned, canonical_eq_iff_reordered hnested hturned⟩

end Json

end ChartLowering
