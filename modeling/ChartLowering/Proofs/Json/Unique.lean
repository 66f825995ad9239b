import ChartLowering.Proofs.Json.Reordered
import Mathlib.Data.Set.Function

/-!
# Items without repetitions

Of items that differ in the order of members only, the first one is kept. The digests that have been
seen stand for the items before: as long as no two canonical texts have the same digest, they tell
which items those are equal to.
-/

namespace ChartLowering

namespace Json

open Value

section Firsts

variable {α κ : Type} [DecidableEq κ] (key : α → κ)

/-- The items whose keys have not been seen, the first one for each key. -/
def firsts : List κ → List α → List α
  | _, [] => []
  | seen, a :: rest =>
      if key a ∈ seen then firsts seen rest else a :: firsts (key a :: seen) rest

variable {key} {seen : List κ} {items : List α} {a : α}

theorem firsts_cons_of_mem (h : key a ∈ seen) :
    firsts key seen (a :: items) = firsts key seen items :=
  if_pos h

theorem firsts_cons_of_notMem (h : key a ∉ seen) :
    firsts key seen (a :: items) = a :: firsts key (key a :: seen) items :=
  if_neg h

theorem firsts_sublist (seen : List κ) (items : List α) :
    (firsts key seen items).Sublist items := by
  induction items generalizing seen with
  | nil => exact .slnil
  | cons a rest ih =>
      by_cases ha : key a ∈ seen
      · rw [firsts_cons_of_mem ha]
        exact (ih seen).cons a
      · rw [firsts_cons_of_notMem ha]
        exact (ih _).cons_cons a

theorem key_notMem_of_mem_firsts (h : a ∈ firsts key seen items) : key a ∉ seen := by
  induction items generalizing seen with
  | nil => cases h
  | cons b rest ih =>
      by_cases hb : key b ∈ seen
      · rw [firsts_cons_of_mem hb] at h
        exact ih h
      · rw [firsts_cons_of_notMem hb] at h
        obtain rfl | h := List.mem_cons.1 h
        · exact hb
        · exact fun ha ↦ ih h (List.mem_cons_of_mem _ ha)

theorem pairwise_firsts (seen : List κ) (items : List α) :
    (firsts key seen items).Pairwise fun a b ↦ key a ≠ key b := by
  induction items generalizing seen with
  | nil => exact .nil
  | cons a rest ih =>
      by_cases ha : key a ∈ seen
      · rw [firsts_cons_of_mem ha]
        exact ih seen
      · rw [firsts_cons_of_notMem ha]
        refine .cons (fun b hb heq ↦ ?_) (ih _)
        exact key_notMem_of_mem_firsts hb (heq ▸ List.mem_cons_self)

/-- Each item whose key has not been seen has the first item of that key kept for it. -/
theorem exists_first (h : a ∈ items) (ha : key a ∉ seen) :
    ∃ before first after, items = before ++ first :: after ∧ first ∈ firsts key seen items ∧
      key first = key a ∧ ∀ b ∈ before, key b ≠ key a := by
  induction items generalizing seen with
  | nil => cases h
  | cons b rest ih =>
      by_cases heq : key b = key a
      · refine ⟨[], b, rest, rfl, ?_, heq, nofun⟩
        rw [firsts_cons_of_notMem (heq ▸ ha)]
        exact List.mem_cons_self
      · have hrest : a ∈ rest := by
          obtain rfl | hrest := List.mem_cons.1 h
          · exact absurd rfl heq
          · exact hrest
        have hkept : ∃ seen', key a ∉ seen' ∧
            ∀ c ∈ firsts key seen' rest, c ∈ firsts key seen (b :: rest) := by
          by_cases hb : key b ∈ seen
          · exact ⟨seen, ha, fun c hc ↦ by rwa [firsts_cons_of_mem hb]⟩
          · refine ⟨key b :: seen, ?_, fun c hc ↦ ?_⟩
            · simp [ha, Ne.symm heq]
            · rw [firsts_cons_of_notMem hb]
              exact List.mem_cons_of_mem b hc
        obtain ⟨seen', ha', hsub⟩ := hkept
        obtain ⟨before, first, after, hsplit, hfirst, hkey, hbefore⟩ := ih hrest ha'
        refine ⟨b :: before, first, after, by rw [hsplit]; rfl, hsub first hfirst, hkey, ?_⟩
        intro c hc
        obtain rfl | hc := List.mem_cons.1 hc
        · exact heq
        · exact hbefore c hc

/-- Items of distinct keys, none of them seen, are all kept. -/
theorem firsts_eq_self (h : items.Pairwise fun a b ↦ key a ≠ key b)
    (hseen : ∀ a ∈ items, key a ∉ seen) : firsts key seen items = items := by
  induction h generalizing seen with
  | nil => rfl
  | @cons a rest hne _ ih =>
      rw [firsts_cons_of_notMem (hseen a List.mem_cons_self), ih fun b hb ↦ ?_]
      rw [List.mem_cons, not_or]
      exact ⟨(hne b hb).symm, hseen b (List.mem_cons_of_mem _ hb)⟩

/-- It does not count in which order keys have been seen, or how often. -/
theorem firsts_congr {seen seen' : List κ} (h : ∀ k, k ∈ seen ↔ k ∈ seen') (items : List α) :
    firsts key seen items = firsts key seen' items := by
  induction items generalizing seen seen' with
  | nil => rfl
  | cons a rest ih =>
      by_cases ha : key a ∈ seen
      · rw [firsts_cons_of_mem ha, firsts_cons_of_mem ((h _).1 ha), ih h]
      · rw [firsts_cons_of_notMem ha, firsts_cons_of_notMem (mt (h _).2 ha), ih fun k ↦ ?_]
        rw [List.mem_cons, List.mem_cons, h]

/-- Of one more key that has been seen the item is left out. -/
theorem firsts_cons_seen (k : κ) (seen : List κ) (items : List α) :
    firsts key (k :: seen) items = (firsts key seen items).filter fun a ↦ k ≠ key a := by
  induction items generalizing seen with
  | nil => rfl
  | cons a rest ih =>
      by_cases ha : key a ∈ seen
      · rw [firsts_cons_of_mem ha, firsts_cons_of_mem (List.mem_cons_of_mem k ha), ih]
      · rw [firsts_cons_of_notMem ha]
        by_cases hk : k = key a
        · subst hk
          have hall : ∀ b ∈ firsts key (key a :: seen) rest, decide (key a ≠ key b) = true := by
            intro b hb
            have hne := List.ne_of_not_mem_cons (key_notMem_of_mem_firsts hb)
            exact decide_eq_true hne.symm
          rw [firsts_cons_of_mem List.mem_cons_self, List.filter_cons_of_neg (by simp),
            List.filter_eq_self.2 hall]
        · have hfresh : key a ∉ k :: seen := by simp [ha, Ne.symm hk]
          rw [firsts_cons_of_notMem hfresh, List.filter_cons_of_pos (by simpa using hk), ← ih]
          exact congrArg _ (firsts_congr (fun _ ↦ (List.Perm.swap k (key a) seen).mem_iff) rest)

/-- What is kept of a list of two parts: what is kept of the first one, and of what is kept of the
second one the items whose key no item of the first one has. -/
theorem firsts_append (seen : List κ) (front back : List α) :
    firsts key seen (front ++ back) = firsts key seen front ++
      (firsts key seen back).filter fun b ↦ ∀ a ∈ front, key a ≠ key b := by
  induction front generalizing seen with
  | nil => simp [firsts]
  | cons a front ih =>
      have hsplit (b : α) : decide (∀ c ∈ a :: front, key c ≠ key b) =
          (decide (∀ c ∈ front, key c ≠ key b) && decide (key a ≠ key b)) := by
        simp [Bool.and_comm]
      simp only [hsplit]
      rw [← List.filter_filter, ← firsts_cons_seen, List.cons_append]
      by_cases ha : key a ∈ seen
      · have hseen (k : κ) : k ∈ key a :: seen ↔ k ∈ seen :=
          List.mem_cons.trans (or_iff_right_of_imp fun hk ↦ hk ▸ ha)
        rw [firsts_cons_of_mem ha, firsts_cons_of_mem ha, ih, firsts_congr hseen back]
      · rw [firsts_cons_of_notMem ha, firsts_cons_of_notMem ha, ih]
        rfl

end Firsts

section Digests

variable {v w : Value} {items : List Value}

/-- The digest of a JSON value. -/
def fingerprint (v : Value) : String := Sha256.hexDigest (write compact v.sorted)

theorem canonical_of_isJson (h : v.IsJson) : canonical v = .ok (write compact v.sorted) := by
  rw [canonical, plain_of_isJson h]
  rfl

theorem digest_of_isJson (h : v.IsJson) : digest v = .ok (fingerprint v) := by
  rw [digest, canonical_of_isJson h]
  rfl

theorem uniqueFrom_eq_firsts (h : ∀ v ∈ items, v.IsJson) (seen : List String) :
    uniqueFrom seen items = .ok (firsts fingerprint seen items) := by
  induction items generalizing seen with
  | nil => rfl
  | cons v rest ih =>
      have hrest := ih fun w hw ↦ h w (List.mem_cons_of_mem v hw)
      rw [uniqueFrom, digest_of_isJson (h v List.mem_cons_self), ok_bind, List.contains_eq_mem]
      by_cases hv : fingerprint v ∈ seen
      · rw [if_pos (decide_eq_true hv), firsts_cons_of_mem hv, hrest]
      · rw [if_neg (by simpa using hv), firsts_cons_of_notMem hv, hrest]
        rfl

theorem unique_eq_firsts (h : ∀ v ∈ items, v.IsJson) :
    unique items = .ok (firsts fingerprint [] items) :=
  uniqueFrom_eq_firsts h []

/-- If the digest tells the canonical texts apart, it is the same for two values exactly if they
are equal but for the order of members. -/
theorem fingerprint_eq_iff (hjson : ∀ v ∈ items, v.IsJson)
    (happart : Set.InjOn Sha256.hexDigest {s | ∃ v ∈ items, canonical v = .ok s})
    (hv : v ∈ items) (hw : w ∈ items) : fingerprint v = fingerprint w ↔ Reordered v w := by
  have htext := happart.eq_iff ⟨v, hv, canonical_of_isJson (hjson v hv)⟩
    ⟨w, hw, canonical_of_isJson (hjson w hw)⟩
  rw [fingerprint, fingerprint, htext, Tree.write_eq_iff]
  exact ⟨reordered_of_tree_eq (hjson v hv) (hjson w hw),
    fun h ↦ congrArg tree (sorted_eq_of_reordered h (hjson v hv))⟩

end Digests

/-- Each item has an equal one among those that are kept, which is the first of its equals, and no
two that are kept are equal. Equal is what differs in the order of members at most. -/
structure KeepsFirsts (items kept : List Value) : Prop where
  sublist : kept.Sublist items
  distinct : kept.Pairwise fun v w ↦ ¬ Reordered v w
  first : ∀ v ∈ items, ∃ before first after, items = before ++ first :: after ∧ first ∈ kept ∧
    Reordered first v ∧ ∀ w ∈ before, ¬ Reordered w v

/-- As long as the digest tells their canonical texts apart, the first of equal items are kept.
Doing so twice changes nothing more, and the second of two lists adds what it would give by itself,
less what has an equal in the first one. -/
theorem unique_keeps_firsts {items : List Value} (hjson : ∀ v ∈ items, v.IsJson)
    (happart : Set.InjOn Sha256.hexDigest {s | ∃ v ∈ items, canonical v = .ok s}) :
    ∃ kept, unique items = .ok kept ∧ KeepsFirsts items kept ∧ unique kept = .ok kept ∧
      ∀ front back, items = front ++ back → ∃ left right, unique front = .ok left ∧
        unique back = .ok right ∧
        kept = left ++ right.filter fun v ↦ ∀ w ∈ front, ¬ Reordered w v := by
  have hsub : (firsts fingerprint [] items).Sublist items := firsts_sublist [] items
  have hsame {v w : Value} (hv : v ∈ items) (hw : w ∈ items) :
      fingerprint v = fingerprint w ↔ Reordered v w := fingerprint_eq_iff hjson happart hv hw
  refine ⟨_, unique_eq_firsts hjson, ⟨hsub, ?_, fun v hv ↦ ?_⟩, ?_, ?_⟩
  · refine (pairwise_firsts [] items).imp_of_mem fun hv hw hne ↦ ?_
    rwa [← hsame (hsub.subset hv) (hsub.subset hw)]
  · have hunseen : fingerprint v ∉ [] := List.not_mem_nil
    obtain ⟨before, first, after, hsplit, hfirst, hkey, hbefore⟩ := exists_first hv hunseen
    refine ⟨before, first, after, hsplit, hfirst, (hsame (hsub.subset hfirst) hv).1 hkey, ?_⟩
    intro w hw
    rw [← hsame (hsplit ▸ List.mem_append_left _ hw) hv]
    exact hbefore w hw
  · rw [unique_eq_firsts fun v hv ↦ hjson v (hsub.subset hv),
      firsts_eq_self (pairwise_firsts [] items) fun v _ ↦ List.not_mem_nil]
  · rintro front back rfl
    refine ⟨_, _, unique_eq_firsts fun v hv ↦ hjson v (List.mem_append_left _ hv),
      unique_eq_firsts fun v hv ↦ hjson v (List.mem_append_right _ hv), ?_⟩
    rw [firsts_append]
    refine congrArg _ (List.filter_congr fun v hv ↦ decide_eq_decide.2 ?_)
    have hback := List.mem_append_right front ((firsts_sublist [] back).subset hv)
    refine forall₂_congr fun w hw ↦ not_congr ?_
    exact hsame (List.mem_append_left back hw) hback

/-- An object, a number, and the object again with its members in another order. -/
def repeated : List Value :=
  [.object [("x", .int 1), ("y", .null)], .int 7, .object [("y", .null), ("x", .int 1)]]

theorem isJson_repeated : ∀ v ∈ repeated, v.IsJson := by simp [repeated, Record.keys]

theorem injOn_hexDigest_repeated :
    Set.InjOn Sha256.hexDigest {s | ∃ v ∈ repeated, canonical v = .ok s} := by
  have hbyName {r : Record Value} (h : r.Perm [("x", .int 1), ("y", .null)]) :
      byName r = [("x", .int 1), ("y", .null)] :=
    (byName_eq_of_perm h.symm (by decide)).symm.trans (List.mergeSort_of_pairwise (by decide))
  have htexts : repeated.map (fun v ↦ write compact v.sorted) =
      ["\x7b\"x\":1,\"y\":null\x7d", "7", "\x7b\"x\":1,\"y\":null\x7d"] := by
    simp only [repeated, List.map_cons, List.map_nil, sorted, sortedMembers,
      hbyName (.refl _), hbyName (.swap _ _ _)]
    decide +kernel
  have hdistinct : ∀ s ∈ repeated.map (fun v ↦ write compact v.sorted),
      ∀ t ∈ repeated.map (fun v ↦ write compact v.sorted),
        Sha256.hexDigest s = Sha256.hexDigest t → s = t := by
    rw [htexts]
    decide +kernel
  rintro s ⟨v, hv, hs⟩ t ⟨w, hw, ht⟩ heq
  obtain rfl := Except.ok.inj ((canonical_of_isJson (isJson_repeated v hv)).symm.trans hs)
  obtain rfl := Except.ok.inj ((canonical_of_isJson (isJson_repeated w hw)).symm.trans ht)
  exact hdistinct _ (List.mem_map_of_mem hv) _ (List.mem_map_of_mem hw) heq

theorem unique_keeps_firsts_repeated : (∀ v ∈ repeated, v.IsJson) ∧
    Set.InjOn Sha256.hexDigest {s | ∃ v ∈ repeated, canonical v = .ok s} ∧
    ∃ kept, unique repeated = .ok kept ∧ KeepsFirsts repeated kept ∧ unique kept = .ok kept ∧
      ∀ front back, repeated = front ++ back → ∃ left right, unique front = .ok left ∧
        unique back = .ok right ∧
        kept = left ++ right.filter fun v ↦ ∀ w ∈ front, ¬ Reordered w v :=
  ⟨isJson_repeated, injOn_hexDigest_repeated,
    unique_keeps_firsts isJson_repeated injOn_hexDigest_repeated⟩

end Json

end ChartLowering
