import ChartLowering.Proofs.Pipeline.Forest

/-!
# Surgery on a forest

What each operation leaves of a forest: the links are told in full, they form a forest again, and
from a root they reach what they reached before but for the node or the tree in question.
-/

namespace ChartLowering.Pipeline

open Links

variable {l : Links} {node other parent grandparent root x : NodeId}

/-! ## Taking a node out -/

theorem runOn_remove (hl : l.Forest) (hp : l.parent node = some parent) :
    runOn (remove node) l = (.ok (), l.removed node) := by
  obtain ⟨before, after, hsplit, hb, ha⟩ := hl.exists_split hp
  have hne : parent ≠ node := hl.parent_ne hp
  have hloose : ∀ c ∈ l.children node, c ∉ before ++ after := by
    intro c hc hold
    have hmem : c ∈ l.children parent := by
      rw [hsplit]
      simp only [List.mem_append, List.mem_cons] at hold ⊢
      tauto
    exact hne (Option.some.inj
      ((hl.mem_children_iff.1 hmem).symm.trans (hl.mem_children_iff.1 hc)))
  have hadopt : runOn (adopt parent (l.children node) (some before.length))
      (l.withChildren parent (before ++ after)) =
      (.ok (), ((l.withChildren parent (before ++ after)).reparent (l.children node)
        parent).withChildren parent (before ++ l.children node ++ after)) :=
    runOn_adopt (by simp) rfl (hl.nodup node) (by simpa using hloose)
  rw [remove, runOn_get_bind]
  simp only [hp]
  rw [runOn_bind_of_ok (runOn_removeChild hsplit hb), runOn_get_bind,
    withChildren_children_of_ne _ _ hne.symm, runOn_bind_of_ok hadopt, runOn_modify_bind,
    runOn_modify]
  congr 1
  ext1 n
  · simp [removed_parent, withParent, reparent, hl.mem_children_iff, hp]
  · rw [removed_children]
    by_cases hn : n = node
    · subst hn
      simp
    · rw [if_neg hn, withParent_children, withChildren_children_of_ne _ _ hn]
      by_cases hnp : n = parent
      · subst hnp
        rw [withChildren_children_self, replaced_of_split hsplit hb ha]
      · have hnot : node ∉ l.children n := by
          rw [hl.mem_children_iff, hp]
          exact fun h ↦ hnp (Option.some.inj h).symm
        rw [replaced_of_notMem hnot, withChildren_children_of_ne _ _ hnp]
        exact withChildren_children_of_ne _ _ hnp

theorem Links.Forest.removed (hl : l.Forest) (hp : l.parent node = some parent) :
    (l.removed node).Forest where
  mem_children_iff := by
    intro n c
    have hne := @hl.parent_ne
    rw [removed_children, removed_parent]
    split
    · grind
    · rw [mem_replaced]
      simp only [hl.mem_children_iff]
      grind
  nodup := by
    intro n
    rw [removed_children]
    split
    · exact List.nodup_nil
    · rename_i hn
      refine hl.nodup_replaced (hl.nodup node) ?_
      intro c hc hold
      rw [hl.mem_children_iff] at hc hold
      exact hn (Option.some.inj (hold.symm.trans hc))
  rooted := by
    refine hl.induct ?_
    intro n ih
    by_cases hn : n = node
    · exact .root (by simp [removed_parent, hn])
    · cases hq : l.parent n with
      | none => exact .root (by simp [removed_parent, hn, hq])
      | some q =>
          by_cases hqn : q = node
          · subst hqn
            exact .child (by simp [removed_parent, hn, hq, hp]) ((ih q hq).2 parent hp)
          · exact .child (by simp [removed_parent, hn, hq, hqn]) (ih q hq).1

theorem reaches_removed_iff (hl : l.Forest) (hp : l.parent node = some parent)
    (hr : root ≠ node) :
    (l.removed node).Reaches root x ↔ l.Reaches root x ∧ x ≠ node := by
  have hf := hl.removed hp
  refine hl.induct (P := fun x ↦ (l.removed node).Reaches root x ↔ l.Reaches root x ∧ x ≠ node)
    ?_ x
  intro x ih
  rw [hf.reaches_iff, removed_parent]
  by_cases hx : x = node
  · simp [hx, hr.symm]
  · rw [if_neg hx, hl.reaches_iff]
    cases hq : l.parent x with
    | none => simp [hx]
    | some q =>
        by_cases hqn : q = node
        · subst hqn
          have hstep := hl.reaches_iff (r := root) (x := q)
          have hup := (ih q hq).2 parent hp
          simp [hp, hstep, hup, hx, hl.parent_ne hp, hr.symm]
        · have hup := (ih q hq).1
          simp [hqn, hx, hup]

/-! ## Putting a node above another one -/

theorem runOn_insertAbove (hl : l.Forest) (hp : l.parent other = some parent)
    (hn : l.parent node = .none) (hapart : ¬ l.Reaches node other) :
    runOn (insertAbove node other) l = (.ok (), l.inserted node other) := by
  obtain ⟨before, after, hsplit, hb, ha⟩ := hl.exists_split hp
  have hno : node ≠ other := fun h ↦ hapart (h ▸ .refl)
  have hnp : node ≠ parent := fun h ↦
    hapart (h ▸ Relation.ReflTransGen.single (hl.mem_children_iff.2 hp))
  have hloose : ∀ n, node ∉ l.children n := by simp [hl.mem_children_iff, hn]
  have hfresh : node ∉ before ++ after := by
    have h := hloose parent
    rw [hsplit] at h
    simp only [List.mem_append, List.mem_cons] at h ⊢
    tauto
  have hadd : runOn (addChild parent node (some before.length))
      ((l.withChildren parent (before ++ after)).withParent node (some parent)) =
      (.ok (), ((l.withChildren parent (before ++ after)).withParent node
        (some parent)).withChildren parent (before ++ node :: after)) :=
    runOn_addChild (by simp) rfl (by simpa using hfresh)
  have hother : other ∉ l.children node := by
    rw [hl.mem_children_iff, hp]
    exact fun h ↦ hnp (Option.some.inj h).symm
  rw [insertAbove, runOn_get_bind]
  simp only [hp]
  rw [runOn_bind_of_ok (runOn_removeChild hsplit hb), runOn_modify_bind, runOn_bind_of_ok hadd,
    runOn_modify_bind, runOn_setParent (by
      simpa [withParent, withChildren, hnp] using hother)]
  congr 1
  ext1 n
  · rw [inserted_parent]
    by_cases hnn : n = node <;> by_cases hn' : n = other <;>
      simp_all [withParent, withChildren]
  · rw [inserted_children]
    by_cases hnn : n = node
    · subst hnn
      simp [withParent, withChildren, hnp]
    · by_cases hnp' : n = parent
      · subst hnp'
        simp [withParent, withChildren, hnn, replaced_of_split hsplit hb ha]
      · have hnot : other ∉ l.children n := by
          rw [hl.mem_children_iff, hp]
          exact fun h ↦ hnp' (Option.some.inj h).symm
        simp [withParent, withChildren, hnn, hnp', replaced_of_notMem hnot]

theorem Links.Forest.inserted (hl : l.Forest) (hp : l.parent other = some parent)
    (hn : l.parent node = .none) (hapart : ¬ l.Reaches node other) :
    (l.inserted node other).Forest where
  mem_children_iff := by
    intro n c
    have hno : node ≠ other := fun h ↦ hapart (h ▸ .refl)
    have hnp : node ≠ parent := fun h ↦
      hapart (h ▸ Relation.ReflTransGen.single (hl.mem_children_iff.2 hp))
    rw [inserted_children, inserted_parent]
    split
    · simp only [List.mem_append, List.mem_singleton, hl.mem_children_iff]
      grind
    · rw [mem_replaced]
      simp only [List.mem_singleton, hl.mem_children_iff]
      grind
  nodup := by
    intro n
    rw [inserted_children]
    split
    · have hother : other ∉ l.children node := by
        rw [hl.mem_children_iff, hp]
        exact fun h ↦ hapart (Relation.ReflTransGen.single
          (hl.mem_children_iff.2 (hp.trans h)))
      refine List.nodup_append.2 ⟨hl.nodup node, by simp, ?_⟩
      intro c hc d hd h
      rw [List.mem_singleton] at hd
      exact hother (hd ▸ h ▸ hc)
    · refine hl.nodup_replaced (by simp) ?_
      simp [hl.mem_children_iff, hn]
  rooted := by
    -- The way up from outside the tree of the node is the old one until it meets the node.
    have outside : ∀ n, ¬ l.Reaches node n → (l.inserted node other).Rooted n ∧
        (n = other → (l.inserted node other).Rooted node) := by
      refine hl.induct ?_
      intro n ih hreach
      have hnn : n ≠ node := fun h ↦ hreach (h ▸ .refl)
      cases hq : l.parent n with
      | none =>
          have hno : n ≠ other := fun h ↦ by simp [h, hp] at hq
          exact ⟨.root (by simp [inserted_parent, hnn, hno, hq]), fun h ↦ (hno h).elim⟩
      | some q =>
          have hup : (l.inserted node other).Rooted q :=
            ((ih q hq).1 fun h ↦ hreach (h.tail (hl.mem_children_iff.2 hq))).1
          by_cases hno : n = other
          · have hnode : (l.inserted node other).Rooted node := by
              refine .child ?_ hup
              rw [inserted_parent, if_pos rfl, ← hno, hq]
            exact ⟨.child (by rw [inserted_parent, if_neg hnn, if_pos hno]) hnode, fun _ ↦ hnode⟩
          · exact ⟨.child (by simp [inserted_parent, hnn, hno, hq]) hup, fun h ↦ (hno h).elim⟩
    have hnode := (outside other hapart).2 rfl
    refine hl.induct ?_
    intro n ih
    by_cases hnn : n = node
    · exact hnn ▸ hnode
    · by_cases hno : n = other
      · exact .child (by rw [inserted_parent, if_neg hnn, if_pos hno]) hnode
      · cases hq : l.parent n with
        | none => exact .root (by simp [inserted_parent, hnn, hno, hq])
        | some q => exact .child (by simp [inserted_parent, hnn, hno, hq]) (ih q hq).1

theorem reaches_inserted_iff (hl : l.Forest) (hp : l.parent other = some parent)
    (hn : l.parent node = .none) (hapart : ¬ l.Reaches node other)
    (hr : l.parent root = .none) (hne : root ≠ node) :
    (l.inserted node other).Reaches root x ↔
      l.Reaches root x ∨ l.Reaches root other ∧ l.Reaches node x := by
  have hf := hl.inserted hp hn hapart
  have hother : other ≠ root := fun h ↦ by simp [h, hr] at hp
  have hloop : ¬ l.Reaches node parent := fun h ↦
    hapart (h.tail (hl.mem_children_iff.2 hp))
  have hstep : l.Reaches root other ↔ l.Reaches root parent := by
    rw [hl.reaches_iff]
    simp [hother, hp]
  refine hf.induct (P := fun x ↦ (l.inserted node other).Reaches root x ↔
    l.Reaches root x ∨ l.Reaches root other ∧ l.Reaches node x) ?_ x
  intro x ih
  rw [hf.reaches_iff]
  have hparent := inserted_parent l node other x
  by_cases hxn : x = node
  · subst hxn
    rw [if_pos rfl, hp] at hparent
    have hup := (ih parent hparent).1
    have hself : l.Reaches x x := .refl
    simp [hparent, hup, hloop, hne.symm, hstep, hself, hl.reaches_root_iff hn]
  · rw [if_neg hxn] at hparent
    by_cases hxo : x = other
    · subst hxo
      rw [if_pos rfl] at hparent
      have hup := (ih node hparent).1
      have hself : l.Reaches node node := .refl
      simp [hparent, hup, hother, hself, hl.reaches_root_iff hn, hne.symm, hapart]
    · rw [if_neg hxo] at hparent
      cases hq : l.parent x with
      | none => simp [hparent, hq, hl.reaches_root_iff hq, hxn]
      | some q =>
          have hup := (ih q (hparent.trans hq)).1
          rw [hl.reaches_iff (r := root) (x := x), hl.reaches_iff (r := node) (x := x)]
          simp [hparent, hq, hup, hxn, or_assoc]

/-! ## Moving a node above its parent -/

theorem runOn_swapWithParent (hl : l.Forest) (hp : l.parent node = some parent)
    (hg : l.parent parent = some grandparent) :
    runOn (swapWithParent node) l = (.ok (), l.swapped node parent) := by
  obtain ⟨before, after, hsplit, hb, ha⟩ := hl.exists_split hp
  obtain ⟨left, right, hlift, hleft, hright⟩ := hl.exists_split hg
  have hpn : parent ≠ node := hl.parent_ne hp
  have hgp : grandparent ≠ parent := hl.parent_ne hg
  have hgn : grandparent ≠ node := hl.grandparent_ne hp hg
  have hadopt : runOn (adopt parent (l.children node) none) l =
      (.ok (), (l.reparent (l.children node) parent).withChildren parent
        (l.children parent ++ l.children node ++ [])) := by
    refine runOn_adopt (by simp) rfl (hl.nodup node) ?_
    intro c hc hold
    rw [hl.mem_children_iff] at hc hold
    exact hpn (Option.some.inj (hold.symm.trans hc))
  rw [List.append_nil] at hadopt
  have hfull : (((l.reparent (l.children node) parent).withChildren parent
      (l.children parent ++ l.children node)).withChildren node []).children parent =
      before ++ node :: (after ++ l.children node) := by
    simp [withChildren, hpn, hsplit]
  have htop : ((((l.reparent (l.children node) parent).withChildren parent
      (l.children parent ++ l.children node)).withChildren node []).withChildren parent
        (before ++ (after ++ l.children node))).children grandparent = left ++ parent :: right := by
    simp [withChildren, reparent, hgp, hgn, hlift]
  rw [swapWithParent, runOn_get_bind]
  simp only [hp, hg]
  rw [runOn_bind_of_ok hadopt, runOn_modify_bind,
    runOn_bind_of_ok (runOn_discard_of_ok (runOn_removeChild hfull hb)),
    runOn_bind_of_ok (runOn_removeChild htop hleft), runOn_modify_bind]
  -- The links with the node and its parent loose, to be hung up again the other way round.
  generalize hm : ((((l.reparent (l.children node) parent).withChildren parent
    (l.children parent ++ l.children node)).withChildren node []).withChildren parent
      (before ++ (after ++ l.children node))).withChildren grandparent (left ++ right) = m
  have hparent : m.parent = (l.reparent (l.children node) parent).parent := by
    rw [← hm]
    rfl
  have hnode : m.children node = [] := by simp [← hm, withChildren, hpn.symm, hgn.symm]
  have hold : m.children parent = before ++ after ++ l.children node := by
    simp [← hm, withChildren, hgp.symm]
  have hgap : m.children grandparent = left ++ right := by simp [← hm]
  have hrest : ∀ n, n ≠ node → n ≠ parent → n ≠ grandparent → m.children n = l.children n := by
    intro n hn hnp hng
    simp [← hm, withChildren, reparent, hn, hnp, hng]
  have hloose : node ∉ m.children grandparent := by
    rw [hgap]
    intro h
    have hmem : node ∈ l.children grandparent := by
      rw [hlift]
      simp only [List.mem_append, List.mem_cons] at h ⊢
      tauto
    rw [hl.mem_children_iff, hp] at hmem
    exact hgp (Option.some.inj hmem).symm
  have hmove : runOn (addChild grandparent node (some left.length))
      (m.withParent node (some grandparent)) =
      (.ok (), (m.withParent node (some grandparent)).withChildren grandparent
        (left ++ node :: right)) := runOn_addChild hgap rfl hloose
  have hbare : (((m.withParent node (some grandparent)).withChildren grandparent
      (left ++ node :: right)).withParent parent (some node)).children node = [] ++ [] := by
    simp [withChildren, hgn.symm, hnode]
  rw [runOn_bind_of_ok hmove, runOn_modify_bind,
    runOn_addChild hbare (by simp [hbare]) (by simp [hbare])]
  congr 1
  ext1 n
  · rw [swapped_parent]
    by_cases hn : n = node
    · simp [withParent, withChildren, hn, hg, hpn.symm]
    · by_cases hnp : n = parent
      · simp [withParent, withChildren, hnp, hpn]
      · simp [withParent, withChildren, hn, hnp, hparent, reparent, hl.mem_children_iff]
  · rw [swapped_children]
    by_cases hn : n = node
    · simp [hn]
    · by_cases hnp : n = parent
      · subst hnp
        have hcut : l.replaced node [] n = before ++ [] ++ after := replaced_of_split hsplit hb ha
        simp [withParent, withChildren, hn, hgp.symm, hold, hcut]
      · by_cases hng : n = grandparent
        · subst hng
          simp [withParent, withChildren, hn, hnp, replaced_of_split hlift hleft hright]
        · have hnot : parent ∉ l.children n := by
            rw [hl.mem_children_iff, hg]
            exact fun h ↦ hng (Option.some.inj h).symm
          simp [withParent, withChildren, hn, hnp, hng, replaced_of_notMem hnot, hrest]

theorem Links.Forest.swapped (hl : l.Forest) (hp : l.parent node = some parent)
    (hg : l.parent parent = some grandparent) : (l.swapped node parent).Forest where
  mem_children_iff := by
    intro n c
    have hpn := hl.parent_ne hp
    have hgp := hl.parent_ne hg
    have hgn := hl.grandparent_ne hp hg
    have hup := @hl.parent_ne
    rw [swapped_children, swapped_parent]
    split
    · simp only [List.mem_singleton]
      grind
    · split
      · simp only [List.mem_append, mem_replaced, hl.mem_children_iff]
        grind
      · simp only [mem_replaced, List.mem_singleton, hl.mem_children_iff]
        grind
  nodup := by
    intro n
    rw [swapped_children]
    split
    · simp
    · split
      · rename_i hnp
        subst hnp
        refine List.nodup_append.2
          ⟨hl.nodup_replaced List.nodup_nil (by simp), hl.nodup node, ?_⟩
        rintro c hc d hd rfl
        obtain ⟨-, hc⟩ | ⟨-, hc⟩ := mem_replaced.1 hc
        · rw [hl.mem_children_iff] at hc hd
          exact hl.parent_ne hp (Option.some.inj (hc.symm.trans hd))
        · cases hc
      · rename_i hn hnp
        refine hl.nodup_replaced (by simp) ?_
        simp only [List.mem_singleton, forall_eq, hl.mem_children_iff, hp]
        exact fun h ↦ hnp (Option.some.inj h).symm
  rooted := by
    have hpn := hl.parent_ne hp
    -- The two nodes in question hang below the grandparent, which is not moved itself.
    have above : ∀ n, (l.swapped node parent).Rooted n ∧
        (n = parent → (l.swapped node parent).Rooted node) := by
      refine hl.induct ?_
      intro n ih
      by_cases hnp : n = parent
      · subst hnp
        have hnode : (l.swapped node n).Rooted node :=
          .child (by rw [swapped_parent, if_pos rfl, hg]) (ih grandparent hg).1.1
        exact ⟨.child (by rw [swapped_parent, if_neg hpn, if_pos rfl]) hnode, fun _ ↦ hnode⟩
      · refine ⟨?_, fun h ↦ (hnp h).elim⟩
        by_cases hn : n = node
        · subst hn
          exact (ih parent hp).1.2 rfl
        · cases hq : l.parent n with
          | none => exact .root (by simp [swapped_parent, hn, hnp, hq])
          | some q =>
              by_cases hqn : q = node
              · subst hqn
                exact .child (by simp [swapped_parent, hn, hnp, hq]) ((ih q hq).2 parent hp).1
              · exact .child (by simp [swapped_parent, hn, hnp, hq, hqn]) (ih q hq).1.1
    exact fun n ↦ (above n).1

theorem reaches_swapped_iff (hl : l.Forest) (hp : l.parent node = some parent)
    (hg : l.parent parent = some grandparent) (hr : l.parent root = .none) :
    (l.swapped node parent).Reaches root x ↔ l.Reaches root x := by
  have hf := hl.swapped hp hg
  have hpn := hl.parent_ne hp
  have hnroot : node ≠ root := fun h ↦ by simp [h, hr] at hp
  have hproot : parent ≠ root := fun h ↦ by simp [h, hr] at hg
  have hnode : l.Reaches root node ↔ l.Reaches root parent := by
    rw [hl.reaches_iff]
    simp [hp, hnroot]
  have hparent : l.Reaches root parent ↔ l.Reaches root grandparent := by
    rw [hl.reaches_iff]
    simp [hg, hproot]
  refine hf.induct (P := fun x ↦ (l.swapped node parent).Reaches root x ↔ l.Reaches root x) ?_ x
  intro x ih
  rw [hf.reaches_iff]
  have hup := swapped_parent l node parent x
  by_cases hxn : x = node
  · subst hxn
    rw [if_pos rfl, hg] at hup
    simp [hup, (ih grandparent hup).1, hnroot, hnode, hparent]
  · rw [if_neg hxn] at hup
    by_cases hxp : x = parent
    · subst hxp
      rw [if_pos rfl] at hup
      simp [hup, (ih node hup).1, hproot, hnode]
    · rw [if_neg hxp] at hup
      cases hq : l.parent x with
      | none => simp [hup, hq, hl.reaches_root_iff hq]
      | some q =>
          rw [hl.reaches_iff]
          by_cases hqn : q = node
          · subst hqn
            rw [if_pos hq] at hup
            simp [hup, (ih parent hup).1, hq, hnode]
          · have hne : l.parent x ≠ some node := by simpa [hq] using hqn
            rw [if_neg hne, hq] at hup
            simp [hup, (ih q hup).1, hq]

/-! ## Hanging up a node that stands alone -/

theorem runOn_setParent_eq_attached {up : Option NodeId}
    (hloose : ∀ p, up = some p → node ∉ l.children p) :
    runOn (setParent node up) l = (.ok (), l.attached node up) := by
  cases up with
  | none =>
      rw [setParent, runOn_modify_bind, runOn_pure]
      congr 1
  | some parent =>
      rw [runOn_setParent (hloose parent rfl)]
      congr 1
      ext1 n
      · rw [attached_parent]
        rfl
      · rw [attached_children]
        by_cases h : n = parent
        · simp [h]
        · have hne : ¬ some parent = some n := fun heq ↦ h (Option.some.inj heq).symm
          rw [if_neg hne, withChildren_children_of_ne _ _ h, withParent_children]

theorem Links.Forest.attached (hl : l.Forest) {up : Option NodeId} (hn : l.parent node = .none)
    (hapart : ∀ p, up = some p → ¬ l.Reaches node p) : (l.attached node up).Forest where
  mem_children_iff := by
    intro n c
    rw [attached_children, attached_parent]
    split
    · simp only [List.mem_append, List.mem_singleton, hl.mem_children_iff]
      grind
    · rw [hl.mem_children_iff]
      grind
  nodup := by
    intro n
    rw [attached_children]
    split
    · refine List.nodup_append.2 ⟨hl.nodup n, by simp, ?_⟩
      intro c hc d hd h
      rw [List.mem_singleton] at hd
      rw [hl.mem_children_iff, h, hd, hn] at hc
      cases hc
    · exact hl.nodup n
  rooted := by
    have outside : ∀ n, ¬ l.Reaches node n → (l.attached node up).Rooted n := by
      refine hl.induct ?_
      intro n ih hreach
      have hne : n ≠ node := fun h ↦ hreach (h ▸ .refl)
      cases hq : l.parent n with
      | none => exact .root (by simp [attached_parent, hne, hq])
      | some q =>
          refine .child (by rw [attached_parent, if_neg hne, hq]) ((ih q hq).1 ?_)
          exact fun h ↦ hreach (h.tail (hl.mem_children_iff.2 hq))
    have hnode : (l.attached node up).Rooted node := by
      cases up with
      | none => exact .root (by rw [attached_parent, if_pos rfl])
      | some p => exact .child (by rw [attached_parent, if_pos rfl]) (outside p (hapart p rfl))
    refine hl.induct ?_
    intro n ih
    by_cases hne : n = node
    · exact hne ▸ hnode
    · cases hq : l.parent n with
      | none => exact .root (by simp [attached_parent, hne, hq])
      | some q => exact .child (by rw [attached_parent, if_neg hne, hq]) (ih q hq).1

theorem reaches_attached_iff (hl : l.Forest) {up : Option NodeId} (hn : l.parent node = .none)
    (hapart : ∀ p, up = some p → ¬ l.Reaches node p) (hne : root ≠ node) :
    (l.attached node up).Reaches root x ↔
      l.Reaches root x ∨ (∃ p, up = some p ∧ l.Reaches root p) ∧ l.Reaches node x := by
  have hf := hl.attached hn hapart
  refine hf.induct (P := fun x ↦ (l.attached node up).Reaches root x ↔
    l.Reaches root x ∨ (∃ p, up = some p ∧ l.Reaches root p) ∧ l.Reaches node x) ?_ x
  intro x ih
  rw [hf.reaches_iff]
  have hparent := attached_parent l node up x
  by_cases hx : x = node
  · subst hx
    rw [if_pos rfl] at hparent
    cases up with
    | none => simp [hparent, hl.reaches_root_iff hn]
    | some p => simp [hparent, (ih p hparent).1, hapart p rfl, hl.reaches_root_iff hn, hne.symm]
  · rw [if_neg hx] at hparent
    cases hq : l.parent x with
    | none => simp [hparent, hq, hl.reaches_root_iff hq, hx]
    | some q =>
        have hup := (ih q (hparent.trans hq)).1
        rw [hl.reaches_iff (r := root) (x := x), hl.reaches_iff (r := node) (x := x)]
        simp [hparent, hq, hup, hx, or_assoc]

/-! ## Operations that do not go through -/

theorem runOn_remove_of_root (hp : l.parent node = .none) :
    runOn (remove node) l = (.error (.invariant .removeRoot), l) := by
  rw [remove, runOn_get_bind]
  simp only [hp]
  exact runOn_throw _ l

theorem runOn_insertAbove_of_root (hp : l.parent other = .none) :
    runOn (insertAbove node other) l = (.error (.invariant .insertAboveRoot), l) := by
  rw [insertAbove, runOn_get_bind]
  simp only [hp]
  exact runOn_throw _ l

theorem runOn_swapWithParent_of_noGrandparent (h : (l.parent node).bind l.parent = .none) :
    runOn (swapWithParent node) l = (.error (.invariant .swapWithoutGrandparent), l) := by
  rw [swapWithParent, runOn_get_bind]
  cases hp : l.parent node with
  | none => exact runOn_throw _ l
  | some parent =>
      rw [hp, Option.bind_some] at h
      simp only [h]
      exact runOn_throw _ l

end ChartLowering.Pipeline
