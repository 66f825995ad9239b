import ChartLowering.Proofs.Pipeline.Kept
import ChartLowering.Proofs.Pipeline.Runs

/-!
# What a failed operation leaves behind

Any operation can be tried on a pipeline, also one that sets a single side of a link, so that
parents and children need not agree. An operation that breaks off leaves the links as they were in
few cases only, which are told here one by one.
-/

namespace ChartLowering.Pipeline

open Links hiding none

variable {α : Type}

/-! ## Where operations break off -/

section Stops

variable {l : Links} {node child parent other c : NodeId} {before after done rest cs : List NodeId}

theorem runOn_addChild_of_mem (h : child ∈ l.children node) (place : Option Int) :
    runOn (addChild node child place) l = (.error (.invariant .childTwice), l) := by
  rw [addChild, runOn_get_bind, if_pos h]
  exact runOn_throw _ l

theorem adopt_append (parent : NodeId) (done rest : List NodeId) (place : Option Nat) :
    adopt parent (done ++ rest) place =
      adopt parent done place >>= fun _ ↦ adopt parent rest (place.map (· + done.length)) := by
  induction done generalizing place with
  | nil => cases place <;> simp [adopt]
  | cons c done ih =>
      have hplace : (place.map (· + 1)).map (· + done.length) =
          place.map (· + (c :: done).length) := by
        cases place with
        | none => rfl
        | some q =>
            simp only [Option.map_some, List.length_cons]
            congr 1
            omega
      rw [List.cons_append, adopt, adopt, bind_assoc]
      apply bind_congr
      intro _
      rw [bind_assoc]
      apply bind_congr
      intro _
      rw [ih, hplace]

/-- Adoption breaks off at the first node that hangs under the new parent already. -/
theorem runOn_adopt_of_mem {place : Option Nat} (hsplit : l.children parent = before ++ after)
    (hplace : place.getD (l.children parent).length = before.length)
    (hnodup : done.Nodup) (hnew : ∀ d ∈ done, d ∉ l.children parent)
    (hc : c ∈ l.children parent) :
    runOn (adopt parent (done ++ c :: rest) place) l =
      (.error (.invariant .childTwice),
        (l.reparent (done ++ [c]) parent).withChildren parent (before ++ done ++ after)) := by
  -- The children of the parent are only ever added to, so a node that hangs there stays.
  have htwice : c ∈ ((((l.reparent done parent).withChildren parent
      (before ++ done ++ after))).withParent c (some parent)).children parent := by
    rw [hsplit] at hc
    simp only [withParent_children, withChildren_children_self, List.mem_append] at hc ⊢
    tauto
  rw [adopt_append, runOn_bind_of_ok (runOn_adopt hsplit hplace hnodup hnew), adopt,
    runOn_modify_bind, runOn_bind_of_error (runOn_addChild_of_mem htwice _)]
  congr 1
  ext1 n
  · by_cases hn : n = c <;> by_cases hd : n ∈ done <;>
      simp [withParent, withChildren, reparent, hn, hd]
  · rfl

/-- Either none of some nodes hangs under a parent yet, or there is a first one that does. -/
theorem exists_first (cs : List NodeId) (parent : NodeId) (l : Links) :
    (∀ c ∈ cs, c ∉ l.children parent) ∨
      ∃ done c rest, cs = done ++ c :: rest ∧ (∀ d ∈ done, d ∉ l.children parent) ∧
        c ∈ l.children parent := by
  cases hfind : cs.find? (· ∈ l.children parent) with
  | none => exact .inl (by simpa using hfind)
  | some c =>
      obtain ⟨hc, done, rest, hsplit, hdone⟩ := List.find?_eq_some_iff_append.1 hfind
      exact .inr ⟨done, c, rest, hsplit, by simpa using hdone, by simpa using hc⟩

theorem runOn_removeChild_cases (hnodup : (l.children node).Nodup) (child : NodeId) :
    runOn (removeChild node child) l = (.error .badContent, l) ∨
      ∃ before after, l.children node = before ++ child :: after ∧ child ∉ before ++ after ∧
        runOn (removeChild node child) l =
          (.ok before.length, l.withChildren node (before ++ after)) := by
  by_cases h : child ∈ l.children node
  · obtain ⟨before, after, hsplit⟩ := List.append_of_mem h
    rw [hsplit, List.perm_middle.nodup_iff, List.nodup_cons] at hnodup
    have hbefore : child ∉ before := fun hc ↦ hnodup.1 (List.mem_append_left _ hc)
    exact .inr ⟨before, after, hsplit, hnodup.1, runOn_removeChild hsplit hbefore⟩
  · left
    rw [removeChild, runOn_get_bind]
    simp only [if_neg h]
    exact runOn_throw _ l

end Stops

/-- Both sides of a link agree on it. -/
def Links.Hangs (l : Links) (child parent : NodeId) : Prop :=
  child ∈ l.children parent ∧ l.parent child = some parent

section Operations

variable {size : Nat} {l : Links} {node child parent other c : NodeId} {reason : Reason}

theorem withParent_eq_self_iff {up : Option NodeId} :
    l.withParent node up = l ↔ l.parent node = up := by
  constructor
  · intro h
    rw [← h]
    exact withParent_parent_self l node up
  · intro h
    ext1 n
    · by_cases hn : n = node <;> simp [withParent, hn, h]
    · rfl

theorem runOn_setParent_unchanged_iff {up : Option NodeId}
    (h : (runOn (setParent node up) l).1 = .error (.invariant reason)) :
    (runOn (setParent node up) l).2 = l ↔ l.parent node = up := by
  cases up with
  | none =>
      rw [setParent, runOn_modify_bind] at h
      cases h
  | some parent =>
      by_cases hc : node ∈ l.children parent
      · rw [setParent, runOn_modify_bind,
          runOn_addChild_of_mem (l := l.withParent node (some parent)) hc]
        exact withParent_eq_self_iff
      · rw [runOn_setParent hc] at h
        cases h

theorem withChildren_reparent_withChildren (nodes cut new : List NodeId) :
    ((l.withChildren parent cut).reparent nodes parent).withChildren parent new =
      (l.reparent nodes parent).withChildren parent new := by
  ext1 n
  · rfl
  · by_cases hn : n = parent <;> simp [withChildren, reparent, hn]

theorem reparent_withChildren_eq_self_iff {nodes new : List NodeId} :
    (l.reparent nodes parent).withChildren parent new = l ↔
      new = l.children parent ∧ ∀ n ∈ nodes, l.parent n = some parent := by
  constructor
  · intro h
    refine ⟨?_, fun n hn ↦ ?_⟩
    · rw [← h]
      exact (withChildren_children_self _ _ _).symm
    · rw [← h]
      exact if_pos hn
  · rintro ⟨rfl, hup⟩
    ext1 n
    · by_cases hn : n ∈ nodes
      · exact (if_pos hn).trans (hup n hn).symm
      · exact if_neg hn
    · by_cases hn : n = parent <;> simp [withChildren, reparent, hn]

/-- Nodes that take the place of one among others without a change are that one alone. -/
theorem eq_singleton_of_replaced {before after done : List NodeId}
    (h : before ++ done ++ after = before ++ node :: after) : done = [node] := by
  rw [List.append_assoc] at h
  exact List.append_cancel_right ((List.append_cancel_left h).trans rfl)

/-- A removal that breaks off has taken the node from its parent and has put some of its children
there, up to one that hangs there already. -/
theorem exists_of_remove_failed (hl : l.Tidy size) (hp : l.parent node = some parent)
    (h : (runOn (Pipeline.remove node) l).1 = .error (.invariant reason)) :
    ∃ before after done c rest, l.children parent = before ++ node :: after ∧
      node ∉ before ++ after ∧
      (l.withChildren parent (before ++ after)).children node = done ++ c :: rest ∧
      (∀ d ∈ done, d ∉ before ++ after) ∧ c ∈ before ++ after ∧
      (runOn (Pipeline.remove node) l).2 =
        (l.reparent (done ++ [c]) parent).withChildren parent (before ++ done ++ after) := by
  have hrun : runOn (Pipeline.remove node) l =
      runOn (removeChild parent node >>= fun place ↦ do
        adopt parent ((← get).children node) (some place)
        modify (·.withChildren node [])
        modify (·.withParent node none)) l := by
    rw [Pipeline.remove, runOn_get_bind]
    simp only [hp]
  obtain hbad | ⟨before, after, hsplit, hnode, htaken⟩ :=
    runOn_removeChild_cases (hl.nodup parent) node
  · rw [hrun, runOn_bind_of_error hbad] at h
    cases h
  have hcut : (runOn (removeChild parent node) l).2.Tidy size := keeps_removeChild l hl
  rw [htaken] at hcut
  have hold : (l.withChildren parent (before ++ after)).children parent = before ++ after :=
    withChildren_children_self _ _ _
  have hcs := hcut.nodup node
  rw [runOn_bind_of_ok htaken, runOn_get_bind] at hrun
  obtain hnew | ⟨done, c, rest, hchildren, hdone, hc⟩ := exists_first
    ((l.withChildren parent (before ++ after)).children node) parent
      (l.withChildren parent (before ++ after))
  · rw [hrun, runOn_bind_of_ok (runOn_adopt hold rfl hcs hnew), runOn_modify_bind,
      runOn_modify] at h
    cases h
  rw [hchildren] at hcs
  rw [hchildren, runOn_bind_of_error (runOn_adopt_of_mem hold rfl
    (List.nodup_append.1 hcs).1 hdone hc)] at hrun
  rw [hold] at hdone hc
  refine ⟨before, after, done, c, rest, hsplit, hnode, hchildren, hdone, hc, ?_⟩
  rw [hrun, withChildren_reparent_withChildren]

theorem runOn_remove_unchanged_iff (hl : l.Tidy size)
    (h : (runOn (Pipeline.remove node) l).1 = .error (.invariant reason)) :
    (runOn (Pipeline.remove node) l).2 = l ↔ l.parent node = none ∨
      ∃ parent c rest, l.parent node = some parent ∧ parent ≠ node ∧
        l.children node = node :: c :: rest ∧ l.Hangs c parent := by
  cases hp : l.parent node with
  | none => simp [runOn_remove_of_root hp]
  | some parent =>
      obtain ⟨before, after, done, c, rest, hsplit, hnode, hchildren, hdone, hc, hleft⟩ :=
        exists_of_remove_failed hl hp h
      have hmem {x : NodeId} (hx : x ≠ node) : x ∈ before ++ after ↔ x ∈ l.children parent := by
        simp [hsplit, hx]
      rw [hleft, reparent_withChildren_eq_self_iff, hsplit]
      constructor
      · rintro ⟨hnew, hup⟩
        obtain rfl := eq_singleton_of_replaced hnew
        have hne : node ≠ parent := by
          rintro rfl
          rw [withChildren_children_self] at hchildren
          exact hnode (hchildren ▸ List.mem_cons_self)
        rw [withChildren_children_of_ne _ _ hne] at hchildren
        have hcn : c ≠ node := fun hcn ↦ hnode (hcn ▸ hc)
        exact .inr ⟨parent, c, rest, rfl, hne.symm, hchildren, (hmem hcn).1 hc, hup c (by simp)⟩
      · rintro (hnone | ⟨q, d, others, hq, hne, hown, hd, hup⟩)
        · cases hnone
        obtain rfl := Option.some.inj hq
        rw [withChildren_children_of_ne _ _ hne.symm, hown] at hchildren
        have hdn : d ≠ node := by
          have hnodup := hl.nodup node
          rw [hown, List.nodup_cons] at hnodup
          exact fun hdn ↦ hnodup.1 (hdn ▸ List.mem_cons_self)
        -- The node itself is adopted, and the child after it is the one that cannot be.
        rcases done with _ | ⟨e, _ | ⟨f, more⟩⟩
        · exact (hnode ((List.cons.inj hchildren).1 ▸ hc)).elim
        · obtain ⟨he, hchildren⟩ := List.cons.inj hchildren
          obtain ⟨hdc, -⟩ := List.cons.inj hchildren
          subst he hdc
          refine ⟨by simp, fun n hn ↦ ?_⟩
          obtain rfl | rfl : n = node ∨ n = d := by simpa using hn
          · exact hp
          · exact hup
        · obtain ⟨-, hchildren⟩ := List.cons.inj hchildren
          obtain ⟨rfl, -⟩ := List.cons.inj hchildren
          exact (hdone d (by simp) ((hmem hdn).2 hd)).elim

/-- An insertion that breaks off either misses the node that it was to go above, or has put the new
node in its place. -/
theorem exists_of_insertAbove_failed (hl : l.Tidy size) (hp : l.parent other = some parent)
    (h : (runOn (insertAbove node other) l).1 = .error (.invariant reason)) :
    ∃ before after, l.children parent = before ++ other :: after ∧ other ∉ before ++ after ∧
      (node ∈ before ++ after ∧
          (runOn (insertAbove node other) l).2.children parent = before ++ after ∨
        (runOn (insertAbove node other) l).2 =
          ((l.withParent node (some parent)).withParent other (some node)).withChildren parent
            (before ++ node :: after)) := by
  have hrun : runOn (insertAbove node other) l =
      runOn (removeChild parent other >>= fun place ↦ do
        modify (·.withParent node (some parent))
        addChild parent node (some place)
        modify (·.withParent other none)
        setParent other (some node)) l := by
    rw [insertAbove, runOn_get_bind]
    simp only [hp]
  obtain hbad | ⟨before, after, hsplit, hother, htaken⟩ :=
    runOn_removeChild_cases (hl.nodup parent) other
  · rw [hrun, runOn_bind_of_error hbad] at h
    cases h
  refine ⟨before, after, hsplit, hother, ?_⟩
  rw [runOn_bind_of_ok htaken, runOn_modify_bind] at hrun
  have hold : ((l.withChildren parent (before ++ after)).withParent node
      (some parent)).children parent = before ++ after := withChildren_children_self _ _ _
  by_cases hnode : node ∈ before ++ after
  · rw [runOn_bind_of_error (runOn_addChild_of_mem (by rwa [hold]) _)] at hrun
    rw [hrun]
    exact .inl ⟨hnode, hold⟩
  · rw [runOn_bind_of_ok (runOn_addChild hold rfl (by rwa [hold])), runOn_modify_bind] at hrun
    generalize hk : (((l.withChildren parent (before ++ after)).withParent node
      (some parent)).withChildren parent (before ++ node :: after)).withParent other none = k
      at hrun
    by_cases hc : other ∈ k.children node
    · rw [setParent, runOn_modify_bind,
        runOn_addChild_of_mem (l := k.withParent other (some node)) hc] at hrun
      right
      rw [hrun, ← hk]
      ext1 n
      · by_cases hn : n = other <;> simp [withParent, withChildren, hn]
      · by_cases hn : n = parent <;> simp [withParent, withChildren, hn]
    · rw [hrun, runOn_setParent hc] at h
      cases h

theorem runOn_insertAbove_unchanged_iff (hl : l.Tidy size)
    (h : (runOn (insertAbove node other) l).1 = .error (.invariant reason)) :
    (runOn (insertAbove node other) l).2 = l ↔
      l.parent other = none ∨ node = other ∧ l.parent other = some other := by
  cases hp : l.parent other with
  | none => simp [runOn_insertAbove_of_root hp]
  | some parent =>
      obtain ⟨before, after, hsplit, hother, ⟨hnode, hleft⟩ | hleft⟩ :=
        exists_of_insertAbove_failed hl hp h
      · apply iff_of_false
        · intro heq
          rw [heq, hsplit] at hleft
          simpa using congrArg List.length hleft
        · rintro (hnone | ⟨rfl, -⟩)
          · cases hnone
          · exact hother hnode
      · rw [hleft]
        constructor
        · intro heq
          have hparent := congrArg (fun k : Links ↦ k.children parent) heq
          simp only [withChildren_children_self, hsplit] at hparent
          obtain ⟨rfl, -⟩ := List.cons.inj (List.append_cancel_left hparent)
          refine .inr ⟨rfl, ?_⟩
          rw [← hp, ← heq]
          exact withParent_parent_self _ _ _
        · rintro (hnone | ⟨rfl, hself⟩)
          · cases hnone
          obtain rfl := Option.some.inj hself
          ext1 n
          · by_cases hn : n = parent <;> simp [withParent, withChildren, hn, hp]
          · by_cases hn : n = parent <;> simp [withParent, withChildren, hn, hsplit]

/-- Exchanging a childless node with its parent breaks off only after the parent has been taken from
the grandparent. -/
theorem exists_of_exchange {grandparent : NodeId} (hl : l.Tidy size) (hbare : l.children node = [])
    {next : Links}
    (h : runOn (do
      discard (removeChild parent node)
      let place ← removeChild grandparent parent
      modify (·.withParent node (some grandparent))
      addChild grandparent node (some place)
      modify (·.withParent parent (some node))
      addChild node parent) l = (.error (.invariant reason), next)) :
    ∃ before after, grandparent ≠ node ∧ grandparent ≠ parent ∧
      l.children grandparent = before ++ parent :: after ∧
        next.children grandparent = before ++ after := by
  obtain hbad | ⟨left, right, hsplit, hnode, htaken⟩ :=
    runOn_removeChild_cases (hl.nodup parent) node
  · have hdiscard : runOn (discard (removeChild parent node)) l = (.error .badContent, l) :=
      runOn_bind_of_error hbad _
    rw [runOn_bind_of_error hdiscard] at h
    cases h
  have hpn : parent ≠ node := by
    rintro rfl
    simp [hbare] at hsplit
  have hcut : (runOn (removeChild parent node) l).2.Tidy size := keeps_removeChild l hl
  rw [runOn_bind_of_ok (runOn_discard_of_ok htaken)] at h
  rw [htaken] at hcut
  generalize hm : l.withChildren parent (left ++ right) = m at h hcut
  have hm_node : m.children node = [] := by
    rw [← hm, withChildren_children_of_ne _ _ hpn.symm, hbare]
  obtain hbad | ⟨before, after, hlift, -, hloose⟩ :=
    runOn_removeChild_cases (hcut.nodup grandparent) parent
  · rw [runOn_bind_of_error hbad] at h
    cases h
  have hgn : grandparent ≠ node := by
    rintro rfl
    simp [hm_node] at hlift
  rw [runOn_bind_of_ok hloose, runOn_modify_bind] at h
  have hgap : ((m.withChildren grandparent (before ++ after)).withParent node
      (some grandparent)).children grandparent = before ++ after := withChildren_children_self _ _ _
  by_cases hin : node ∈ before ++ after
  · -- Otherwise the node would still be among the children that it has just been taken from.
    have hgp : grandparent ≠ parent := by
      rintro rfl
      rw [← hm, withChildren_children_self] at hlift
      apply hnode
      rw [hlift]
      simp only [List.mem_append, List.mem_cons] at hin ⊢
      tauto
    rw [runOn_bind_of_error (runOn_addChild_of_mem (by rwa [hgap]) _)] at h
    obtain ⟨-, rfl⟩ := Prod.mk.inj h
    refine ⟨before, after, hgn, hgp, ?_, hgap⟩
    rw [← hlift, ← hm, withChildren_children_of_ne _ _ hgp]
  · have hlast : ((((m.withChildren grandparent (before ++ after)).withParent node
        (some grandparent)).withChildren grandparent (before ++ node :: after)).withParent parent
          (some node)).children node = [] ++ [] := by
      simp [withChildren, hgn.symm, hm_node]
    rw [runOn_bind_of_ok (runOn_addChild hgap rfl (by rwa [hgap])), runOn_modify_bind,
      runOn_addChild hlast (by simp [hlast]) (by simp [hlast])] at h
    cases h

/-- A swap that breaks off has either taken the parent from the grandparent, or has stopped at a
child of the node that hangs under the parent already. -/
theorem exists_of_swapWithParent_failed {grandparent : NodeId} (hl : l.Tidy size)
    (hp : l.parent node = some parent) (hg : l.parent parent = some grandparent)
    (h : (runOn (swapWithParent node) l).1 = .error (.invariant reason)) :
    ((∀ c ∈ l.children node, c ∉ l.children parent) ∧
        (runOn (swapWithParent node) l).2.children grandparent ≠ l.children grandparent) ∨
      ∃ done c rest, l.children node = done ++ c :: rest ∧
        (∀ d ∈ done, d ∉ l.children parent) ∧ c ∈ l.children parent ∧
          (runOn (swapWithParent node) l).2 =
            (l.reparent (done ++ [c]) parent).withChildren parent (l.children parent ++ done) := by
  have hrun : runOn (swapWithParent node) l =
      runOn (adopt parent (l.children node) none >>= fun _ ↦ do
        modify (·.withChildren node [])
        discard (removeChild parent node)
        let place ← removeChild grandparent parent
        modify (·.withParent node (some grandparent))
        addChild grandparent node (some place)
        modify (·.withParent parent (some node))
        addChild node parent) l := by
    rw [swapWithParent, runOn_get_bind]
    simp only [hp, hg]
  have hend : l.children parent = l.children parent ++ [] := (List.append_nil _).symm
  obtain hnew | ⟨done, c, rest, hchildren, hdone, hc⟩ := exists_first (l.children node) parent l
  · rw [runOn_bind_of_ok (runOn_adopt hend rfl (hl.nodup node) hnew), runOn_modify_bind] at hrun
    have hadopted := keeps_adopt (hl.parent_lt node parent hp) (hl.child_lt node) none l hl
    rw [runOn_adopt hend rfl (hl.nodup node) hnew] at hadopted
    obtain ⟨before, after, hgn, hgp, hfull, hgap⟩ := exists_of_exchange
      (hadopted.withChildren List.nodup_nil (by simp))
      (withChildren_children_self _ _ _) (hrun.symm.trans (Prod.ext h rfl))
    rw [withChildren_children_of_ne _ _ hgn, withChildren_children_of_ne _ _ hgp] at hfull
    refine .inl ⟨hnew, fun hsame ↦ ?_⟩
    simpa using congrArg List.length (hgap.symm.trans (hsame.trans hfull))
  · have hnodup := hl.nodup node
    rw [hchildren] at hnodup
    rw [hchildren, runOn_bind_of_error (runOn_adopt_of_mem hend rfl
      (List.nodup_append.1 hnodup).1 hdone hc), List.append_nil] at hrun
    exact .inr ⟨done, c, rest, hchildren, hdone, hc, congrArg Prod.snd hrun⟩

theorem runOn_swapWithParent_unchanged_iff (hl : l.Tidy size)
    (h : (runOn (swapWithParent node) l).1 = .error (.invariant reason)) :
    (runOn (swapWithParent node) l).2 = l ↔ (l.parent node).bind l.parent = none ∨
      ∃ parent c rest, l.parent node = some parent ∧ l.children node = c :: rest ∧
        l.Hangs c parent := by
  cases hbind : (l.parent node).bind l.parent with
  | none => simp [runOn_swapWithParent_of_noGrandparent hbind]
  | some grandparent =>
      obtain ⟨parent, hp, hg⟩ := Option.bind_eq_some_iff.1 hbind
      obtain ⟨hnew, hleft⟩ | ⟨done, c, rest, hchildren, hdone, hc, hleft⟩ :=
        exists_of_swapWithParent_failed hl hp hg h
      · apply iff_of_false
        · intro heq
          exact hleft (by rw [heq])
        · rintro (hnone | ⟨q, d, others, hq, hown, hd, -⟩)
          · cases hnone
          obtain rfl := Option.some.inj (hp.symm.trans hq)
          exact hnew d (hown ▸ List.mem_cons_self) hd
      · rw [hleft, reparent_withChildren_eq_self_iff]
        constructor
        · rintro ⟨hsame, hup⟩
          obtain rfl : done = [] := by simpa using hsame
          exact .inr ⟨parent, c, rest, hp, hchildren, hc, hup c (by simp)⟩
        · rintro (hnone | ⟨q, d, others, hq, hown, hd, hup⟩)
          · cases hnone
          obtain rfl := Option.some.inj (hp.symm.trans hq)
          rw [hown] at hchildren
          -- The first child is the one that cannot be adopted, so nothing has been done yet.
          cases done with
          | nil =>
              obtain ⟨rfl, -⟩ := List.cons.inj hchildren
              simpa using hup
          | cons e done =>
              obtain ⟨rfl, -⟩ := List.cons.inj hchildren
              exact (hdone d List.mem_cons_self hd).elim

end Operations

/-! ## Everything that can be done to a pipeline -/

/-- The operations of a pipeline, together with those that change one side of a link or assign a
parent to a node that has one. -/
inductive Command where
  | surgery (op : Surgery)
  | assign (node : NodeId) (parent : Option NodeId)
  | addChild (node child : NodeId) (place : Option Int)
  | removeChild (node child : NodeId)

namespace Command

def perform : Command → Edit Unit
  | surgery op => op.perform
  | assign node parent => rewire (setParent node parent)
  | addChild node child place => rewire (Pipeline.addChild node child place)
  | removeChild node child => rewire (discard (Pipeline.removeChild node child))

/-- A command is for nodes that were made. -/
def Named (p : Pipeline) : Command → Prop
  | surgery (.create _ parent) => ∀ n ∈ parent, n < p.nodes.length
  | surgery (.remove node) | surgery (.swap node) => node < p.nodes.length
  | surgery (.insert node other) | addChild node other _ | removeChild node other =>
      node < p.nodes.length ∧ other < p.nodes.length
  | assign node parent => node < p.nodes.length ∧ ∀ n ∈ parent, n < p.nodes.length

/-- The links on which a command that breaks off leaves no trace. Its own guard has refused it, or
it has done and undone the same. -/
def Traceless (l : Links) : Command → Prop
  | surgery (.create ..) | addChild .. | removeChild .. => True
  | assign node parent => l.parent node = parent
  | surgery (.remove node) => l.parent node = none ∨
      ∃ parent c rest, l.parent node = some parent ∧ parent ≠ node ∧
        l.children node = node :: c :: rest ∧ l.Hangs c parent
  | surgery (.insert node other) =>
      l.parent other = none ∨ node = other ∧ l.parent other = some other
  | surgery (.swap node) => (l.parent node).bind l.parent = none ∨
      ∃ parent c rest, l.parent node = some parent ∧ l.children node = c :: rest ∧
        l.Hangs c parent

end Command

/-- The pipelines that commands lead to, whether they go through or not. -/
inductive Arises : Pipeline → Prop
  | empty : Arises .empty
  | perform {p : Pipeline} (op : Command) (hp : Arises p) (hop : op.Named p) :
      Arises (runOn op.perform p).2

variable {p : Pipeline} {op : Command} {reason : Reason}

/-- The pipeline has so many nodes, and its links are between them. -/
def HasTidy (size : Nat) (p : Pipeline) : Prop := p.nodes.length = size ∧ p.links.Tidy size

theorem keeps_rewire {change : Rewiring α} {size : Nat} (h : Keeps (Links.Tidy size) change) :
    Keeps (HasTidy size) (rewire change) := by
  rintro p ⟨hsize, hp⟩
  rw [runOn_rewire]
  exact ⟨hsize, h p.links hp⟩

theorem Links.Tidy.none (size : Nat) : Links.none.Tidy size where
  nodup _ := List.nodup_nil
  child_lt _ _ hc := absurd hc List.not_mem_nil
  parent_lt _ _ hq := absurd hq (by simp [Links.none])

theorem Links.Tidy.succ {size : Nat} {l : Links} (hl : l.Tidy size) : l.Tidy (size + 1) where
  nodup := hl.nodup
  child_lt n c hc := Nat.lt_succ_of_lt (hl.child_lt n c hc)
  parent_lt n q hq := Nat.lt_succ_of_lt (hl.parent_lt n q hq)

/-- A new node comes with a link to its parent, which cannot have it as a child already. -/
theorem runOn_create (node : Node) {parent : Option NodeId} {size : Nat} (hp : HasTidy size p)
    (hparent : ∀ n ∈ parent, n < size) :
    ∃ next, runOn (Surgery.create node parent).perform p = (.ok (), next) ∧
      HasTidy (size + 1) next := by
  obtain ⟨rfl, hl⟩ := hp
  have hgrown : HasTidy (p.nodes.length + 1) { p with nodes := p.nodes ++ [node] } :=
    ⟨by simp, hl.succ⟩
  have hlink : Keeps (HasTidy (p.nodes.length + 1)) (rewire (setParent p.nodes.length parent)) :=
    keeps_rewire (keeps_setParent (Nat.lt_succ_self _)
      fun n hn ↦ Nat.lt_succ_of_lt (hparent n hn))
  have htidy := hlink _ hgrown
  have hok : (runOn (rewire (setParent p.nodes.length parent))
      { p with nodes := p.nodes ++ [node] }).1 = .ok () := by
    rw [runOn_rewire]
    cases parent with
    | none => rfl
    | some parent =>
        have hnew : p.nodes.length ∉ p.links.children parent :=
          fun hc ↦ Nat.lt_irrefl _ (hl.child_lt parent _ hc)
        rw [runOn_setParent hnew]
  refine ⟨_, runOn_discard_of_ok (a := p.nodes.length) ?_, htidy⟩
  rw [add, runOn_get_bind, runOn_modify_bind]
  exact runOn_bind_of_ok (Prod.ext hok rfl) _

/-- One step: no command leaves more than links between the nodes that were made. -/
theorem Command.exists_hasTidy (hp : HasTidy p.nodes.length p) (hop : op.Named p) :
    ∃ size, HasTidy size (runOn op.perform p).2 := by
  have hrewire (change : Rewiring Unit) (h : Keeps (Links.Tidy p.nodes.length) change) :
      ∃ size, HasTidy size (runOn (rewire change) p).2 := ⟨_, keeps_rewire h p hp⟩
  cases op with
  | surgery op =>
      cases op with
      | create node parent =>
          obtain ⟨next, hrun, hnext⟩ := runOn_create node hp hop
          refine ⟨p.nodes.length + 1, ?_⟩
          rw [perform, hrun]
          exact hnext
      | remove node => exact hrewire (Pipeline.remove node) keeps_remove
      | swap node => exact hrewire (swapWithParent node) (keeps_swapWithParent hop)
      | insert node other => exact hrewire (insertAbove node other) (keeps_insertAbove hop.1 hop.2)
  | assign node parent => exact hrewire (setParent node parent) (keeps_setParent hop.1 hop.2)
  | addChild node child place =>
      exact hrewire (Pipeline.addChild node child place) (keeps_addChild hop.2 place)
  | removeChild node child =>
      apply hrewire (discard (Pipeline.removeChild node child))
      exact .bind keeps_removeChild fun _ ↦ .pure _

theorem Arises.hasTidy (hp : Arises p) : HasTidy p.nodes.length p := by
  induction hp with
  | empty => exact ⟨rfl, .none 0⟩
  | perform op _ hop ih =>
      obtain ⟨size, hsize, htidy⟩ := Command.exists_hasTidy ih hop
      subst hsize
      exact ⟨rfl, htidy⟩

/-- A command that breaks off leaves the links as they were just where it leaves no trace. -/
theorem Command.unchanged_iff_traceless (hp : Arises p) (hop : op.Named p)
    (hfail : (runOn op.perform p).1 = .error (.invariant reason)) :
    (runOn op.perform p).2.links = p.links ↔ op.Traceless p.links := by
  have htidy := hp.hasTidy
  cases op with
  | surgery op =>
      cases op with
      | create node parent =>
          obtain ⟨next, hrun, -⟩ := runOn_create node htidy hop
          rw [perform, hrun] at hfail
          cases hfail
      | remove node =>
          rw [perform, Surgery.perform, runOn_rewire] at hfail ⊢
          exact runOn_remove_unchanged_iff htidy.2 hfail
      | swap node =>
          rw [perform, Surgery.perform, runOn_rewire] at hfail ⊢
          exact runOn_swapWithParent_unchanged_iff htidy.2 hfail
      | insert node other =>
          rw [perform, Surgery.perform, runOn_rewire] at hfail ⊢
          exact runOn_insertAbove_unchanged_iff htidy.2 hfail
  | assign node parent =>
      rw [perform, runOn_rewire] at hfail ⊢
      exact runOn_setParent_unchanged_iff hfail
  | addChild node child place =>
      rw [perform, runOn_rewire] at hfail ⊢
      by_cases hc : child ∈ p.links.children node
      · rw [runOn_addChild_of_mem hc]
        exact iff_of_true rfl trivial
      · rw [Pipeline.addChild, runOn_get_bind, if_neg hc] at hfail
        cases hfail
  | removeChild node child =>
      rw [perform, runOn_rewire] at hfail ⊢
      obtain hbad | ⟨before, after, -, -, htaken⟩ :=
        runOn_removeChild_cases (htidy.2.nodup node) child
      · have hdiscard : runOn (discard (Pipeline.removeChild node child)) p.links =
            (.error .badContent, p.links) := runOn_bind_of_error hbad _
        rw [hdiscard] at hfail
        cases hfail
      · rw [runOn_discard_of_ok htaken] at hfail
        cases hfail

/-- The pipeline that commands leave, the last of which stands first. -/
def leftBy : List Command → Pipeline
  | [] => .empty
  | op :: earlier => (runOn op.perform (leftBy earlier)).2

/-- A root with two nodes, both of which are children of the first of them as well. -/
def tangled : Pipeline :=
  leftBy [.addChild 1 2 none, .addChild 1 1 none, .surgery (.create ⟨.plain, none⟩ (some 0)),
    .surgery (.create ⟨.plain, none⟩ (some 0)), .surgery (.create ⟨.plain, none⟩ none)]

theorem Arises.tangled : Arises tangled := by
  have hroot := Arises.empty.perform (.surgery (.create ⟨.plain, none⟩ none))
    (by simp [Command.Named])
  have hfirst := hroot.perform (.surgery (.create ⟨.plain, none⟩ (some 0)))
    (by simp [Command.Named]; decide)
  have hsecond := hfirst.perform (.surgery (.create ⟨.plain, none⟩ (some 0)))
    (by simp [Command.Named]; decide)
  have hself := hsecond.perform (.addChild 1 1 none) ⟨by decide, by decide⟩
  exact hself.perform (.addChild 1 2 none) ⟨by decide, by decide⟩

theorem Command.unchanged_iff_traceless_tangled :
    Arises tangled ∧
      (runOn (surgery (.remove 1)).perform tangled).1 = .error (.invariant .childTwice) ∧
      (runOn (surgery (.remove 1)).perform tangled).2.links = tangled.links := by
  have hfail : (runOn (surgery (.remove 1)).perform tangled).1 =
      .error (.invariant .childTwice) := rfl
  have hnamed : (surgery (.remove 1)).Named tangled := show 1 < 3 by decide
  refine ⟨.tangled, hfail, (unchanged_iff_traceless .tangled hnamed hfail).2 (.inr ?_)⟩
  exact ⟨0, 2, [], rfl, by decide, rfl, by decide, rfl⟩

/-- Two roots, to the second of which a node of the first one has been assigned. -/
def reassigned : Pipeline :=
  leftBy [.assign 2 (some 1), .surgery (.create ⟨.plain, none⟩ (some 0)),
    .surgery (.create ⟨.plain, none⟩ none), .surgery (.create ⟨.plain, none⟩ none)]

theorem Command.not_unchanged_reassigned :
    Arises reassigned ∧ (assign 2 (some 0)).Named reassigned ∧
      (runOn (assign 2 (some 0)).perform reassigned).1 = .error (.invariant .childTwice) ∧
      reassigned.links.parent 2 = some 1 ∧
      (runOn (assign 2 (some 0)).perform reassigned).2.links.parent 2 = some 0 := by
  have hroots := (Arises.empty.perform (.surgery (.create ⟨.plain, none⟩ none))
    (by simp [Named])).perform (.surgery (.create ⟨.plain, none⟩ none)) (by simp [Named])
  have hchild := hroots.perform (.surgery (.create ⟨.plain, none⟩ (some 0)))
    (by simp [Named]; decide)
  have hlast := hchild.perform (.assign 2 (some 1)) ⟨by decide, by simp; decide⟩
  exact ⟨hlast, ⟨by decide, by simp; decide⟩, rfl, rfl, rfl⟩

end ChartLowering.Pipeline
