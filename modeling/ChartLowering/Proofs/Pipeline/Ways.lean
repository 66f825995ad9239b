import ChartLowering.Proofs.Pipeline.Runs
import Mathlib.Data.List.Nodup

/-!
# Ways through a pipeline

The data that a node gets has gone through all nodes on the way from the root down to it. An
operation that goes through changes the ways of few nodes, and the places of few children.
-/

namespace ChartLowering.Pipeline

open Links hiding none

namespace Links

/-- The nodes on the way from a root down to a node, with both of them. -/
inductive Way (l : Links) : NodeId → List NodeId → Prop
  | root {n : NodeId} (h : l.parent n = .none) : Way l n [n]
  | child {n p : NodeId} {way : List NodeId} (h : l.parent n = some p) (hp : Way l p way) :
      Way l n (way ++ [n])

/-- The nodes of some trees one after the other, each before those below it. -/
inductive DepthFirst (l : Links) : List NodeId → List NodeId → Prop
  | done : DepthFirst l [] []
  | visit {n : NodeId} {rest order : List NodeId} (h : DepthFirst l (l.children n ++ rest) order) :
      DepthFirst l (n :: rest) (n :: order)

variable {l : Links} {n m p x node other parent grandparent : NodeId}
  {way above below after trees order : List NodeId}

theorem Way.eq_or_exists_child (h : l.Way x way) :
    way = [x] ∧ l.parent x = .none ∨
      ∃ p above, l.parent x = some p ∧ l.Way p above ∧ way = above ++ [x] := by
  cases h with
  | root hroot => exact .inl ⟨rfl, hroot⟩
  | child hx hp => exact .inr ⟨_, _, hx, hp, rfl⟩

theorem Way.unique {way' : List NodeId} (h : l.Way x way) (h' : l.Way x way') : way = way' := by
  induction h generalizing way' with
  | root hroot =>
      obtain ⟨rfl, -⟩ | ⟨p, above, hx, -⟩ := h'.eq_or_exists_child
      · rfl
      · cases hroot.symm.trans hx
  | child hx hp ih =>
      obtain ⟨-, hroot⟩ | ⟨p, above, hx', hp', rfl⟩ := h'.eq_or_exists_child
      · cases hroot.symm.trans hx
      · obtain rfl := Option.some.inj (hx.symm.trans hx')
        rw [ih hp']

/-- The way to a node ends there, after the way to its parent. -/
theorem Way.of_child (h : l.Way x way) (hx : l.parent x = some p) :
    ∃ above, l.Way p above ∧ way = above ++ [x] := by
  obtain ⟨-, hroot⟩ | ⟨q, above, hx', hq, rfl⟩ := h.eq_or_exists_child
  · cases hroot.symm.trans hx
  · obtain rfl := Option.some.inj (hx.symm.trans hx')
    exact ⟨above, hq, rfl⟩

namespace Forest

theorem exists_way (hl : l.Forest) (x : NodeId) : ∃ way, l.Way x way := by
  induction hl.rooted x with
  | root h => exact ⟨_, .root h⟩
  | child h _ ih =>
      obtain ⟨way, hway⟩ := ih
      exact ⟨_, .child h hway⟩

/-- The nodes on a way are those from which it leads down. -/
theorem mem_way_iff (hl : l.Forest) (h : l.Way x way) : m ∈ way ↔ l.Reaches m x := by
  induction h with
  | root hroot => rw [hl.reaches_root_iff hroot, List.mem_singleton, eq_comm]
  | @child x p way hx hp ih =>
      rw [List.mem_append, List.mem_singleton, ih, hl.reaches_iff (x := x), hx]
      simp only [Option.some.injEq, exists_eq_left', eq_comm (a := m)]
      exact or_comm

theorem not_reaches_parent (hl : l.Forest) (h : l.parent x = some p) : ¬ l.Reaches x p := by
  refine hl.induct (P := fun x ↦ ∀ p, l.parent x = some p → ¬ l.Reaches x p) ?_ x p h
  intro x ih p hp hreach
  obtain rfl | ⟨g, hg, hup⟩ := hl.reaches_iff.1 hreach
  · exact hl.parent_ne hp rfl
  · exact (ih p hp).1 g hg (.head (hl.mem_children_iff.2 hp) hup)

theorem nodup_way (hl : l.Forest) (h : l.Way x way) : way.Nodup := by
  induction h with
  | root => exact List.nodup_singleton _
  | child hx hp ih =>
      refine List.nodup_append.2 ⟨ih, List.nodup_singleton _, ?_⟩
      rintro m hm _ hx' rfl
      obtain rfl := List.mem_singleton.1 hx'
      exact hl.not_reaches_parent hx ((hl.mem_way_iff hp).1 hm)

end Forest

/-! ## Depth-first order -/

theorem DepthFirst.append {more later : List NodeId} (h : l.DepthFirst trees order)
    (hmore : l.DepthFirst more later) : l.DepthFirst (trees ++ more) (order ++ later) := by
  induction h with
  | done => exact hmore
  | visit _ ih =>
      rw [List.append_assoc] at ih
      exact .visit ih

theorem exists_depthFirst_of_forall (h : ∀ n ∈ trees, ∃ order, l.DepthFirst [n] order) :
    ∃ order, l.DepthFirst trees order := by
  induction trees with
  | nil => exact ⟨[], .done⟩
  | cons n rest ih =>
      obtain ⟨first, hfirst⟩ := h n List.mem_cons_self
      obtain ⟨later, hlater⟩ := ih fun m hm ↦ h m (List.mem_cons_of_mem n hm)
      exact ⟨first ++ later, hfirst.append hlater⟩

/-- Where a node is taken out, the traversal passes on to its children right away. -/
theorem DepthFirst.removed (hl : l.Forest) (h : l.DepthFirst trees order) :
    (l.removed node).DepthFirst
      (trees.flatMap fun c ↦ if c = node then l.children node else [c])
      (order.filter (· ≠ node)) := by
  induction h with
  | done => exact .done
  | @visit n rest order h ih =>
      rw [List.flatMap_append] at ih
      by_cases hn : n = node
      · subst hn
        have hown : n ∉ l.children n := fun hmem ↦
          hl.parent_ne (hl.mem_children_iff.1 hmem) rfl
        rw [flatMap_of_notMem hown] at ih
        simpa using ih
      · have hchildren : (l.removed node).children n =
            (l.children n).flatMap fun c ↦ if c = node then l.children node else [c] := by
          rw [removed_children, if_neg hn]
          rfl
        rw [← hchildren] at ih
        simpa [hn] using DepthFirst.visit ih

/-! ## Ways after an operation -/

theorem Way.removed (hp : l.parent node = some parent) (hne : parent ≠ node) (h : l.Way x way) :
    (l.removed node).Way (if x = node then parent else x) (way.filter (· ≠ node)) := by
  induction h with
  | @root x hroot =>
      have hx : x ≠ node := fun hx ↦ by cases hp.symm.trans (hx ▸ hroot)
      have hway : (l.removed node).Way x [x] := .root (by simp [removed_parent, hx, hroot])
      simpa [hx] using hway
  | @child x p way hx _ ih =>
      rw [List.filter_append]
      by_cases hxn : x = node
      · subst hxn
        obtain rfl := Option.some.inj (hp.symm.trans hx)
        simpa [hne] using ih
      · have hup : (l.removed node).parent x = some (if p = node then parent else p) := by
          rw [removed_parent, if_neg hxn, hx]
          by_cases hpn : p = node <;> simp [hpn, hp]
        simpa [hxn] using Way.child hup ih

theorem Way.inserted (hp : l.parent other = some parent) (h : l.Way x way) (hway : node ∉ way) :
    (l.inserted node other).Way x
      (way.flatMap fun c ↦ if c = other then [node, other] else [c]) := by
  induction h with
  | @root x hroot =>
      have hxn : x ≠ node := fun hx ↦ hway (by simp [hx])
      have hxo : x ≠ other := fun hx ↦ by cases hp.symm.trans (hx ▸ hroot)
      have hnew : (l.inserted node other).Way x [x] :=
        .root (by rw [inserted_parent, if_neg hxn, if_neg hxo, hroot])
      simpa [hxo] using hnew
  | @child x p way hx _ ih =>
      rw [List.mem_append, List.mem_singleton, not_or] at hway
      have hup := ih hway.1
      rw [List.flatMap_append, List.flatMap_singleton]
      by_cases hxo : x = other
      · subst hxo
        obtain rfl := Option.some.inj (hp.symm.trans hx)
        have hnode : (l.inserted node x).parent node = some parent := by
          rw [inserted_parent, if_pos rfl, hp]
        have hself : (l.inserted node x).parent x = some node := by
          rw [inserted_parent, if_neg (Ne.symm hway.2), if_pos rfl]
        simpa using Way.child hself (.child hnode hup)
      · have hparent : (l.inserted node other).parent x = some p := by
          rw [inserted_parent, if_neg (Ne.symm hway.2), if_neg hxo, hx]
        rw [if_neg hxo]
        exact .child hparent hup

/-- The tree of the inserted node comes along with it. -/
theorem Way.inserted_along (hl : l.Forest) (hp : l.parent other = some parent)
    (hn : l.parent node = .none) (hapart : ¬ l.Reaches node other)
    (hup : (l.inserted node other).Way parent above) (h : l.Way x way)
    (hreach : l.Reaches node x) : (l.inserted node other).Way x (above ++ way) := by
  induction h with
  | @root x hroot =>
      obtain rfl := (hl.reaches_root_iff hroot).1 hreach
      refine .child ?_ hup
      rw [inserted_parent, if_pos rfl, hp]
  | @child x p way hx _ ih =>
      have hxn : x ≠ node := fun h ↦ by cases hx.symm.trans (h ▸ hn)
      have hxo : x ≠ other := fun h ↦ hapart (h ▸ hreach)
      have hparent : (l.inserted node other).parent x = some p := by
        rw [inserted_parent, if_neg hxn, if_neg hxo, hx]
      rw [hl.reaches_iff, hx] at hreach
      have hmiddle : l.Reaches node p := by simpa [hxn] using hreach
      rw [← List.append_assoc]
      exact .child hparent (ih hmiddle)

/-- What stands on a way in the place of a node once two nodes have been exchanged. -/
def exchanged (node parent c : NodeId) : List NodeId :=
  if c = node then [] else if c = parent then [node, parent] else [c]

theorem flatMap_exchanged (hn : node ∉ way) (hp : parent ∉ way) :
    way.flatMap (exchanged node parent) = way := by
  induction way with
  | nil => rfl
  | cons c rest ih =>
      rw [List.mem_cons, not_or] at hn hp
      rw [List.flatMap_cons, ih hn.2 hp.2, exchanged, if_neg (Ne.symm hn.1),
        if_neg (Ne.symm hp.1), List.singleton_append]

theorem Way.swapped (hp : l.parent node = some parent) (hg : l.parent parent = some grandparent)
    (hpn : parent ≠ node) (hgn : grandparent ≠ node) (h : l.Way x way) :
    (l.swapped node parent).Way (if x = node then parent else x)
      (way.flatMap (exchanged node parent)) := by
  induction h with
  | @root x hroot =>
      have hxn : x ≠ node := fun hx ↦ by cases hp.symm.trans (hx ▸ hroot)
      have hxp : x ≠ parent := fun hx ↦ by cases hg.symm.trans (hx ▸ hroot)
      have hnew : (l.swapped node parent).Way x [x] :=
        .root (by simp [swapped_parent, hxn, hxp, hroot])
      simpa [exchanged, hxn, hxp] using hnew
  | @child x p way hx _ ih =>
      rw [List.flatMap_append, List.flatMap_singleton]
      by_cases hxn : x = node
      · subst hxn
        obtain rfl := Option.some.inj (hp.symm.trans hx)
        simpa [exchanged, hpn] using ih
      by_cases hxp : x = parent
      · subst hxp
        obtain rfl := Option.some.inj (hg.symm.trans hx)
        rw [if_neg hgn] at ih
        have hnode : (l.swapped node x).parent node = some grandparent := by
          rw [swapped_parent, if_pos rfl, hg]
        have hself : (l.swapped node x).parent x = some node := by
          rw [swapped_parent, if_neg hxn, if_pos rfl]
        simpa [exchanged, hxn] using Way.child hself (.child hnode ih)
      · have hup : (l.swapped node parent).parent x = some (if p = node then parent else p) := by
          rw [swapped_parent, if_neg hxn, if_neg hxp, hx]
          by_cases hpn' : p = node <;> simp [hpn']
        simpa [exchanged, hxn, hxp] using Way.child hup ih

theorem Way.attached (h : l.Way x way) (hway : node ∉ way) (up : Option NodeId) :
    (l.attached node up).Way x way := by
  induction h with
  | @root x hroot =>
      refine .root ?_
      rw [attached_parent, if_neg fun hx ↦ hway (by simp [hx]), hroot]
  | @child x p way hx _ ih =>
      rw [List.mem_append, List.mem_singleton, not_or] at hway
      refine .child ?_ (ih hway.1)
      rw [attached_parent, if_neg (Ne.symm hway.2), hx]

/-- The beginning of a way is a way itself. -/
theorem Way.of_append (h : l.Way x (above ++ m :: after)) : l.Way m (above ++ [m]) := by
  generalize hway : above ++ m :: after = way at h
  induction h generalizing after with
  | root hroot =>
      obtain ⟨rfl, rfl, rfl⟩ : above = [] ∧ m = _ ∧ after = [] := by
        simpa [List.append_eq_singleton_iff] using hway
      exact .root hroot
  | @child x p way hx hp ih =>
      obtain rfl | ⟨before, last, rfl⟩ := List.eq_nil_or_concat after
      · obtain ⟨rfl, rfl⟩ : above = way ∧ m = x := by simpa using hway
        exact .child hx hp
      · have hends : (above ++ m :: before) ++ [last] = way ++ [x] := by
          simpa using hway
        exact ih (List.append_inj' hends rfl).1

/-- A root stands nowhere but at the beginning of a way. -/
theorem Way.notMem_below_of_root (hn : l.parent n = .none) (h : l.Way x (above ++ m :: below)) :
    n ∉ below := by
  intro hmem
  obtain ⟨before, after, rfl⟩ := List.append_of_mem hmem
  rw [← List.cons_append, ← List.append_assoc] at h
  have hlength := congrArg List.length (h.of_append.unique (.root hn))
  simp at hlength
  omega

/-- Neither a node itself nor one that is not above it stands on the way to it before. -/
theorem Forest.notMem_above (hl : l.Forest) (hapart : ¬ l.Reaches node m)
    (h : l.Way x (above ++ m :: below)) : node ∉ above ∧ m ∉ above := by
  have hway := h.of_append
  constructor
  · intro hmem
    exact hapart ((hl.mem_way_iff hway).1 (List.mem_append_left _ hmem))
  · intro hmem
    have hnodup := hl.nodup_way hway
    rw [List.nodup_append] at hnodup
    exact hnodup.2.2 m hmem m List.mem_cons_self rfl

end Links

/-! ## What an operation changes -/

/-- A new node has been hung up below its parent, if it has one. Nothing else has changed. -/
structure HungUp (l next : Links) (node : NodeId) (up : Option NodeId) : Prop where
  root : up = none → next.Way node [node]
  child : ∀ parent above, up = some parent → l.Way parent above → next.Way node (above ++ [node])
  last : ∀ parent, up = some parent → next.children parent = l.children parent ++ [node]
  kept : ∀ n, up ≠ some n → next.children n = l.children n
  others : ∀ x way, node ∉ way → l.Way x way → next.Way x way

/-- A node has been taken out of the ways that led through it. Depth first, the other nodes come in
the same order as before. -/
structure TakenOut (l next : Links) (node : NodeId) : Prop where
  alone : next.Way node [node]
  bare : next.children node = []
  below : ∀ x above below, x ≠ node → l.Way x (above ++ node :: below) →
    next.Way x (above ++ below)
  others : ∀ x way, node ∉ way → l.Way x way → next.Way x way
  order : ∀ n, n ≠ node → (∃ order, l.DepthFirst [n] order) ∧
    ∀ order, l.DepthFirst [n] order → next.DepthFirst [n] (order.filter (· ≠ node))

/-- A root has been put right above another node, at its place. It has that node after the children
that it had, which come along. -/
structure PutAbove (l next : Links) (node other : NodeId) : Prop where
  place : ∀ parent before after, l.parent other = some parent →
    l.children parent = before ++ other :: after → next.children parent = before ++ node :: after
  last : next.children node = l.children node ++ [other]
  kept : ∀ n, n ≠ node → l.parent other ≠ some n → next.children n = l.children n
  below : ∀ x above below, l.Way x (above ++ other :: below) →
    next.Way x (above ++ node :: other :: below)
  along : ∀ x above below, l.Way other (above ++ [other]) → l.Way x (node :: below) →
    next.Way x (above ++ node :: below)
  others : ∀ x way, node ∉ way → other ∉ way → l.Way x way → next.Way x way

/-- A node has changed places with its parent, which takes over the children of the node and is
left as its only child. -/
structure Exchanged (l next : Links) (node parent grandparent : NodeId) : Prop where
  place : ∀ before after, l.children grandparent = before ++ parent :: after →
    next.children grandparent = before ++ node :: after
  only : next.children node = [parent]
  heirs : ∀ before after, l.children parent = before ++ node :: after →
    next.children parent = before ++ after ++ l.children node
  kept : ∀ n, n ≠ node → n ≠ parent → n ≠ grandparent → next.children n = l.children n
  lifted : ∀ above, l.Way node (above ++ [parent, node]) → next.Way node (above ++ [node])
  below : ∀ x above below, below ≠ [] → l.Way x (above ++ parent :: node :: below) →
    next.Way x (above ++ node :: parent :: below)
  beside : ∀ x above below, node ∉ below → l.Way x (above ++ parent :: below) →
    next.Way x (above ++ node :: parent :: below)
  others : ∀ x way, parent ∉ way → l.Way x way → next.Way x way

/-- What an operation changes about the ways through a pipeline. -/
def Surgery.Reroutes (p next : Pipeline) : Surgery → Prop
  | create _ parent => HungUp p.links next.links p.nodes.length parent
  | remove node => TakenOut p.links next.links node
  | insert node other => PutAbove p.links next.links node other
  | swap node => ∀ parent grandparent, p.links.parent node = some parent →
      p.links.parent parent = some grandparent →
        Exchanged p.links next.links node parent grandparent

section Effects

variable {l : Links} {node other parent grandparent : NodeId}

theorem replaced_of_parent (hl : l.Forest) {old : NodeId} {new before after : List NodeId}
    (hsplit : l.children parent = before ++ old :: after) :
    l.replaced old new parent = before ++ new ++ after := by
  have hnodup := hl.nodup parent
  rw [hsplit, List.nodup_middle, List.nodup_cons, List.mem_append, not_or] at hnodup
  exact replaced_of_split hsplit hnodup.1.1 hnodup.1.2

theorem replaced_of_parent_ne (hl : l.Forest) {old n : NodeId} {new : List NodeId}
    (h : l.parent old ≠ some n) : l.replaced old new n = l.children n :=
  replaced_of_notMem fun hmem ↦ h (hl.mem_children_iff.1 hmem)

theorem hungUp_attached {up : Option NodeId} (hl : l.Forest)
    (hapart : ∀ p, up = some p → ¬ l.Reaches node p) : HungUp l (l.attached node up) node up where
  root hup := by
    refine .root ?_
    rw [attached_parent, if_pos rfl, hup]
  child parent above hup h := by
    have hway : node ∉ above := fun hmem ↦ hapart parent hup ((hl.mem_way_iff h).1 hmem)
    refine .child ?_ (h.attached hway up)
    rw [attached_parent, if_pos rfl, hup]
  last parent hup := by rw [attached_children, if_pos hup]
  kept n hup := by rw [attached_children, if_neg hup]
  others x way hway h := h.attached hway up

theorem filter_ne_of_notMem {way : List NodeId} (h : node ∉ way) :
    way.filter (· ≠ node) = way :=
  List.filter_eq_self.2 fun _ hc ↦ decide_eq_true fun heq ↦ h (heq ▸ hc)

theorem takenOut_removed (hl : l.Forest) (hp : l.parent node = some parent)
    (hfinite : ∀ n, ∃ order, l.DepthFirst [n] order) : TakenOut l (l.removed node) node where
  alone := .root (by rw [removed_parent, if_pos rfl])
  bare := by rw [removed_children, if_pos rfl]
  below x above below hx h := by
    have hnodup := hl.nodup_way h
    rw [List.nodup_middle, List.nodup_cons, List.mem_append, not_or] at hnodup
    have hkept : (above ++ node :: below).filter (· ≠ node) = above ++ below := by
      rw [List.filter_append, List.filter_cons_of_neg (by simp), filter_ne_of_notMem hnodup.1.1,
        filter_ne_of_notMem hnodup.1.2]
    have hway := h.removed hp (hl.parent_ne hp)
    rwa [if_neg hx, hkept] at hway
  others x way hway h := by
    have hx : x ≠ node := fun hx ↦ hway ((hl.mem_way_iff h).2 (hx ▸ .refl))
    have hnew := h.removed hp (hl.parent_ne hp)
    rwa [if_neg hx, filter_ne_of_notMem hway] at hnew
  order n hn := by
    refine ⟨hfinite n, fun order h ↦ ?_⟩
    have hnew : (l.removed node).DepthFirst _ (order.filter (· ≠ node)) := h.removed hl
    simpa [hn] using hnew

theorem putAbove_inserted (hl : l.Forest) (hp : l.parent other = some parent)
    (hn : l.parent node = none) (hapart : ¬ l.Reaches node other) :
    PutAbove l (l.inserted node other) node other := by
  have hnp : parent ≠ node := fun h ↦
    hapart (h ▸ Relation.ReflTransGen.single (hl.mem_children_iff.2 hp))
  constructor
  case place =>
    intro q before after hq hsplit
    obtain rfl := Option.some.inj (hp.symm.trans hq)
    rw [inserted_children, if_neg hnp, replaced_of_parent hl hsplit, List.append_assoc,
      List.singleton_append]
  case last => rw [inserted_children, if_pos rfl]
  case kept =>
    intro n hnode hparent
    rw [inserted_children, if_neg hnode, replaced_of_parent_ne hl hparent]
  case below =>
    intro x above below h
    obtain ⟨hnode, hother⟩ := hl.notMem_above hapart h
    have hnodup := hl.nodup_way h
    rw [List.nodup_middle, List.nodup_cons, List.mem_append, not_or] at hnodup
    have hway : node ∉ above ++ other :: below := by
      have hne : node ≠ other := fun h ↦ hapart (h ▸ .refl)
      simp [hnode, hne, h.notMem_below_of_root hn]
    have hnew := h.inserted hp hway
    rwa [List.flatMap_append, List.flatMap_cons, if_pos rfl, flatMap_of_notMem hother,
      flatMap_of_notMem hnodup.1.2] at hnew
  case along =>
    intro x above below hother h
    obtain ⟨hnode, hfresh⟩ := hl.notMem_above hapart hother
    obtain ⟨above', hup, heq⟩ := hother.of_child hp
    obtain ⟨rfl, -⟩ := List.append_inj' heq rfl
    have hnew := hup.inserted hp hnode
    rw [flatMap_of_notMem hfresh] at hnew
    exact .inserted_along hl hp hn hapart hnew h ((hl.mem_way_iff h).1 List.mem_cons_self)
  case others =>
    intro x way hway hother h
    have hnew := h.inserted hp hway
    rwa [flatMap_of_notMem hother] at hnew

theorem exchanged_swapped (hl : l.Forest) (hp : l.parent node = some parent)
    (hg : l.parent parent = some grandparent) :
    Exchanged l (l.swapped node parent) node parent grandparent := by
  have hpn : parent ≠ node := hl.parent_ne hp
  have hgp : grandparent ≠ parent := hl.parent_ne hg
  have hgn : grandparent ≠ node := hl.grandparent_ne hp hg
  have hapart : ¬ l.Reaches node parent := hl.not_reaches_parent hp
  constructor
  case place =>
    intro before after hsplit
    rw [swapped_children, if_neg hgn, if_neg hgp, replaced_of_parent hl hsplit, List.append_assoc,
      List.singleton_append]
  case only => rw [swapped_children, if_pos rfl]
  case heirs =>
    intro before after hsplit
    rw [swapped_children, if_neg hpn, if_pos rfl, replaced_of_parent hl hsplit, List.append_nil]
  case kept =>
    intro n hn hnp hng
    rw [swapped_children, if_neg hn, if_neg hnp, replaced_of_parent_ne hl]
    exact fun h ↦ hng (Option.some.inj (h.symm.trans hg))
  case lifted =>
    intro above h
    obtain ⟨above', hup, heq⟩ := h.of_child hp
    obtain ⟨rfl, -⟩ : above ++ [parent] = above' ∧ _ := List.append_inj' (by simpa using heq) rfl
    obtain ⟨hnode, hparent⟩ := hl.notMem_above hapart hup
    obtain ⟨above', htop, heq⟩ := hup.of_child hg
    obtain ⟨rfl, -⟩ := List.append_inj' heq rfl
    have hnew := htop.swapped hp hg hpn hgn
    rw [if_neg hgn, flatMap_exchanged hnode hparent] at hnew
    refine .child ?_ hnew
    rw [swapped_parent, if_pos rfl, hg]
  case below =>
    intro x above below hbelow h
    obtain ⟨hnode, hparent⟩ := hl.notMem_above hapart h
    have hxn : x ≠ node := by
      rintro rfl
      have hself : above ++ parent :: x :: below = above ++ [parent] ++ x :: below := by simp
      have hend := h.unique (hself ▸ h).of_append
      simp [hbelow] at hend
    have hnodup := hl.nodup_way h
    simp only [List.nodup_append, List.nodup_cons, List.mem_cons, not_or] at hnodup
    have hnew := h.swapped hp hg hpn hgn
    rw [if_neg hxn, List.flatMap_append, List.flatMap_cons, List.flatMap_cons,
      flatMap_exchanged hnode hparent,
      flatMap_exchanged hnodup.2.1.2.1 hnodup.2.1.1.2] at hnew
    simpa [exchanged, hpn] using hnew
  case beside =>
    intro x above below hbelow h
    obtain ⟨hnode, hparent⟩ := hl.notMem_above hapart h
    have hway : node ∉ above ++ parent :: below := by simp [hnode, hbelow, hpn.symm]
    have hxn : x ≠ node := fun hxn ↦ hway (hxn ▸ (hl.mem_way_iff h).2 .refl)
    have hnodup := hl.nodup_way h
    rw [List.nodup_append, List.nodup_cons] at hnodup
    have hnew := h.swapped hp hg hpn hgn
    rw [if_neg hxn, List.flatMap_append, List.flatMap_cons, flatMap_exchanged hnode hparent,
      flatMap_exchanged hbelow hnodup.2.1.1] at hnew
    simpa [exchanged, hpn] using hnew
  case others =>
    intro x way hway h
    have hx : ¬ l.Reaches parent x := fun hreach ↦ hway ((hl.mem_way_iff h).2 hreach)
    have hnode : node ∉ way := by
      intro hmem
      exact hx (.head (hl.mem_children_iff.2 hp) ((hl.mem_way_iff h).1 hmem))
    have hxn : x ≠ node := fun hxn ↦ hnode (hxn ▸ (hl.mem_way_iff h).2 .refl)
    have hnew := h.swapped hp hg hpn hgn
    rwa [if_neg hxn, flatMap_exchanged hnode hway] at hnew

end Effects

variable {p : Pipeline} {op : Surgery} {n : NodeId} {way : List NodeId}

/-- Only nodes that were made stand on a way of more than one node. -/
theorem WellFormed.length_way_le (hp : p.WellFormed) (h : p.links.Way n way)
    (hn : n < p.nodes.length) : way.length ≤ p.nodes.length := by
  have hmade : ∀ m ∈ way, m ∈ List.range p.nodes.length := by
    intro m hm
    rw [List.mem_range]
    obtain rfl | ⟨c, hc, -⟩ := Relation.ReflTransGen.cases_head ((hp.forest.mem_way_iff h).1 hm)
    · exact hn
    · exact (hp.parent_lt (hp.forest.mem_children_iff.1 hc)).2
  have hlength := (hp.forest.nodup_way h).length_le_of_subset hmade
  rwa [List.length_range] at hlength

theorem WellFormed.exists_depthFirst (hp : p.WellFormed) (n : NodeId) :
    ∃ order, p.links.DepthFirst [n] order := by
  obtain ⟨way, h⟩ := hp.forest.exists_way n
  -- On how much longer the way could still become.
  induction hk : p.nodes.length - way.length using Nat.strongRecOn generalizing n way with
  | ind k ih =>
      have hchildren : ∀ c ∈ p.links.children n, ∃ order, p.links.DepthFirst [c] order := by
        intro c hc
        have hparent := hp.forest.mem_children_iff.1 hc
        have hway := Way.child hparent h
        have hlength := hp.length_way_le hway (hp.parent_lt hparent).1
        rw [List.length_append, List.length_singleton] at hlength
        refine ih _ ?_ c _ hway rfl
        rw [List.length_append, List.length_singleton]
        omega
      obtain ⟨order, horder⟩ := exists_depthFirst_of_forall hchildren
      exact ⟨n :: order, .visit (by rwa [List.append_nil])⟩

/-- Each node is on one way alone. An operation is refused by its own guard and changes nothing, or
it goes through and changes just the ways that lead through the nodes in question. -/
theorem Surgery.reroutes_of_allowed (hp : p.WellFormed) (hallowed : op.Allowed p) :
    (∀ x, ∃! way, p.links.Way x way) ∧
      (∀ reason, op.refusal? p = some reason →
        runOn op.perform p = (.error (.invariant reason), p)) ∧
      (op.refusal? p = none →
        ∃ next, runOn op.perform p = (.ok (), next) ∧ op.Reroutes p next) := by
  have hforest := hp.forest
  refine ⟨fun x ↦ ?_, fun reason ↦ runOn_perform_of_refusal, fun hgoes ↦ ?_⟩
  · obtain ⟨way, hway⟩ := hforest.exists_way x
    exact ⟨way, hway, fun way' hway' ↦ hway'.unique hway⟩
  refine ⟨op.result p, runOn_perform_of_allowed hp hallowed hgoes, ?_⟩
  cases op with
  | create node parent => exact hungUp_attached hforest (not_reaches_of_create hp hallowed)
  | remove node =>
      obtain ⟨parent, hparent⟩ := refusal?_remove_eq_none.1 hgoes
      exact takenOut_removed hforest hparent hp.exists_depthFirst
  | swap node =>
      intro parent grandparent hparent hgrand
      rw [result, hparent]
      exact exchanged_swapped hforest hparent hgrand
  | insert node other =>
      obtain ⟨parent, hparent⟩ := refusal?_insert_eq_none.1 hgoes
      exact putAbove_inserted hforest hparent hallowed.2.2.1 (not_reaches_of_insert hallowed)

/-- A root, below it a node with two children, and one more below the first of these. Beside them a
root with one child. -/
def branched : Pipeline :=
  [none, some 0, some 1, some 1, some 2, none, some 5].foldl
    (fun p parent ↦ (Surgery.create ⟨.plain, none⟩ parent).result p) .empty

theorem WellFormed.branched : branched.WellFormed := by
  have hstep {p : Pipeline} (hp : p.WellFormed) (parent : Option NodeId)
      (hparent : ∀ n ∈ parent, n < p.nodes.length) :
      ((Surgery.create ⟨.plain, none⟩ parent).result p).WellFormed :=
    Surgery.wellFormed_result hp hparent rfl
  have hone := hstep .empty none (by simp)
  have htwo := hstep hone (some 0) (by decide)
  have hthree := hstep htwo (some 1) (by decide)
  have hfour := hstep hthree (some 1) (by decide)
  have hfive := hstep hfour (some 2) (by decide)
  have hsix := hstep hfive none (by simp)
  exact hstep hsix (some 5) (by decide)

/-- A node is taken out, changes places with its parent, or comes below the other root. No root is
taken out. -/
theorem Surgery.reroutes_of_allowed_branched :
    branched.WellFormed ∧ branched.links.Way 4 [0, 1, 2, 4] ∧ branched.links.Way 3 [0, 1, 3] ∧
    branched.links.Way 6 [5, 6] ∧ branched.links.DepthFirst [0] [0, 1, 2, 4, 3] ∧
    ((remove 2).Allowed branched ∧ ∃ next, runOn (remove 2).perform branched = (.ok (), next) ∧
      next.links.Way 4 [0, 1, 4] ∧ next.links.Way 3 [0, 1, 3] ∧
      next.links.DepthFirst [0] [0, 1, 4, 3]) ∧
    ((swap 2).Allowed branched ∧ ∃ next, runOn (swap 2).perform branched = (.ok (), next) ∧
      next.links.children 0 = [2] ∧ next.links.children 2 = [1] ∧
      next.links.children 1 = [3, 4] ∧ next.links.Way 4 [0, 2, 1, 4] ∧
      next.links.Way 3 [0, 2, 1, 3]) ∧
    ((insert 5 2).Allowed branched ∧ ∃ next, runOn (insert 5 2).perform branched = (.ok (), next) ∧
      next.links.children 1 = [5, 3] ∧ next.links.children 5 = [6, 2] ∧
      next.links.Way 4 [0, 1, 5, 2, 4] ∧ next.links.Way 6 [0, 1, 5, 6] ∧
      next.links.Way 3 [0, 1, 3]) ∧
    runOn (remove 0).perform branched = (.error (.invariant .removeRoot), branched) := by
  have hone : branched.links.Way 1 [0, 1] := .child rfl (.root rfl)
  have htwo : branched.links.Way 2 [0, 1, 2] := .child rfl hone
  have hfour : branched.links.Way 4 [0, 1, 2, 4] := .child rfl htwo
  have hthree : branched.links.Way 3 [0, 1, 3] := .child rfl hone
  have hsix : branched.links.Way 6 [5, 6] := .child rfl (.root rfl)
  have horder : branched.links.DepthFirst [0] [0, 1, 2, 4, 3] :=
    .visit (.visit (.visit (.visit (.visit .done))))
  have hremove : (remove 2).Allowed branched := show 2 < 7 by decide
  have hswap : (swap 2).Allowed branched := show 2 < 7 by decide
  have hinsert : (insert 5 2).Allowed branched := by
    refine ⟨show 5 < 7 by decide, show 2 < 7 by decide, rfl, fun n hroot hreach ↦ ?_⟩
    obtain rfl := (WellFormed.branched.forest.reaches_root_iff rfl).1 hroot
    exact absurd ((WellFormed.branched.forest.mem_way_iff htwo).2 hreach) (by decide)
  obtain ⟨-, -, hremoves⟩ := reroutes_of_allowed .branched hremove
  obtain ⟨cut, hcut, htaken⟩ := hremoves rfl
  have htaken : TakenOut branched.links cut.links 2 := htaken
  obtain ⟨-, -, hswaps⟩ := reroutes_of_allowed .branched hswap
  obtain ⟨turned, hturned, hchanged⟩ := hswaps rfl
  have hexchanged : Exchanged branched.links turned.links 2 1 0 := hchanged 1 0 rfl rfl
  obtain ⟨-, -, hinserts⟩ := reroutes_of_allowed .branched hinsert
  obtain ⟨joined, hjoined, habove⟩ := hinserts rfl
  have habove : PutAbove branched.links joined.links 5 2 := habove
  have hroot : (remove 0).Allowed branched := show 0 < 7 by decide
  obtain ⟨-, hrefused, -⟩ := reroutes_of_allowed .branched hroot
  refine ⟨.branched, hfour, hthree, hsix, horder, ⟨hremove, cut, hcut, ?_⟩,
    ⟨hswap, turned, hturned, ?_⟩, ⟨hinsert, joined, hjoined, ?_⟩, hrefused _ rfl⟩
  · exact ⟨htaken.below 4 [0, 1] [4] (by decide) hfour, htaken.others 3 _ (by decide) hthree,
      (htaken.order 0 (by decide)).2 _ horder⟩
  · exact ⟨hexchanged.place [] [] rfl, hexchanged.only, hexchanged.heirs [] [3] rfl,
      hexchanged.below 4 [0] [4] (by decide) hfour, hexchanged.beside 3 [0] [3] (by decide) hthree⟩
  · exact ⟨habove.place 1 [] [3] rfl rfl, habove.last, habove.below 4 [0, 1] [4] hfour,
      habove.along 6 [0, 1] [6] htwo hsix, habove.others 3 _ (by decide) (by decide) hthree⟩

end ChartLowering.Pipeline
