import ChartLowering.Proofs.Pipeline.Rewiring
import Mathlib.Logic.Relation
import Mathlib.Data.List.Basic

/-!
# Forests of nodes

Links form a forest if parents and children agree, no node stands twice under its parent, and going
from parent to parent comes to an end. Here stand the links that each operation leaves in a forest;
they form a forest again, and from a root they reach the nodes that they should.
-/

namespace ChartLowering.Pipeline.Links

/-- Going from parent to parent comes to an end. -/
inductive Rooted (l : Links) : NodeId → Prop
  | root {n : NodeId} (h : l.parent n = .none) : Rooted l n
  | child {n p : NodeId} (h : l.parent n = some p) (hp : Rooted l p) : Rooted l n

structure Forest (l : Links) : Prop where
  mem_children_iff : ∀ {n c}, c ∈ l.children n ↔ l.parent c = some n
  nodup : ∀ n, (l.children n).Nodup
  rooted : ∀ n, l.Rooted n

/-- A node is reached from itself and from where its parent is reached. -/
def Reaches (l : Links) : NodeId → NodeId → Prop :=
  Relation.ReflTransGen fun n c ↦ c ∈ l.children n

namespace Forest

variable {l : Links}

theorem none : Links.none.Forest where
  mem_children_iff := by simp [Links.none]
  nodup _ := List.nodup_nil
  rooted _ := .root rfl

/-- Induction along the way to the root, for which parent and grandparent may be used. -/
theorem induct (hl : l.Forest) {P : NodeId → Prop}
    (step : ∀ x, (∀ p, l.parent x = some p → P p ∧ ∀ g, l.parent p = some g → P g) → P x)
    (x : NodeId) : P x := by
  have both : P x ∧ ∀ p, l.parent x = some p → P p := by
    induction hl.rooted x with
    | root h => exact ⟨step _ (by simp [h]), by simp [h]⟩
    | @child n p h _ ih =>
        refine ⟨step _ ?_, ?_⟩
        · intro q hq
          obtain rfl : p = q := Option.some.inj (h.symm.trans hq)
          exact ih
        · intro q hq
          obtain rfl : p = q := Option.some.inj (h.symm.trans hq)
          exact ih.1
  exact both.1

theorem parent_ne (hl : l.Forest) {n p : NodeId} (h : l.parent n = some p) : p ≠ n := by
  have never : l.parent n ≠ some n := by
    refine hl.induct (P := fun x ↦ l.parent x ≠ some x) ?_ n
    intro x ih hx
    exact (ih x hx).1 hx
  rintro rfl
  exact never h

theorem grandparent_ne (hl : l.Forest) {n p g : NodeId} (hp : l.parent n = some p)
    (hg : l.parent p = some g) : g ≠ n := by
  have never : ∀ q, l.parent n = some q → l.parent q ≠ some n := by
    refine hl.induct (P := fun x ↦ ∀ q, l.parent x = some q → l.parent q ≠ some x) ?_ n
    intro x ih q hq hx
    exact (ih q hq).1 x hx hq
  rintro rfl
  exact never p hp hg

theorem exists_split (hl : l.Forest) {n p : NodeId} (h : l.parent n = some p) :
    ∃ before after, l.children p = before ++ n :: after ∧ n ∉ before ∧ n ∉ after := by
  obtain ⟨before, after, hsplit⟩ := List.append_of_mem (hl.mem_children_iff.2 h)
  have hnodup := hl.nodup p
  rw [hsplit, List.nodup_append, List.nodup_cons] at hnodup
  refine ⟨before, after, hsplit, ?_, hnodup.2.1.1⟩
  intro hn
  exact hnodup.2.2 n hn n List.mem_cons_self rfl

theorem reaches_iff (hl : l.Forest) {r x : NodeId} :
    l.Reaches r x ↔ x = r ∨ ∃ p, l.parent x = some p ∧ l.Reaches r p := by
  constructor
  · intro h
    obtain rfl | ⟨p, hp, hx⟩ := Relation.ReflTransGen.cases_tail h
    · exact .inl rfl
    · exact .inr ⟨p, hl.mem_children_iff.1 hx, hp⟩
  · rintro (rfl | ⟨p, hx, hp⟩)
    · exact .refl
    · exact hp.tail (hl.mem_children_iff.2 hx)

theorem reaches_root_iff (hl : l.Forest) {r x : NodeId} (hx : l.parent x = .none) :
    l.Reaches r x ↔ x = r := by
  rw [hl.reaches_iff, hx]
  simp

end Forest

/-- The children of a node with some nodes in the place of one of them. -/
def replaced (l : Links) (old : NodeId) (new : List NodeId) (n : NodeId) : List NodeId :=
  (l.children n).flatMap fun c ↦ if c = old then new else [c]

/-- The links without a node, whose children stand in its place. -/
def removed (l : Links) (node : NodeId) : Links where
  parent n :=
    if n = node then .none else if l.parent n = some node then l.parent node else l.parent n
  children n := if n = node then [] else l.replaced node (l.children node) n

/-- The links with a node above another one, which comes last among the children of the node. -/
def inserted (l : Links) (node other : NodeId) : Links where
  parent n := if n = node then l.parent other else if n = other then some node else l.parent n
  children n :=
    if n = node then l.children node ++ [other] else l.replaced other [node] n

/-- The links with a node above its parent, which takes over the children of the node. -/
def swapped (l : Links) (node parent : NodeId) : Links where
  parent n :=
    if n = node then l.parent parent
    else if n = parent then some node
    else if l.parent n = some node then some parent
    else l.parent n
  children n :=
    if n = node then [parent]
    else if n = parent then l.replaced node [] parent ++ l.children node
    else l.replaced parent [node] n

/-- The links with a new node under a parent, after the children that the parent has. -/
def attached (l : Links) (node : NodeId) (parent : Option NodeId) : Links where
  parent n := if n = node then parent else l.parent n
  children n := if parent = some n then l.children n ++ [node] else l.children n

theorem removed_parent (l : Links) (node n : NodeId) :
    (l.removed node).parent n =
      if n = node then .none
      else if l.parent n = some node then l.parent node
      else l.parent n := rfl

theorem removed_children (l : Links) (node n : NodeId) :
    (l.removed node).children n =
      if n = node then [] else l.replaced node (l.children node) n := rfl

theorem inserted_parent (l : Links) (node other n : NodeId) :
    (l.inserted node other).parent n =
      if n = node then l.parent other else if n = other then some node else l.parent n := rfl

theorem inserted_children (l : Links) (node other n : NodeId) :
    (l.inserted node other).children n =
      if n = node then l.children node ++ [other] else l.replaced other [node] n := rfl

theorem swapped_parent (l : Links) (node parent n : NodeId) :
    (l.swapped node parent).parent n =
      if n = node then l.parent parent
      else if n = parent then some node
      else if l.parent n = some node then some parent
      else l.parent n := rfl

theorem swapped_children (l : Links) (node parent n : NodeId) :
    (l.swapped node parent).children n =
      if n = node then [parent]
      else if n = parent then l.replaced node [] parent ++ l.children node
      else l.replaced parent [node] n := rfl

theorem attached_parent (l : Links) (node : NodeId) (parent : Option NodeId) (n : NodeId) :
    (l.attached node parent).parent n = if n = node then parent else l.parent n := rfl

theorem attached_children (l : Links) (node : NodeId) (parent : Option NodeId) (n : NodeId) :
    (l.attached node parent).children n =
      if parent = some n then l.children n ++ [node] else l.children n := rfl

section Replaced

variable {l : Links} {old : NodeId} {new : List NodeId} {n : NodeId}

theorem flatMap_of_notMem {cs : List NodeId} (h : old ∉ cs) :
    (cs.flatMap fun c ↦ if c = old then new else [c]) = cs := by
  induction cs with
  | nil => rfl
  | cons c cs ih =>
      rw [List.mem_cons, not_or] at h
      rw [List.flatMap_cons, if_neg (Ne.symm h.1), ih h.2, List.singleton_append]

theorem replaced_of_notMem (h : old ∉ l.children n) : l.replaced old new n = l.children n :=
  flatMap_of_notMem h

theorem replaced_of_split {before after : List NodeId}
    (hsplit : l.children n = before ++ old :: after) (hb : old ∉ before) (ha : old ∉ after) :
    l.replaced old new n = before ++ new ++ after := by
  rw [replaced, hsplit, List.flatMap_append, List.flatMap_cons, if_pos rfl,
    flatMap_of_notMem hb, flatMap_of_notMem ha, List.append_assoc]

theorem mem_replaced {c : NodeId} :
    c ∈ l.replaced old new n ↔
      c ≠ old ∧ c ∈ l.children n ∨ old ∈ l.children n ∧ c ∈ new := by
  simp only [replaced, List.mem_flatMap]
  constructor
  · rintro ⟨d, hd, hc⟩
    by_cases h : d = old
    · rw [if_pos h] at hc
      exact .inr ⟨h ▸ hd, hc⟩
    · rw [if_neg h, List.mem_singleton] at hc
      subst hc
      exact .inl ⟨h, hd⟩
  · rintro (⟨h, hc⟩ | ⟨h, hc⟩)
    · exact ⟨c, hc, by simp [h]⟩
    · exact ⟨old, h, by simpa using hc⟩

theorem Forest.nodup_replaced (hl : l.Forest) (hnew : new.Nodup)
    (hfresh : ∀ c ∈ new, c ∉ l.children n) : (l.replaced old new n).Nodup := by
  by_cases h : old ∈ l.children n
  · obtain ⟨before, after, hsplit, hb, ha⟩ := hl.exists_split (hl.mem_children_iff.1 h)
    have hnodup := hl.nodup n
    rw [hsplit] at hnodup hfresh
    rw [replaced_of_split hsplit hb ha]
    simp only [List.nodup_append, List.nodup_cons, List.mem_append, List.mem_cons] at *
    grind
  · rw [replaced_of_notMem h]
    exact hl.nodup n

end Replaced

end ChartLowering.Pipeline.Links
