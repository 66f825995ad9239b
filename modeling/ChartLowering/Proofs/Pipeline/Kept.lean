import ChartLowering.Proofs.Pipeline.Rewiring
import Mathlib.Data.List.Basic

/-!
# What every operation keeps

Operations of any kind, also those that break off, leave links in which no node stands twice under
another one and all nodes have been made, though parents and children need not agree.
-/

namespace ChartLowering.Pipeline

open Links hiding none

variable {σ α β : Type}

/-- A change that a property of the state survives, whether the change goes through or not. -/
def Keeps (P : σ → Prop) (change : ExceptT Fault (StateM σ) α) : Prop :=
  ∀ s, P s → P (runOn change s).2

theorem runOn_bind_of_error {change : ExceptT Fault (StateM σ) α} {s next : σ} {fault : Fault}
    (h : runOn change s = (.error fault, next)) (f : α → ExceptT Fault (StateM σ) β) :
    runOn (change >>= f) s = (.error fault, next) := by
  rw [runOn_bind, h]

namespace Keeps

variable {P : σ → Prop} {change : ExceptT Fault (StateM σ) α}

theorem pure (a : α) : Keeps P (Pure.pure a : ExceptT Fault (StateM σ) α) := fun _ h ↦ h

theorem update {f : σ → σ} (h : ∀ s, P s → P (f s)) :
    Keeps P (modify f : ExceptT Fault (StateM σ) Unit) := h

theorem bind {f : α → ExceptT Fault (StateM σ) β} (h : Keeps P change) (hf : ∀ a, Keeps P (f a)) :
    Keeps P (change >>= f) := by
  intro s hs
  have hfirst := h s hs
  rw [runOn_bind]
  cases hrun : runOn change s with
  | mk outcome next =>
      rw [hrun] at hfirst
      cases outcome with
      | ok a => exact hf a next hfirst
      | error fault => exact hfirst

theorem get_bind {f : σ → ExceptT Fault (StateM σ) β} (hf : ∀ s, P s → P (runOn (f s) s).2) :
    Keeps P (get >>= f) := by
  intro s hs
  rw [runOn_get_bind]
  exact hf s hs

end Keeps

/-- Links between the first so many nodes, none of which stands twice under another one. -/
structure Links.Tidy (size : Nat) (l : Links) : Prop where
  nodup : ∀ n, (l.children n).Nodup
  child_lt : ∀ n, ∀ c ∈ l.children n, c < size
  parent_lt : ∀ n, ∀ p ∈ l.parent n, p < size

section Tidy

variable {size : Nat} {l : Links} {node child parent other : NodeId}

theorem Links.Tidy.withParent {up : Option NodeId} (hl : l.Tidy size) (hup : ∀ p ∈ up, p < size) :
    (l.withParent node up).Tidy size where
  nodup := hl.nodup
  child_lt := hl.child_lt
  parent_lt n := by
    by_cases hn : n = node
    · subst hn
      simpa using hup
    · rw [withParent_parent_of_ne _ _ hn]
      exact hl.parent_lt n

theorem Links.Tidy.withChildren {cs : List NodeId} (hl : l.Tidy size) (hnodup : cs.Nodup)
    (hcs : ∀ c ∈ cs, c < size) : (l.withChildren node cs).Tidy size where
  nodup n := by
    by_cases hn : n = node
    · subst hn
      simpa using hnodup
    · rw [withChildren_children_of_ne _ _ hn]
      exact hl.nodup n
  child_lt n := by
    by_cases hn : n = node
    · subst hn
      simpa using hcs
    · rw [withChildren_children_of_ne _ _ hn]
      exact hl.child_lt n
  parent_lt := hl.parent_lt

theorem nodup_insertAt {items : List NodeId} {place : Int} {item : NodeId} (h : items.Nodup)
    (hitem : item ∉ items) : (insertAt items place item).Nodup := by
  rw [insertAt, List.perm_middle.nodup_iff, List.take_append_drop]
  exact List.nodup_cons.2 ⟨hitem, h⟩

theorem keeps_addChild (hchild : child < size) (place : Option Int) :
    Keeps (Links.Tidy size) (addChild node child place) := by
  apply Keeps.get_bind
  intro l hl
  dsimp only
  split
  · exact hl
  · rename_i hnew
    apply hl.withChildren (nodup_insertAt (hl.nodup node) hnew)
    intro c hc
    rcases mem_insertAt.1 hc with rfl | hc
    · exact hchild
    · exact hl.child_lt node c hc

theorem keeps_removeChild : Keeps (Links.Tidy size) (removeChild node child) := by
  apply Keeps.get_bind
  intro l hl
  dsimp only
  split
  · rw [runOn_modify_bind]
    apply hl.withChildren ((hl.nodup node).erase child)
    intro c hc
    exact hl.child_lt node c (List.mem_of_mem_erase hc)
  · exact hl

theorem keeps_setParent {up : Option NodeId} (hnode : node < size) (hup : ∀ p ∈ up, p < size) :
    Keeps (Links.Tidy size) (setParent node up) := by
  refine .bind (.update fun l hl ↦ hl.withParent hup) fun _ ↦ ?_
  cases up with
  | none => exact .pure _
  | some parent => exact keeps_addChild hnode none

theorem keeps_adopt {cs : List NodeId} (hparent : parent < size) (hcs : ∀ c ∈ cs, c < size)
    (place : Option Nat) : Keeps (Links.Tidy size) (adopt parent cs place) := by
  induction cs generalizing place with
  | nil => exact .pure _
  | cons c rest ih =>
      obtain ⟨hc, hrest⟩ := List.forall_mem_cons.1 hcs
      refine .bind (.update fun l hl ↦ hl.withParent (by simpa using hparent)) fun _ ↦ ?_
      refine .bind (keeps_addChild hc _) fun _ ↦ ?_
      exact ih hrest _

theorem keeps_remove : Keeps (Links.Tidy size) (Pipeline.remove node) := by
  apply Keeps.get_bind
  intro l hl
  cases hp : l.parent node with
  | none => exact hl
  | some parent =>
      have hparent := hl.parent_lt node parent hp
      refine Keeps.bind keeps_removeChild (fun place ↦ ?_) l hl
      apply Keeps.get_bind
      intro m hm
      refine Keeps.bind (keeps_adopt hparent (hm.child_lt node) _) (fun _ ↦ ?_) m hm
      refine .bind (.update fun l hl ↦ hl.withChildren List.nodup_nil (by simp)) fun _ ↦ ?_
      exact Keeps.update fun l hl ↦ hl.withParent (by simp)

theorem keeps_insertAbove (hnode : node < size) (hother : other < size) :
    Keeps (Links.Tidy size) (insertAbove node other) := by
  apply Keeps.get_bind
  intro l hl
  cases hp : l.parent other with
  | none => exact hl
  | some parent =>
      have hparent := hl.parent_lt other parent hp
      refine Keeps.bind keeps_removeChild (fun place ↦ ?_) l hl
      refine .bind (.update fun l hl ↦ hl.withParent (by simpa using hparent)) fun _ ↦ ?_
      refine .bind (keeps_addChild hnode _) fun _ ↦ ?_
      refine .bind (.update fun l hl ↦ hl.withParent (by simp)) fun _ ↦ ?_
      exact keeps_setParent hother (by simpa using hnode)

theorem keeps_swapWithParent (hnode : node < size) :
    Keeps (Links.Tidy size) (swapWithParent node) := by
  apply Keeps.get_bind
  intro l hl
  cases hp : l.parent node with
  | none => exact hl
  | some parent =>
      cases hg : l.parent parent with
      | none =>
          simp only [hg]
          exact hl
      | some grandparent =>
          have hparent := hl.parent_lt node parent hp
          have hgrand := hl.parent_lt parent grandparent hg
          simp only [hg]
          refine Keeps.bind (keeps_adopt hparent (hl.child_lt node) _) (fun _ ↦ ?_) l hl
          refine .bind (.update fun l hl ↦ hl.withChildren List.nodup_nil (by simp)) fun _ ↦ ?_
          refine .bind (.bind keeps_removeChild fun _ ↦ .pure _) fun _ ↦ ?_
          refine .bind keeps_removeChild fun place ↦ ?_
          refine .bind (.update fun l hl ↦ hl.withParent (by simpa using hgrand)) fun _ ↦ ?_
          refine .bind (keeps_addChild hnode _) fun _ ↦ ?_
          refine .bind (.update fun l hl ↦ hl.withParent (by simpa using hnode)) fun _ ↦ ?_
          exact keeps_addChild hparent none

end Tidy

end ChartLowering.Pipeline
