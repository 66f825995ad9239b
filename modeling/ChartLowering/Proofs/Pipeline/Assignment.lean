import ChartLowering.Proofs.Pipeline.Surgery

/-!
# Assigning a parent

A node to which a parent is assigned becomes the last child of it. The parent that the node had
before is not asked to let it go, so that only roots are moved.
-/

namespace ChartLowering.Pipeline

open Links hiding none

variable {l : Links} {node c n : NodeId} {up : Option NodeId}

theorem mem_children_attached_iff :
    c ∈ (l.attached node up).children n ↔ c ∈ l.children n ∨ up = some n ∧ c = node := by
  rw [attached_children]
  split
  · rename_i hup
    simp [hup]
  · rename_i hup
    simp [hup]

/-- Where the node has a parent already, that one still has it as a child. -/
theorem forest_attached_iff (hl : l.Forest)
    (hup : ∀ p, up = some p → l.parent node ≠ some p ∧ ¬ l.Reaches node p) :
    (l.attached node up).Forest ↔ l.parent node = none := by
  constructor
  · intro hf
    by_contra hparent
    obtain ⟨old, hold⟩ := Option.ne_none_iff_exists'.1 hparent
    have hkept : node ∈ (l.attached node up).children old :=
      mem_children_attached_iff.2 (.inl (hl.mem_children_iff.2 hold))
    rw [hf.mem_children_iff, attached_parent, if_pos rfl] at hkept
    exact (hup old hkept).1 hold
  · exact fun hroot ↦ hl.attached hroot fun p hp ↦ (hup p hp).2

/-- A parent outside of its own tree can be assigned to any node, which is then its child once. The
links form a forest again just if the node was a root, and just then no other node has it as a
child. -/
theorem setParent_moves_iff (hl : l.Forest)
    (hup : ∀ p, up = some p → l.parent node ≠ some p ∧ ¬ l.Reaches node p) :
    ∃ next, runOn (setParent node up) l = (.ok (), next) ∧ next.parent node = up ∧
      (∀ p, up = some p → (next.children p).count node = 1) ∧
      (∀ n, node ∈ next.children n ↔ up = some n ∨ l.parent node = some n) ∧
      (next.Forest ↔ l.parent node = none) ∧
      ((∀ n, node ∈ next.children n → up = some n) ↔ l.parent node = none) := by
  have hloose : ∀ p, up = some p → node ∉ l.children p :=
    fun p hp hmem ↦ (hup p hp).1 (hl.mem_children_iff.1 hmem)
  have hmem : ∀ n, node ∈ (l.attached node up).children n ↔
      up = some n ∨ l.parent node = some n := by
    intro n
    rw [mem_children_attached_iff, hl.mem_children_iff, and_iff_left rfl]
    exact or_comm
  refine ⟨l.attached node up, runOn_setParent_eq_attached hloose, ?_, ?_, hmem,
    forest_attached_iff hl hup, ?_⟩
  · rw [attached_parent, if_pos rfl]
  · intro p hp
    rw [attached_children, if_pos hp, List.count_append, List.count_eq_zero.2 (hloose p hp),
      List.count_singleton_self]
  · simp only [hmem]
    constructor
    · intro h
      by_contra hparent
      obtain ⟨old, hold⟩ := Option.ne_none_iff_exists'.1 hparent
      exact (hup old (h old (.inr hold))).1 hold
    · rintro hroot n (hn | hn)
      · exact hn
      · cases hroot.symm.trans hn

/-- Two roots, with a node below the first of them. -/
def underFirst : Links := Links.none.attached 2 (some 0)

theorem forest_underFirst : underFirst.Forest := by
  refine Forest.none.attached rfl ?_
  rintro p hp hreach
  obtain rfl := Option.some.inj hp
  rw [Forest.none.reaches_root_iff rfl] at hreach
  cases hreach

/-- A root can be moved below another one with its tree. -/
theorem setParent_moves_iff_underFirst :
    underFirst.Forest ∧ underFirst.parent 0 ≠ some 1 ∧ ¬ underFirst.Reaches 0 1 ∧
      ∃ next, runOn (setParent 0 (some 1)) underFirst = (.ok (), next) ∧ next.Forest ∧
        next.parent 0 = some 1 ∧ (next.children 1).count 0 = 1 ∧
        ∀ n, 0 ∈ next.children n → some 1 = some n := by
  have hapart : ¬ underFirst.Reaches 0 1 := by
    rw [forest_underFirst.reaches_root_iff rfl]
    decide
  have hparent : underFirst.parent 0 ≠ some 1 := by decide
  have hup : ∀ p, some 1 = some p → underFirst.parent 0 ≠ some p ∧ ¬ underFirst.Reaches 0 p := by
    rintro p hp
    obtain rfl := Option.some.inj hp
    exact ⟨hparent, hapart⟩
  obtain ⟨next, hrun, hmoved, hcount, -, hforest, hother⟩ :=
    setParent_moves_iff forest_underFirst hup
  exact ⟨forest_underFirst, hparent, hapart, next, hrun, hforest.2 rfl, hmoved, hcount 1 rfl,
    hother.2 rfl⟩

/-- A node below a root stays there when it is assigned to another one. -/
theorem not_moves_underFirst :
    underFirst.Forest ∧ underFirst.parent 2 ≠ some 1 ∧ ¬ underFirst.Reaches 2 1 ∧
      ∃ next, runOn (setParent 2 (some 1)) underFirst = (.ok (), next) ∧
        next.parent 2 = some 1 ∧ 2 ∈ next.children 0 ∧ ¬ next.Forest := by
  have hapart : ¬ underFirst.Reaches 2 1 := by
    rw [forest_underFirst.reaches_root_iff rfl]
    decide
  obtain ⟨next, hrun, hup, hkept⟩ : ∃ next,
      runOn (setParent 2 (some 1)) underFirst = (.ok (), next) ∧ next.parent 2 = some 1 ∧
        2 ∈ next.children 0 := ⟨_, rfl, rfl, by decide⟩
  refine ⟨forest_underFirst, by decide, hapart, next, hrun, hup, hkept, fun hforest ↦ ?_⟩
  have hparent := hforest.mem_children_iff.1 hkept
  rw [hup] at hparent
  cases hparent

end ChartLowering.Pipeline
