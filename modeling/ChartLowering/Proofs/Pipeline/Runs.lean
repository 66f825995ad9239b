import ChartLowering.Pipeline.Node
import ChartLowering.Proofs.Pipeline.Surgery

/-!
# Runs of operations on a pipeline

A run goes on after an operation that fails. Each of its moments tells the pipeline before and after
an operation and what came of it.
-/

namespace ChartLowering.Pipeline

open Links hiding none

variable {α : Type} {p : Pipeline}

/-- The links are a forest, and only nodes that were made hang somewhere. -/
structure WellFormed (p : Pipeline) : Prop where
  forest : p.links.Forest
  parent_lt : ∀ {n parent}, p.links.parent n = some parent →
    n < p.nodes.length ∧ parent < p.nodes.length

theorem WellFormed.empty : Pipeline.empty.WellFormed where
  forest := Links.Forest.none
  parent_lt h := by cases h

namespace WellFormed

theorem parent_length (hp : p.WellFormed) : p.links.parent p.nodes.length = none := by
  cases h : p.links.parent p.nodes.length with
  | none => rfl
  | some q => exact absurd (hp.parent_lt h).1 (Nat.lt_irrefl _)

theorem reaches_length_iff (hp : p.WellFormed) {n : NodeId} :
    p.links.Reaches p.nodes.length n ↔ n = p.nodes.length := by
  constructor
  · intro h
    obtain rfl | ⟨c, hc, -⟩ := Relation.ReflTransGen.cases_head h
    · rfl
    · exact absurd (hp.parent_lt (hp.forest.mem_children_iff.1 hc)).2 (Nat.lt_irrefl _)
  · rintro rfl
    exact .refl

end WellFormed

/-- The operations that are sure to keep a pipeline in order. -/
inductive Surgery where
  | create (node : Node) (parent : Option NodeId)
  | remove (node : NodeId)
  | swap (node : NodeId)
  | insert (node other : NodeId)

namespace Surgery

def perform : Surgery → Edit Unit
  | create node parent => discard (add node parent)
  | remove node => rewire (Pipeline.remove node)
  | swap node => rewire (swapWithParent node)
  | insert node other => rewire (insertAbove node other)

/-- An operation is for nodes that were made, and only a root of another tree is inserted. -/
def Allowed (p : Pipeline) : Surgery → Prop
  | create _ parent => ∀ n ∈ parent, n < p.nodes.length
  | remove node => node < p.nodes.length
  | swap node => node < p.nodes.length
  | insert node other =>
      node < p.nodes.length ∧ other < p.nodes.length ∧ p.links.parent node = none ∧
        ∀ n, p.links.Reaches n node → ¬ p.links.Reaches n other

/-- What the guard of an operation says if it does not let it through. -/
def refusal? (p : Pipeline) : Surgery → Option Reason
  | create .. => none
  | remove node => if p.links.parent node = none then some .removeRoot else none
  | swap node =>
      if (p.links.parent node).bind p.links.parent = none then some .swapWithoutGrandparent
      else none
  | insert _ other => if p.links.parent other = none then some .insertAboveRoot else none

/-- What a root reaches after an operation that went through. -/
def Reached (p : Pipeline) (root x : NodeId) : Surgery → Prop
  | create _ parent =>
      p.links.Reaches root x ∨ (∃ n ∈ parent, p.links.Reaches root n) ∧ x = p.nodes.length
  | remove node => p.links.Reaches root x ∧ x ≠ node
  | swap _ => p.links.Reaches root x
  | insert node other =>
      p.links.Reaches root x ∨ p.links.Reaches root other ∧ p.links.Reaches node x

/-- The node that leads to no other one after an operation: the new one, or the one taken out. -/
def alone? (p : Pipeline) : Surgery → Option NodeId
  | create .. => p.nodes.length
  | remove node => node
  | _ => none

/-- The pipeline that an operation leaves if it goes through. -/
def result (p : Pipeline) : Surgery → Pipeline
  | create node parent => ⟨p.nodes ++ [node], p.links.attached p.nodes.length parent⟩
  | remove node => { p with links := p.links.removed node }
  | swap node => { p with links := (p.links.parent node).elim p.links (p.links.swapped node) }
  | insert node other => { p with links := p.links.inserted node other }

end Surgery

theorem runOn_rewire (change : Rewiring α) (p : Pipeline) :
    runOn (rewire change) p =
      ((runOn change p.links).1, { p with links := (runOn change p.links).2 }) := by
  rw [rewire, runOn_get_bind]
  cases h : runOn change p.links with
  | mk outcome next =>
      have hset : runOn (set { p with links := next } : Edit PUnit) p =
        (.ok (), { p with links := next }) := rfl
      rw [runOn] at h
      simp only [h]
      rw [runOn_bind_of_ok hset]
      cases outcome <;> rfl

theorem runOn_add (hp : p.WellFormed) (node : Node) (parent : Option NodeId) :
    runOn (add node parent) p =
      (.ok p.nodes.length, Surgery.result p (.create node parent)) := by
  have hloose : ∀ q, parent = some q → p.nodes.length ∉ p.links.children q := by
    simp [hp.forest.mem_children_iff, hp.parent_length]
  have hset := runOn_setParent_eq_attached hloose
  rw [add, runOn_get_bind, runOn_modify_bind]
  refine runOn_bind_of_ok (a := ()) ?_ _
  rw [runOn_rewire, hset]
  rfl

namespace Surgery

variable {op : Surgery}

theorem runOn_perform_of_refusal {reason : Reason} (h : op.refusal? p = some reason) :
    runOn op.perform p = (.error (.invariant reason), p) := by
  cases op with
  | create => cases h
  | remove node =>
      simp only [refusal?, Option.ite_none_right_eq_some, Option.some.injEq] at h
      obtain ⟨hroot, rfl⟩ := h
      rw [perform, runOn_rewire, runOn_remove_of_root hroot]
  | swap node =>
      simp only [refusal?, Option.ite_none_right_eq_some, Option.some.injEq] at h
      obtain ⟨hroot, rfl⟩ := h
      rw [perform, runOn_rewire, runOn_swapWithParent_of_noGrandparent hroot]
  | insert node other =>
      simp only [refusal?, Option.ite_none_right_eq_some, Option.some.injEq] at h
      obtain ⟨hroot, rfl⟩ := h
      rw [perform, runOn_rewire, runOn_insertAbove_of_root hroot]

theorem refusal?_remove_eq_none {node : NodeId} :
    (remove node).refusal? p = none ↔ ∃ parent, p.links.parent node = some parent := by
  cases h : p.links.parent node <;> simp [refusal?, h]

theorem refusal?_insert_eq_none {node other : NodeId} :
    (insert node other).refusal? p = none ↔ ∃ parent, p.links.parent other = some parent := by
  cases h : p.links.parent other <;> simp [refusal?, h]

theorem refusal?_swap_eq_none {node : NodeId} :
    (swap node).refusal? p = none ↔
      ∃ parent grandparent, p.links.parent node = some parent ∧
        p.links.parent parent = some grandparent := by
  cases h : p.links.parent node with
  | none => simp [refusal?, h]
  | some parent => cases hg : p.links.parent parent <;> simp [refusal?, h, hg]

theorem not_reaches_of_create (hp : p.WellFormed) {node : Node} {parent : Option NodeId}
    (hallowed : (create node parent).Allowed p) :
    ∀ n, parent = some n → ¬ p.links.Reaches p.nodes.length n := by
  intro n hn hreach
  rw [hp.reaches_length_iff] at hreach
  exact Nat.lt_irrefl _ (hreach ▸ hallowed n hn)

theorem not_reaches_of_insert {node other : NodeId} (h : (insert node other).Allowed p) :
    ¬ p.links.Reaches node other := h.2.2.2 node .refl

variable (hp : p.WellFormed) (hallowed : op.Allowed p) (hgoes : op.refusal? p = none)

include hp hallowed hgoes

theorem runOn_perform_of_allowed : runOn op.perform p = (.ok (), op.result p) := by
  cases op with
  | create node parent => exact runOn_discard_of_ok (runOn_add hp node parent)
  | remove node =>
      obtain ⟨parent, hparent⟩ := refusal?_remove_eq_none.1 hgoes
      rw [perform, runOn_rewire, runOn_remove hp.forest hparent]
      rfl
  | swap node =>
      obtain ⟨parent, grandparent, hparent, hgrand⟩ := refusal?_swap_eq_none.1 hgoes
      rw [perform, runOn_rewire, runOn_swapWithParent hp.forest hparent hgrand, result, hparent]
      rfl
  | insert node other =>
      obtain ⟨parent, hparent⟩ := refusal?_insert_eq_none.1 hgoes
      rw [perform, runOn_rewire, runOn_insertAbove hp.forest hparent hallowed.2.2.1
        (not_reaches_of_insert hallowed)]
      rfl

theorem wellFormed_result : (op.result p).WellFormed := by
  cases op with
  | create node parent =>
      refine ⟨hp.forest.attached hp.parent_length (not_reaches_of_create hp hallowed), ?_⟩
      intro n q h
      simp only [result, attached_parent, List.length_append, List.length_singleton] at h ⊢
      split at h
      · rename_i hn
        exact ⟨hn ▸ Nat.lt_succ_self _, Nat.lt_succ_of_lt (hallowed q h)⟩
      · exact ⟨Nat.lt_succ_of_lt (hp.parent_lt h).1, Nat.lt_succ_of_lt (hp.parent_lt h).2⟩
  | remove node =>
      obtain ⟨parent, hparent⟩ := refusal?_remove_eq_none.1 hgoes
      refine ⟨hp.forest.removed hparent, ?_⟩
      intro n q h
      simp only [result, removed_parent] at h ⊢
      split at h
      · cases h
      · split at h
        · rename_i hn
          exact ⟨(hp.parent_lt hn).1, (hp.parent_lt h).2⟩
        · exact hp.parent_lt h
  | swap node =>
      obtain ⟨parent, grandparent, hparent, hgrand⟩ := refusal?_swap_eq_none.1 hgoes
      have hlt := hp.parent_lt hparent
      simp only [result, hparent, Option.elim_some]
      refine ⟨hp.forest.swapped hparent hgrand, ?_⟩
      intro n q h
      simp only [swapped_parent] at h ⊢
      split at h
      · rename_i hn
        exact ⟨hn ▸ hlt.1, (hp.parent_lt h).2⟩
      · split at h
        · rename_i hn
          obtain rfl := Option.some.inj h
          exact ⟨hn ▸ hlt.2, hlt.1⟩
        · split at h
          · rename_i hn
            obtain rfl := Option.some.inj h
            exact ⟨(hp.parent_lt hn).1, hlt.2⟩
          · exact hp.parent_lt h
  | insert node other =>
      obtain ⟨parent, hparent⟩ := refusal?_insert_eq_none.1 hgoes
      have hapart := not_reaches_of_insert hallowed
      obtain ⟨hnode, hother, hroot, -⟩ := hallowed
      refine ⟨hp.forest.inserted hparent hroot hapart, ?_⟩
      intro n q h
      simp only [result, inserted_parent] at h ⊢
      split at h
      · rename_i hn
        exact ⟨hn ▸ hnode, (hp.parent_lt h).2⟩
      · split at h
        · rename_i hn
          obtain rfl := Option.some.inj h
          exact ⟨hn ▸ hother, hnode⟩
        · exact hp.parent_lt h

theorem reaches_result_iff {root x : NodeId} (hmade : root < p.nodes.length)
    (hroot : p.links.parent root = none) (hstays : ∀ other, op ≠ insert root other) :
    (op.result p).links.Reaches root x ↔ op.Reached p root x := by
  have hforest := hp.forest
  cases op with
  | create node parent =>
      have hne : root ≠ p.nodes.length := Nat.ne_of_lt hmade
      rw [result, reaches_attached_iff hforest hp.parent_length (not_reaches_of_create hp hallowed)
        hne, hp.reaches_length_iff]
      rfl
  | remove node =>
      obtain ⟨parent, hparent⟩ := refusal?_remove_eq_none.1 hgoes
      have hne : root ≠ node := fun h ↦ by simp [h, hparent] at hroot
      exact reaches_removed_iff hforest hparent hne
  | swap node =>
      obtain ⟨parent, grandparent, hparent, hgrand⟩ := refusal?_swap_eq_none.1 hgoes
      simp only [result, hparent]
      exact reaches_swapped_iff hforest hparent hgrand hroot
  | insert node other =>
      obtain ⟨parent, hparent⟩ := refusal?_insert_eq_none.1 hgoes
      have hne : root ≠ node := fun h ↦ hstays other (h ▸ rfl)
      exact reaches_inserted_iff hforest hparent hallowed.2.2.1 (not_reaches_of_insert hallowed)
        hroot hne

theorem children_alone {node : NodeId} (hnode : node ∈ op.alone? p) :
    (op.result p).links.children node = [] := by
  have hforest := (wellFormed_result hp hallowed hgoes).forest
  refine List.eq_nil_iff_forall_not_mem.2 ?_
  intro c hc
  cases op with
  | create made parent =>
      obtain rfl := Option.some.inj hnode
      simp only [result, attached_children] at hc
      split at hc
      · rename_i hself
        exact Nat.lt_irrefl _ (hallowed _ hself)
      · exact absurd (hp.parent_lt (hp.forest.mem_children_iff.1 hc)).2 (Nat.lt_irrefl _)
  | remove gone =>
      obtain rfl := Option.some.inj hnode
      simp [result, removed_children] at hc
  | swap => cases hnode
  | insert => cases hnode

end Surgery

/-- An operation of a run: what came of it, and the pipeline before and after it. -/
structure Moment where
  before : Pipeline
  op : Surgery
  outcome : Except Fault Unit
  after : Pipeline

/-- A run of operations. -/
def moments (p : Pipeline) : List Surgery → List Moment
  | [] => []
  | op :: rest =>
      let (outcome, after) := runOn op.perform p
      ⟨p, op, outcome, after⟩ :: moments after rest

/-- The pipeline is in order after an operation, which fails for no other reason than that its own
guard refuses it, and then changes nothing. -/
structure Moment.Sound (m : Moment) : Prop where
  wellFormed : m.after.WellFormed
  refused : ∀ reason, m.op.refusal? m.before = some reason →
    m.outcome = .error (.invariant reason) ∧ m.after = m.before
  goes : m.op.refusal? m.before = none → m.outcome = .ok ()
  reached : m.op.refusal? m.before = none → ∀ root < m.before.nodes.length,
    m.before.links.parent root = none → (∀ other, m.op ≠ .insert root other) →
      ∀ x, m.after.links.Reaches root x ↔ m.op.Reached m.before root x
  alone : m.op.refusal? m.before = none → ∀ node ∈ m.op.alone? m.before,
    ∀ x, m.after.links.Reaches node x ↔ x = node

/-- One step of a run. -/
theorem Surgery.sound {op : Surgery} (hp : p.WellFormed) (hallowed : op.Allowed p) :
    Moment.Sound ⟨p, op, (runOn op.perform p).1, (runOn op.perform p).2⟩ := by
  cases h : op.refusal? p with
  | some reason =>
      rw [runOn_perform_of_refusal h]
      refine ⟨hp, ?_, ?_, ?_, ?_⟩
      · intro other hother
        obtain rfl := Option.some.inj (h.symm.trans hother)
        exact ⟨rfl, rfl⟩
      all_goals
        intro hnone
        simp [h] at hnone
  | none =>
      rw [runOn_perform_of_allowed hp hallowed h]
      refine ⟨wellFormed_result hp hallowed h, ?_, fun _ ↦ rfl, ?_, ?_⟩
      · intro reason hreason
        simp [h] at hreason
      · intro _ root hmade hroot hstays x
        exact reaches_result_iff hp hallowed h hmade hroot hstays
      · intro _ node hnode x
        have hbare := children_alone hp hallowed h hnode
        constructor
        · intro hx
          obtain rfl | ⟨c, hc, -⟩ := Relation.ReflTransGen.cases_head hx
          · rfl
          · simp [hbare] at hc
        · rintro rfl
          exact .refl

/-- Over runs of any length a pipeline stays in order, each operation fails exactly if its own guard
refuses it, and what a root reaches changes by the node or the tree in question alone. -/
theorem sound_of_mem_moments {ops : List Surgery} (hp : p.WellFormed)
    (hallowed : ∀ m ∈ moments p ops, m.op.Allowed m.before) : ∀ m ∈ moments p ops, m.Sound := by
  induction ops generalizing p with
  | nil => exact fun m hm ↦ absurd hm List.not_mem_nil
  | cons op rest ih =>
      simp only [moments, List.forall_mem_cons] at hallowed ⊢
      have hfirst := Surgery.sound hp hallowed.1
      exact ⟨hfirst, ih hfirst.wellFormed hallowed.2⟩

/-- A run in which a new root is put above a node and swapped down, while the root that is left
cannot be taken out. -/
theorem sound_of_mem_moments_tour :
    Pipeline.empty.WellFormed ∧
      (∀ m ∈ moments .empty [.create ⟨.plain, none⟩ none, .create ⟨.plain, none⟩ (some 0),
          .create ⟨.plain, none⟩ none, .insert 2 1, .swap 1, .remove 0],
        m.op.Allowed m.before) ∧
      ∀ m ∈ moments .empty [.create ⟨.plain, none⟩ none, .create ⟨.plain, none⟩ (some 0),
          .create ⟨.plain, none⟩ none, .insert 2 1, .swap 1, .remove 0],
        m.Sound := by
  have hallowed : ∀ m ∈ moments .empty [.create ⟨.plain, none⟩ none,
      .create ⟨.plain, none⟩ (some 0), .create ⟨.plain, none⟩ none, .insert 2 1, .swap 1,
      .remove 0], m.op.Allowed m.before := by
    have hroot (p : Pipeline) : Surgery.Allowed p (.create ⟨.plain, none⟩ none) := by
      simp [Surgery.Allowed]
    have hone := (Surgery.sound .empty (hroot _)).wellFormed
    have hchild : Surgery.Allowed (runOn (Surgery.create ⟨.plain, none⟩ none).perform .empty).2
        (.create ⟨.plain, none⟩ (some 0)) := by
      intro n hn
      obtain rfl := Option.some.inj hn
      decide
    have htwo := (Surgery.sound hone hchild).wellFormed
    have hforest := (Surgery.sound htwo (hroot _)).wellFormed.forest
    simp only [moments, List.forall_mem_cons]
    refine ⟨hroot _, hchild, hroot _, ⟨by decide, by decide, by decide, ?_⟩, ?_, ?_, ?_⟩
    · intro n hn hreach
      rw [hforest.reaches_root_iff (by decide)] at hn
      subst hn
      obtain h | ⟨q, hq, hup⟩ := hforest.reaches_iff.1 hreach
      · cases h
      · obtain rfl : 0 = q := Option.some.inj hq
        rw [hforest.reaches_root_iff (by decide)] at hup
        cases hup
    · exact show 1 < 3 by decide
    · exact show 0 < 3 by decide
    · simp
  exact ⟨.empty, hallowed, sound_of_mem_moments .empty hallowed⟩

end ChartLowering.Pipeline
