import ChartLowering.Pipeline.Links

/-!
# Changes of links, carried out

What each change gives and which links it leaves, on links in which it goes through. Places among
the children are told by splitting the list of children at the node in question.
-/

namespace ChartLowering.Pipeline

variable {σ α β : Type}

/-- What a change gives when it is carried out on a state, and the state that it leaves. -/
def runOn (change : ExceptT Fault (StateM σ) α) (s : σ) : Except Fault α × σ := change.run.run s

@[simp] theorem runOn_pure (a : α) (s : σ) :
    runOn (pure a : ExceptT Fault (StateM σ) α) s = (.ok a, s) := rfl

@[simp] theorem runOn_throw (fault : Fault) (s : σ) :
    runOn (throw fault : ExceptT Fault (StateM σ) α) s = (.error fault, s) := rfl

@[simp] theorem runOn_get (s : σ) :
    runOn (get : ExceptT Fault (StateM σ) σ) s = (.ok s, s) := rfl

@[simp] theorem runOn_modify (f : σ → σ) (s : σ) :
    runOn (modify f : ExceptT Fault (StateM σ) Unit) s = (.ok (), f s) := rfl

theorem runOn_bind (change : ExceptT Fault (StateM σ) α) (f : α → ExceptT Fault (StateM σ) β)
    (s : σ) :
    runOn (change >>= f) s =
      match runOn change s with
      | (.ok a, next) => runOn (f a) next
      | (.error fault, next) => (.error fault, next) := by
  unfold runOn ExceptT.run StateT.run
  simp only [bind, ExceptT.bind, ExceptT.mk, StateT.bind, ExceptT.bindCont]
  cases change s with
  | mk outcome next => cases outcome <;> rfl

section Steps

variable {change : ExceptT Fault (StateM σ) α} {s next : σ} {a : α}

theorem runOn_bind_of_ok (h : runOn change s = (.ok a, next))
    (f : α → ExceptT Fault (StateM σ) β) : runOn (change >>= f) s = runOn (f a) next := by
  rw [runOn_bind, h]

theorem runOn_get_bind (f : σ → ExceptT Fault (StateM σ) β) (s : σ) :
    runOn (get >>= f) s = runOn (f s) s := runOn_bind_of_ok (runOn_get s) f

theorem runOn_modify_bind (g : σ → σ) (f : Unit → ExceptT Fault (StateM σ) β) (s : σ) :
    runOn (modify g >>= f) s = runOn (f ()) (g s) := runOn_bind_of_ok (runOn_modify g s) f

theorem runOn_discard_of_ok (h : runOn change s = (.ok a, next)) :
    runOn (discard change) s = (.ok (), next) := by
  have hmap : discard change = change >>= fun _ ↦ pure () := by
    rw [discard, Functor.mapConst]
    rfl
  rw [hmap, runOn_bind_of_ok h, runOn_pure]

end Steps

namespace Links

@[ext] theorem ext {l m : Links} (hp : ∀ n, l.parent n = m.parent n)
    (hc : ∀ n, l.children n = m.children n) : l = m := by
  cases l
  cases m
  congr
  · exact funext hp
  · exact funext hc

end Links

theorem insertAt_length (before after : List NodeId) (item : NodeId) :
    insertAt (before ++ after) before.length item = before ++ item :: after := by
  have h : ¬ ((before.length : Int) < 0) := by omega
  simp [insertAt, h]

/-- The new child stands behind those in front of its place, which is the end if none is given. -/
theorem runOn_addChild {l : Links} {node child : NodeId} {before after : List NodeId}
    {place : Option Int} (hsplit : l.children node = before ++ after)
    (hplace : place.getD (l.children node).length = before.length)
    (hnew : child ∉ l.children node) :
    runOn (addChild node child place) l =
      (.ok (), l.withChildren node (before ++ child :: after)) := by
  rw [addChild, runOn_get_bind, if_neg hnew]
  simp only [runOn_modify, hplace]
  rw [hsplit, insertAt_length]

theorem runOn_removeChild {l : Links} {node child : NodeId} {before after : List NodeId}
    (hsplit : l.children node = before ++ child :: after) (hnew : child ∉ before) :
    runOn (removeChild node child) l =
      (.ok before.length, l.withChildren node (before ++ after)) := by
  have hmem : child ∈ l.children node := by simp [hsplit]
  have hplace : (before ++ child :: after).idxOf child = before.length := by
    rw [List.idxOf_append, if_neg hnew, List.idxOf_cons_self, Nat.zero_add]
  rw [removeChild, runOn_get_bind]
  simp only [if_pos hmem]
  rw [runOn_modify_bind, runOn_pure, hsplit, hplace, List.erase_append_right _ hnew,
    List.erase_cons_head]

theorem runOn_setParent {l : Links} {node parent : NodeId}
    (hnew : node ∉ l.children parent) :
    runOn (setParent node (some parent)) l =
      (.ok (), (l.withParent node (some parent)).withChildren parent
        (l.children parent ++ [node])) := by
  rw [setParent, runOn_modify_bind]
  exact runOn_addChild (by simp) (by simp) hnew

/-- The links in which some nodes have another parent, which does not know of them yet. -/
def Links.reparent (l : Links) (nodes : List NodeId) (parent : NodeId) : Links :=
  { l with parent := fun n ↦ if n ∈ nodes then some parent else l.parent n }

theorem runOn_adopt {l : Links} {parent : NodeId} {children before after : List NodeId}
    {place : Option Nat} (hsplit : l.children parent = before ++ after)
    (hplace : place.getD (l.children parent).length = before.length)
    (hnodup : children.Nodup) (hnew : ∀ c ∈ children, c ∉ l.children parent) :
    runOn (adopt parent children place) l =
      (.ok (), (l.reparent children parent).withChildren parent
        (before ++ children ++ after)) := by
  induction children generalizing l before place with
  | nil =>
      rw [adopt, runOn_pure]
      congr 1
      ext1 n
      · simp [Links.reparent]
      · by_cases hn : n = parent <;> simp [Links.withChildren, Links.reparent, hn, hsplit]
  | cons child rest ih =>
      obtain ⟨hchild, hrest⟩ := List.nodup_cons.mp hnodup
      have hplace' : (place.map Int.ofNat).getD (l.children parent).length = before.length := by
        rw [← hplace]
        cases place <;> rfl
      have hadd : runOn (addChild parent child (place.map Int.ofNat))
          (l.withParent child (some parent)) = (.ok (), (l.withParent child
            (some parent)).withChildren parent (before ++ child :: after)) :=
        runOn_addChild hsplit hplace' (hnew child List.mem_cons_self)
      rw [adopt, runOn_modify_bind, runOn_bind_of_ok hadd, @ih _ (before ++ [child])]
      · congr 1
        ext1 n
        · by_cases hr : n ∈ rest <;> by_cases hc : n = child <;>
            simp [Links.reparent, Links.withParent, hr, hc]
        · by_cases hn : n = parent <;> simp [Links.reparent, Links.withChildren, hn]
      · simp
      · rw [hsplit] at hplace
        cases place with
        | none => simpa using hplace
        | some q => simpa using hplace
      · exact hrest
      · intro c hc
        have hne : c ≠ child := fun h ↦ hchild (h ▸ hc)
        have hold := hnew c (List.mem_cons_of_mem _ hc)
        rw [hsplit] at hold
        simpa [hne] using hold

end ChartLowering.Pipeline
