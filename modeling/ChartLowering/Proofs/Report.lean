import ChartLowering.Report
import Mathlib.Data.List.Forall2

/-!
# Outcomes of reports

The outcome of a report on its own, without what was told on the way. Walks over lists go through
exactly if each of their steps does.
-/

namespace ChartLowering

namespace Report

variable {α β : Type}

@[simp] theorem outcome_bind (r : Report α) (f : α → Report β) :
    (r >>= f).outcome = r.outcome.bind fun a ↦ (f a).outcome := by
  cases h : r.outcome with
  | ok a => rw [bind_of_ok f h]; rfl
  | error fault => rw [bind_of_error f h]; rfl

@[simp] theorem outcome_map (f : α → β) (r : Report α) :
    (f <$> r).outcome = f <$> r.outcome := by
  rw [← bind_pure_comp, outcome_bind]
  cases r.outcome <;> rfl

@[simp] theorem outcome_throw (fault : Fault) :
    (throw fault : Report α).outcome = .error fault := rfl

@[simp] theorem outcome_lift (e : Except Fault α) :
    (liftM e : Report α).outcome = e := rfl

theorem lift_ok (a : α) : (liftM (Except.ok a : Except Fault α) : Report α) = pure a := rfl

theorem lift_bind (e : Except Fault α) (f : α → Except Fault β) :
    (liftM (e >>= f) : Report β) = liftM e >>= fun a ↦ liftM (f a) := by
  cases e <;> rfl

theorem lift_pure (a : α) : (liftM (pure a : Except Fault α) : Report α) = pure a := rfl

theorem ite_bind {c : Prop} [Decidable c] (r s : Report α) (f : α → Report β) :
    (if c then r else s) >>= f = if c then r >>= f else s >>= f := by
  split <;> rfl

theorem map_lift (f : α → β) (e : Except Fault α) :
    f <$> (liftM e : Report α) = liftM (f <$> e) := by
  cases e <;> rfl

@[simp] theorem outcome_tell (severity : Severity) (stage : Stage) (reason : Reason) :
    (tell severity stage reason).outcome = .ok () := rfl

theorem outcome_foldlM (step : β → α → Report β) (start : β) (items : List α) :
    (items.foldlM step start).outcome =
      items.foldlM (fun b a ↦ (step b a).outcome) start := by
  induction items generalizing start with
  | nil => rfl
  | cons a rest ih =>
      rw [List.foldlM_cons, List.foldlM_cons, outcome_bind]
      congr 1
      exact funext ih

theorem outcome_mapM (f : α → Report β) (items : List α) :
    (items.mapM f).outcome = items.mapM fun a ↦ (f a).outcome := by
  induction items with
  | nil => rfl
  | cons a rest ih =>
      rw [List.mapM_cons, List.mapM_cons, outcome_bind]
      congr 1
      funext b
      rw [outcome_bind, ih]
      rfl

end Report

section Walks

variable {ε α β γ : Type}

theorem ok_bind (a : α) (f : α → Except ε β) : Except.ok a >>= f = f a := rfl

theorem bind_eq_ok_iff {e : Except ε α} {f : α → Except ε β} {b : β} :
    e >>= f = .ok b ↔ ∃ a, e = .ok a ∧ f a = .ok b := by
  cases e with
  | error fault => simp [bind, Except.bind]
  | ok a => simp [bind, Except.bind]

theorem mapM_eq_ok_iff {f : α → Except ε β} {items : List α} {found : List β} :
    items.mapM f = .ok found ↔ List.Forall₂ (fun a b ↦ f a = .ok b) items found := by
  induction items generalizing found with
  | nil =>
      rw [List.mapM_nil, List.forall₂_nil_left_iff]
      exact ⟨fun h ↦ (Except.ok.inj h).symm, fun h ↦ h ▸ rfl⟩
  | cons a rest ih =>
      rw [List.mapM_cons, bind_eq_ok_iff, List.forall₂_cons_left_iff]
      constructor
      · rintro ⟨b, hb, h⟩
        obtain ⟨bs, hbs, h⟩ := bind_eq_ok_iff.1 h
        exact ⟨b, bs, hb, ih.1 hbs, (Except.ok.inj h).symm⟩
      · rintro ⟨b, bs, hb, hbs, rfl⟩
        exact ⟨b, hb, bind_eq_ok_iff.2 ⟨bs, ih.2 hbs, rfl⟩⟩

theorem mem_of_mapM_eq_ok {f : α → Except ε β} {items : List α} {found : List β}
    (h : items.mapM f = .ok found) {b : β} : b ∈ found ↔ ∃ a ∈ items, f a = .ok b := by
  rw [mapM_eq_ok_iff] at h
  induction h with
  | nil => simp
  | @cons a c _ _ hac _ ih =>
      rw [List.mem_cons, ih, eq_comm]
      simp [hac]

theorem exists_of_mapM_eq_ok {f : α → Except ε β} {items : List α} {found : List β}
    (h : items.mapM f = .ok found) {a : α} (ha : a ∈ items) : ∃ b ∈ found, f a = .ok b := by
  rw [mapM_eq_ok_iff] at h
  induction h with
  | nil => cases ha
  | @cons c b _ _ hcb _ ih =>
      obtain rfl | ha := List.mem_cons.1 ha
      · exact ⟨b, List.mem_cons_self, hcb⟩
      · obtain ⟨b, hb, hab⟩ := ih ha
        exact ⟨b, List.mem_cons_of_mem _ hb, hab⟩

/-- A walk fails as the first of its steps does that fails. -/
theorem mapM_eq_error_iff {f : α → Except ε β} {items : List α} {fault : ε} :
    items.mapM f = .error fault ↔ ∃ before a after, items = before ++ a :: after ∧
      (∀ b ∈ before, ∃ c, f b = .ok c) ∧ f a = .error fault := by
  induction items with
  | nil =>
      constructor
      · intro h
        cases h
      · rintro ⟨before, a, after, hsplit, -⟩
        cases before <;> cases hsplit
  | cons a rest ih =>
      rw [List.mapM_cons]
      cases ha : f a with
      | error other =>
          constructor
          · intro h
            obtain rfl := Except.error.inj h
            exact ⟨[], a, rest, rfl, by simp, ha⟩
          · rintro ⟨_ | ⟨b, before⟩, x, after, hsplit, hbefore, hx⟩
            · obtain ⟨rfl, -⟩ := List.cons.inj hsplit
              obtain rfl := Except.error.inj (ha.symm.trans hx)
              rfl
            · obtain ⟨rfl, -⟩ := List.cons.inj hsplit
              obtain ⟨c, hc⟩ := hbefore a List.mem_cons_self
              rw [ha] at hc
              cases hc
      | ok b =>
          have hrest : (do
              let b ← (Except.ok b : Except ε β)
              let bs ← rest.mapM f
              pure (b :: bs)) = .error fault ↔ rest.mapM f = .error fault := by
            cases rest.mapM f <;> simp [bind, Except.bind, pure, Except.pure]
          rw [hrest, ih]
          constructor
          · rintro ⟨before, x, after, rfl, hbefore, hx⟩
            exact ⟨a :: before, x, after, rfl, List.forall_mem_cons.2 ⟨⟨b, ha⟩, hbefore⟩, hx⟩
          · rintro ⟨_ | ⟨c, before⟩, x, after, hsplit, hbefore, hx⟩
            · obtain ⟨rfl, -⟩ := List.cons.inj hsplit
              rw [ha] at hx
              cases hx
            · obtain ⟨-, rfl⟩ := List.cons.inj hsplit
              exact ⟨before, x, after, rfl, (List.forall_mem_cons.1 hbefore).2, hx⟩

theorem exists_error_of_mapM {f : α → Except ε β} {items : List α} {fault : ε}
    (h : items.mapM f = .error fault) : ∃ a ∈ items, f a = .error fault := by
  obtain ⟨before, a, after, rfl, -, ha⟩ := mapM_eq_error_iff.1 h
  exact ⟨a, List.mem_append_right _ List.mem_cons_self, ha⟩

instance decidableForallOk {e : Except ε α} {p : α → Prop} [DecidablePred p] :
    Decidable (∀ a, e = .ok a → p a) :=
  match e with
  | .error _ => isTrue fun _ h ↦ nomatch h
  | .ok a => decidable_of_iff (p a) ⟨fun h _ ha ↦ Except.ok.inj ha ▸ h, fun h ↦ h a rfl⟩

theorem toOption_bind (e : Except ε α) (f : α → Except ε β) :
    (e >>= f).toOption = e.toOption.bind fun a ↦ (f a).toOption := by
  cases e <;> rfl

theorem toOption_map (f : α → β) (e : Except ε α) : (f <$> e).toOption = e.toOption.map f := by
  cases e <;> rfl

theorem toOption_mapM (f : α → Except ε β) (items : List α) :
    (items.mapM f).toOption = items.mapM fun a ↦ (f a).toOption := by
  induction items with
  | nil => rfl
  | cons a rest ih =>
      rw [List.mapM_cons, List.mapM_cons, toOption_bind]
      congr 1
      funext b
      rw [toOption_bind, ih]
      rfl

/-- A walk that gathers what its steps find, against finding everything first. -/
theorem foldlM_eq_mapM (find : α → Except ε (Option β)) (put : γ → β → γ) (items : List α)
    (start : γ) :
    items.foldlM (fun c a ↦ (fun found ↦ found.elim c (put c)) <$> find a) start =
      (fun found ↦ (found.filterMap id).foldl put start) <$> items.mapM find := by
  induction items generalizing start with
  | nil => rfl
  | cons a rest ih =>
      rw [List.foldlM_cons, List.mapM_cons]
      cases h : find a with
      | error fault => rfl
      | ok found =>
          refine (ih (found.elim start (put start))).trans ?_
          cases found <;> cases rest.mapM find <;> rfl

end Walks

namespace Report

variable {α β : Type}

/-- A report in two steps succeeds just if both of them do. -/
theorem outcome_bind_eq_ok_iff {r : Report α} {f : α → Report β} {b : β} :
    (r >>= f).outcome = .ok b ↔ ∃ a, r.outcome = .ok a ∧ (f a).outcome = .ok b := by
  rw [outcome_bind]
  exact bind_eq_ok_iff

/-- What a report comes to, whatever it tells and whichever fault it ends in. -/
def result (r : Report α) : Option α := r.outcome.toOption

theorem result_eq_some_iff {r : Report α} {a : α} : r.result = some a ↔ r.outcome = .ok a := by
  rw [result]
  cases r.outcome <;> simp [Except.toOption]

theorem result_map (f : α → β) (r : Report α) : (f <$> r).result = r.result.map f := by
  rw [result, outcome_map, toOption_map]
  rfl

theorem result_bind (r : Report α) (f : α → Report β) :
    (r >>= f).result = r.result.bind fun a ↦ (f a).result := by
  rw [result, outcome_bind]
  exact toOption_bind r.outcome fun a ↦ (f a).outcome

theorem result_mapM (f : α → Report β) (items : List α) :
    (items.mapM f).result = items.mapM fun a ↦ (f a).result := by
  rw [result, outcome_mapM, toOption_mapM]
  rfl

theorem result_pure (a : α) : (pure a : Report α).result = some a := rfl

theorem result_lift (e : Except Fault α) : (liftM e : Report α).result = e.toOption := rfl

section Silent

theorem pure_injective : Function.Injective (pure : α → Report α) :=
  fun _ _ h ↦ Except.ok.inj (congrArg outcome h)

theorem lift_eq_pure_iff {e : Except Fault α} {a : α} :
    (liftM e : Report α) = pure a ↔ e = .ok a :=
  ⟨fun h ↦ congrArg outcome h, fun h ↦ by rw [h]; rfl⟩

/-- A report in two steps is silent just if both of them are. -/
theorem bind_eq_pure_iff {r : Report α} {f : α → Report β} {b : β} :
    r >>= f = pure b ↔ ∃ a, r = pure a ∧ f a = pure b := by
  constructor
  · intro h
    cases houtcome : r.outcome with
    | error fault =>
        rw [bind_of_error f houtcome] at h
        cases congrArg outcome h
    | ok a =>
        rw [bind_of_ok f houtcome] at h
        obtain ⟨hr, hf⟩ := List.append_eq_nil_iff.1 (congrArg notices h)
        have hb : (f a).outcome = .ok b := congrArg (fun s : Report β ↦ s.outcome) h
        exact ⟨a, ext hr houtcome, ext hf hb⟩
  · rintro ⟨a, rfl, h⟩
    rwa [pure_bind]

theorem mapM_eq_pure_iff {f : α → Report β} {items : List α} {found : List β} :
    items.mapM f = pure found ↔ List.Forall₂ (fun a b ↦ f a = pure b) items found := by
  induction items generalizing found with
  | nil =>
      rw [List.mapM_nil, List.forall₂_nil_left_iff]
      exact ⟨fun h ↦ (pure_injective h).symm, fun h ↦ h ▸ rfl⟩
  | cons a rest ih =>
      rw [List.mapM_cons, bind_eq_pure_iff, List.forall₂_cons_left_iff]
      constructor
      · rintro ⟨b, hb, h⟩
        obtain ⟨bs, hbs, h⟩ := bind_eq_pure_iff.1 h
        exact ⟨b, bs, hb, ih.1 hbs, (pure_injective h).symm⟩
      · rintro ⟨b, bs, hb, hbs, rfl⟩
        exact ⟨b, hb, bind_eq_pure_iff.2 ⟨bs, ih.2 hbs, rfl⟩⟩

end Silent

end Report

end ChartLowering
