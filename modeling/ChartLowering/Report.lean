import ChartLowering.Fault

/-!
# Reports

The outcome of a computation together with what it had to tell on the way. What was told before a
fault is kept.
-/

namespace ChartLowering

inductive Severity where
  | warning
  | error
  deriving DecidableEq, Repr

/-- The part of lowering that has something to tell. -/
inductive Stage where
  | encoding
  | invalidFilter
  | condition
  | compositeAxis
  | boxplot
  | errorbar
  deriving DecidableEq, Repr

structure Notice where
  severity : Severity
  stage : Stage
  reason : Reason
  deriving DecidableEq

structure Report (α : Type) where
  notices : List Notice
  outcome : Except Fault α

namespace Report

variable {α β : Type}

@[ext] theorem ext {r s : Report α} (hn : r.notices = s.notices) (ho : r.outcome = s.outcome) :
    r = s := by
  cases r
  cases s
  simp_all

def bind (r : Report α) (f : α → Report β) : Report β :=
  match r.outcome with
  | .ok a => ⟨r.notices ++ (f a).notices, (f a).outcome⟩
  | .error fault => ⟨r.notices, .error fault⟩

instance : Monad Report where
  pure a := ⟨[], .ok a⟩
  bind := bind

@[simp] theorem notices_pure (a : α) : (pure a : Report α).notices = [] := rfl

@[simp] theorem outcome_pure (a : α) : (pure a : Report α).outcome = .ok a := rfl

theorem bind_of_ok {r : Report α} {a : α} (f : α → Report β) (h : r.outcome = .ok a) :
    r >>= f = ⟨r.notices ++ (f a).notices, (f a).outcome⟩ := by
  show bind r f = _
  simp [bind, h]

theorem bind_of_error {r : Report α} {fault : Fault} (f : α → Report β)
    (h : r.outcome = .error fault) : r >>= f = ⟨r.notices, .error fault⟩ := by
  show bind r f = _
  simp [bind, h]

theorem id_map (r : Report α) : id <$> r = r := by
  show r >>= pure = r
  cases h : r.outcome with
  | ok a =>
      rw [bind_of_ok _ h]
      ext1 <;> simp [h]
  | error fault =>
      rw [bind_of_error _ h]
      ext1 <;> simp [h]

theorem bind_assoc {γ : Type} (r : Report α) (f : α → Report β) (g : β → Report γ) :
    r >>= f >>= g = r >>= fun a ↦ f a >>= g := by
  cases h : r.outcome with
  | error fault => simp [bind_of_error, h]
  | ok a =>
      rw [bind_of_ok f h, bind_of_ok _ h]
      cases h' : (f a).outcome with
      | ok b => rw [bind_of_ok g h', bind_of_ok g rfl, List.append_assoc]
      | error fault => rw [bind_of_error g h', bind_of_error g rfl]

instance : LawfulMonad Report :=
  LawfulMonad.mk' Report id_map (fun a f ↦ bind_of_ok f (outcome_pure a)) bind_assoc

def fail (fault : Fault) : Report α := ⟨[], .error fault⟩

def tell (severity : Severity) (stage : Stage) (reason : Reason) : Report Unit :=
  ⟨[⟨severity, stage, reason⟩], .ok ()⟩

def warn (stage : Stage) (reason : Reason) : Report Unit := tell .warning stage reason

def ofExcept (outcome : Except Fault α) : Report α := ⟨[], outcome⟩

instance : MonadLift (Except Fault) Report := ⟨ofExcept⟩

instance : MonadExcept Fault Report where
  throw := fail
  tryCatch r handler :=
    match r.outcome with
    | .ok _ => r
    | .error fault => ⟨r.notices ++ (handler fault).notices, (handler fault).outcome⟩

end Report

end ChartLowering
