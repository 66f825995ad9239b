import ChartLowering.Proofs.Logic.Syntax

/-!
# What tests are read as

The grammar of tests, level by level, and of what stands between commas. The reader finds the term
of every derivation, so that no text has two.
-/

namespace ChartLowering.Logic

open Expression (Token Operator)

def Infix.lexeme : Infix → Lexeme
  | operator o => .token (.operator o)
  | equal => .equal
  | notEqual => .notEqual

def Sign.lexeme : Sign → Lexeme
  | plus => .token (.operator .plus)
  | minus => .token (.operator .minus)
  | not => .not

@[simp] theorem Infix.operator?_lexeme (o : Infix) : o.lexeme.operator? = some o := by
  cases o <;> rfl

theorem Infix.level_le (o : Infix) : o.level ≤ 10 := by
  cases o with
  | operator o => cases o <;> decide
  | _ => decide

/-- What is derived: a term whose operators bind at least so tightly, or terms between commas. -/
inductive Phrase where
  | term (least : Nat) (t : Term)
  | items (ts : List Term)

inductive Derives : Phrase → List Lexeme → Prop
  | number {least : Nat} (d : Decimal) : Derives (.term least (.number d)) [.token (.number d)]
  | text {least : Nat} (s : String) : Derives (.term least (.text s)) [.token (.text s)]
  | name {least : Nat} (s : String) : Derives (.term least (.name s)) [.token (.word s)]
  | column {least : Nat} (name : String) : Derives (.term least (.column name))
      [.token (.word "datum"), .token .openBracket, .token (.text name), .token .closeBracket]
  | list {least : Nat} {ts : List Term} {ls : List Lexeme} (h : Derives (.items ts) ls) :
      Derives (.term least (.list ts)) (.token .openBracket :: ls ++ [.token .closeBracket])
  | call {least : Nat} {ts : List Term} {ls : List Lexeme} (f : String)
      (h : Derives (.items ts) ls) : Derives (.term least (.call f ts))
        (.token (.word f) :: .token .opening :: ls ++ [.token .closing])
  | brackets {least : Nat} {t : Term} {ls : List Lexeme} (h : Derives (.term 1 t) ls) :
      Derives (.term least t) (.token .opening :: ls ++ [.token .closing])
  | signed {least : Nat} {t : Term} {ls : List Lexeme} (sign : Sign)
      (h : Derives (.term 11 t) ls) : Derives (.term least (.signed sign t)) (sign.lexeme :: ls)
  | binary {least : Nat} {o : Infix} {l r : Term} {ls rs : List Lexeme} (ho : least ≤ o.level)
      (hl : Derives (.term o.level l) ls) (hr : Derives (.term (o.level + 1) r) rs) :
      Derives (.term least (.binary o l r)) (ls ++ o.lexeme :: rs)
  | none : Derives (.items []) []
  | last {t : Term} {ls : List Lexeme} (h : Derives (.term 1 t) ls) : Derives (.items [t]) ls
  | more {t u : Term} {us : List Term} {ls ms : List Lexeme} (h : Derives (.term 1 t) ls)
      (hs : Derives (.items (u :: us)) ms) : Derives (.items (t :: u :: us)) (ls ++ .comma :: ms)

def closers : List Lexeme := [.comma, .token .closing, .token .closeBracket]

/-- Does something stand after a term that ends it, or an operator that binds no more tightly than a
level? -/
def Follows (level : Nat) : List Lexeme → Prop
  | [] => True
  | l :: _ => l ∈ closers ∨ ∃ o : Infix, l = o.lexeme ∧ o.level ≤ level

section Reading

variable {least level : Nat} {ls rest : List Lexeme} {t left : Term} {p : Phrase}

theorem Derives.mono (h : Derives (.term level t) ls) (hle : least ≤ level) :
    Derives (.term least t) ls := by
  cases h with
  | number d => exact .number d
  | text s => exact .text s
  | name s => exact .name s
  | column name => exact .column name
  | list h => exact .list h
  | call f h => exact .call f h
  | brackets h => exact .brackets h
  | signed sign h => exact .signed sign h
  | binary ho hl hr => exact .binary (hle.trans ho) hl hr

def Begins (ls : List Lexeme) : Prop :=
  ∃ l rest, ls = l :: rest ∧ l ≠ .token .closing ∧ l ≠ .token .closeBracket

theorem Begins.append (h : Begins ls) (rest : List Lexeme) : Begins (ls ++ rest) := by
  obtain ⟨l, others, rfl, hl⟩ := h
  exact ⟨l, others ++ rest, rfl, hl⟩

theorem Derives.begins (h : Derives p ls) (hp : p ≠ .items []) : Begins ls := by
  induction h with
  | number | text | name | column | list | call | brackets =>
      exact ⟨_, _, rfl, by simp, by simp⟩
  | signed sign => cases sign <;> exact ⟨_, _, rfl, by decide, by decide⟩
  | binary _ _ _ ih => exact (ih Phrase.noConfusion).append _
  | none => exact (hp rfl).elim
  | last _ ih => exact ih Phrase.noConfusion
  | more _ _ ih => exact (ih Phrase.noConfusion).append _

theorem follows_mono {other : Nat} (h : Follows level rest) (hle : level ≤ other) :
    Follows other rest := by
  cases rest with
  | nil => trivial
  | cons l rest =>
      rcases h with h | ⟨o, ho, hlevel⟩
      · exact .inl h
      · exact .inr ⟨o, ho, hlevel.trans hle⟩

theorem follows_tight (h : Follows level rest) : Follows 10 rest := by
  cases rest with
  | nil => trivial
  | cons l rest =>
      rcases h with h | ⟨o, ho, -⟩
      · exact .inl h
      · exact .inr ⟨o, ho, o.level_le⟩

/-- Nothing is taken in where what follows binds too loosely. -/
theorem climb_of_follows (h : Follows level rest) (hlevel : level < least) :
    climb least left rest = some (left, rest) := by
  cases rest with
  | nil => rw [climb]
  | cons l rest =>
      rcases h with h | ⟨o, rfl, ho⟩
      · have hnone : ∀ l ∈ closers, l.operator? = none := by decide
        rw [climb, hnone l h]
      · have hloose : ¬ least ≤ o.level := by omega
        rw [climb, Infix.operator?_lexeme]
        exact if_neg hloose

theorem expression_of_operand (hne : ls ≠ []) (h : operand (ls ++ rest) = some (t, rest)) :
    expression least (ls ++ rest) = climb least t rest := by
  have hshorter : rest.length < (ls ++ rest).length := by
    have hpos := List.length_pos_iff.2 hne
    rw [List.length_append]
    omega
  rw [expression, h]
  exact if_pos hshorter

theorem operand_name {s : String} (h : Follows level rest) :
    operand (.token (.word s) :: rest) = some (.name s, rest) := by
  cases rest with
  | nil => rw [operand] <;> simp
  | cons l rest =>
      have hne : l ≠ .token .opening ∧ l ≠ .token .openBracket := by
        rcases h with h | ⟨o, rfl, -⟩
        · have hall : ∀ l ∈ closers, l ≠ .token .opening ∧ l ≠ .token .openBracket := by decide
          exact hall l h
        · cases o <;> exact ⟨by simp [Infix.lexeme], by simp [Infix.lexeme]⟩
      rw [operand]
      · intro _ _ hcons _
        exact hne.2 (List.cons.inj hcons).1
      · intro _ hcons
        exact hne.1 (List.cons.inj hcons).1

theorem operand_sign (sign : Sign) (ls : List Lexeme) : operand (sign.lexeme :: ls) =
    (expression 11 ls).map fun (t, rest) ↦ (.signed sign t, rest) := by
  cases sign <;> simp only [Sign.lexeme, operand, Lexeme.sign?] <;> cases expression 11 ls <;> rfl

theorem items_of_begins {close : Token} (h : Begins ls)
    (hclose : close = .closing ∨ close = .closeBracket) : items close ls = itemsFrom close ls := by
  obtain ⟨l, rest, rfl, hclosing, hbracket⟩ := h
  cases l with
  | token t =>
      rw [items, if_neg]
      rintro rfl
      rcases hclose with rfl | rfl
      · exact hclosing rfl
      · exact hbracket rfl
  | _ => rw [items]; simp

/-- What the reader makes of a phrase. A term is taken in as a left operand, whatever binds loosely
enough after it. -/
def ReadsBack : Phrase → List Lexeme → Prop
  | .term level t, ls => ∀ least rest, least ≤ level → Follows level rest →
      expression least (ls ++ rest) = climb least t rest
  | .items ts, ls => ∀ close rest, close = .closing ∨ close = .closeBracket →
      items close (ls ++ .token close :: rest) = some (ts, rest)

theorem itemsFrom_last {close : Token} (hclose : close = .closing ∨ close = .closeBracket)
    (h : ReadsBack (.term 1 t) ls) (rest : List Lexeme) :
    itemsFrom close (ls ++ .token close :: rest) = some ([t], rest) := by
  have hfollows : Follows 0 (.token close :: rest) := by
    rcases hclose with rfl | rfl <;> exact .inl (by decide)
  have hread : expression 1 (ls ++ .token close :: rest) = some (t, .token close :: rest) := by
    rw [h 1 _ le_rfl (follows_mono hfollows zero_le_one)]
    exact climb_of_follows hfollows one_pos
  rw [itemsFrom, hread]
  exact if_pos rfl

theorem itemsFrom_more {close : Token} {found : List Term} {ms : List Lexeme}
    (h : ReadsBack (.term 1 t) ls) (hms : itemsFrom close ms = some (found, rest)) :
    itemsFrom close (ls ++ .comma :: ms) = some (t :: found, rest) := by
  have hfollows : Follows 0 (.comma :: ms) := .inl (by decide)
  have hread : expression 1 (ls ++ .comma :: ms) = some (t, .comma :: ms) := by
    rw [h 1 _ le_rfl (follows_mono hfollows zero_le_one)]
    exact climb_of_follows hfollows one_pos
  have hshorter : ms.length < (ls ++ .comma :: ms).length := by
    rw [List.length_append, List.length_cons]
    omega
  rw [itemsFrom, hread]
  simp only [hms, if_pos hshorter]

theorem Derives.readsBack (h : Derives p ls) : ReadsBack p ls := by
  induction h with
  | number d | text s =>
      intro least rest _ _
      apply expression_of_operand (List.cons_ne_nil _ _)
      rw [List.singleton_append, operand]
  | name s =>
      intro least rest _ hrest
      exact expression_of_operand (List.cons_ne_nil _ _) (operand_name hrest)
  | column name =>
      intro least rest _ _
      apply expression_of_operand (List.cons_ne_nil _ _)
      simp [operand]
  | @list _ ts ls _ ih =>
      intro least rest _ _
      apply expression_of_operand (by simp)
      have hitems := ih .closeBracket rest (.inr rfl)
      rw [List.append_assoc, List.cons_append, List.singleton_append, operand, hitems]
  | @call _ ts ls f _ ih =>
      intro least rest _ _
      apply expression_of_operand (by simp)
      have hitems := ih .closing rest (.inl rfl)
      rw [List.append_assoc, List.cons_append, List.cons_append, List.singleton_append, operand,
        hitems]
  | @brackets _ t ls _ ih =>
      intro least rest _ _
      have hclosing : Follows 0 (.token .closing :: rest) := .inl (by decide)
      have hinner : expression 1 (ls ++ .token .closing :: rest) =
          some (t, .token .closing :: rest) := by
        rw [ih 1 _ le_rfl (follows_mono hclosing zero_le_one)]
        exact climb_of_follows hclosing one_pos
      apply expression_of_operand (by simp)
      rw [List.append_assoc, List.cons_append, List.singleton_append, operand, hinner]
  | @signed level t ls sign _ ih =>
      intro least rest _ hrest
      have htight := follows_tight hrest
      have hinner : expression 11 (ls ++ rest) = some (t, rest) := by
        rw [ih 11 rest le_rfl (follows_mono htight (Nat.le_succ 10))]
        exact climb_of_follows htight (Nat.lt_succ_self 10)
      apply expression_of_operand (List.cons_ne_nil _ _)
      rw [List.cons_append, operand_sign, hinner]
      rfl
  | @binary level o l r ls rs ho _ _ ihl ihr =>
      intro least rest hleast hrest
      have hright : expression (o.level + 1) (rs ++ rest) = some (r, rest) := by
        rw [ihr _ rest le_rfl (follows_mono hrest (by omega))]
        exact climb_of_follows hrest (by omega)
      have hshorter : rest.length ≤ (rs ++ rest).length := by
        rw [List.length_append]
        omega
      have hfollows : Follows o.level (o.lexeme :: (rs ++ rest)) := .inr ⟨o, rfl, le_rfl⟩
      rw [List.append_assoc, List.cons_append, ihl least _ (hleast.trans ho) hfollows, climb]
      simp only [Infix.operator?_lexeme, hright, if_pos (hleast.trans ho), if_pos hshorter]
  | none =>
      intro close rest _
      rw [List.nil_append, items, if_pos rfl]
  | last h ih =>
      intro close rest hclose
      rw [items_of_begins ((h.begins Phrase.noConfusion).append _) hclose]
      exact itemsFrom_last hclose ih rest
  | @more t u us ls ms h hs ih ihs =>
      intro close rest hclose
      have hothers := ihs close rest hclose
      rw [items_of_begins ((hs.begins (by simp)).append _) hclose] at hothers
      rw [List.append_assoc, List.cons_append,
        items_of_begins ((h.begins Phrase.noConfusion).append _) hclose]
      exact itemsFrom_more ih hothers

theorem Derives.expression_eq (h : Derives (.term 1 t) ls) :
    expression 1 ls = some (t, []) := by
  have hread := h.readsBack 1 [] le_rfl trivial
  rwa [List.append_nil, climb] at hread

end Reading

end ChartLowering.Logic
