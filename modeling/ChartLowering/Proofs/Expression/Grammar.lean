import ChartLowering.Proofs.Expression.Syntax

/-!
# What expressions are read as

The grammar of expressions, level by level from the loosest operators to the tightest, each level
associating to the left. The reader finds the tree of every derivation, so that no text has two.
-/

namespace ChartLowering.Expression

/-- The derivations of the grammar. At a level there are only operators that bind at least so
tightly, and the right operand of one stands at the level above it. -/
inductive Derives : Nat → List Token → Tree → Prop
  | number {least : Nat} (d : Decimal) : Derives least [.number d] (.number d)
  | column {least : Nat} (name : String) :
      Derives least [.word "datum", .openBracket, .text name, .closeBracket] (.column name)
  | brackets {least : Nat} {ts : List Token} {t : Tree} (h : Derives 1 ts t) :
      Derives least (.opening :: ts ++ [.closing]) t
  | negate {least : Nat} {ts : List Token} {t : Tree} (h : Derives 6 ts t) :
      Derives least (.operator .minus :: ts) (.negate t)
  | binary {least : Nat} {o : Operator} {ls rs : List Token} {l r : Tree}
      (ho : least ≤ o.precedence) (hl : Derives o.precedence ls l)
      (hr : Derives (o.precedence + 1) rs r) :
      Derives least (ls ++ .operator o :: rs) (.binary o l r)

/-- Is what follows no operator that binds more tightly than a level? -/
def Follows (level : Nat) : List Token → Prop
  | .operator o :: _ => o.precedence ≤ level
  | _ => True

section Reading

variable {least level : Nat} {ts rest : List Token} {t left : Tree}

/-- A derivation at a level is one at every looser level. -/
theorem Derives.mono (h : Derives level ts t) (hle : least ≤ level) : Derives least ts t := by
  cases h with
  | number d => exact .number d
  | column name => exact .column name
  | brackets h => exact .brackets h
  | negate h => exact .negate h
  | binary ho hl hr => exact .binary (hle.trans ho) hl hr

theorem precedence_le (o : Operator) : o.precedence ≤ 5 := by
  cases o <;> decide

/-- Nothing is taken in where what follows binds too loosely. -/
theorem climb_of_follows (h : Follows level rest) (hlevel : level < least) :
    climb least left rest = some (left, rest) := by
  cases rest with
  | nil => rw [climb]; simp
  | cons token rest =>
      cases token with
      | operator o =>
          have hloose : ¬ least ≤ o.precedence := by
            have hfollows : o.precedence ≤ level := h
            omega
          rw [climb, if_neg hloose]
      | _ => rw [climb]; simp

theorem expression_of_operand (hne : ts ≠ []) (h : operand (ts ++ rest) = some (t, rest)) :
    expression least (ts ++ rest) = climb least t rest := by
  have hshorter : rest.length < (ts ++ rest).length := by
    rw [List.length_append]
    have hpos := List.length_pos_iff.2 hne
    omega
  rw [expression, h]
  exact if_pos hshorter

theorem follows_mono {other : Nat} (h : Follows level rest) (hle : level ≤ other) :
    Follows other rest := by
  cases rest with
  | nil => trivial
  | cons token rest =>
      cases token with
      | operator o => exact le_trans (h : o.precedence ≤ level) hle
      | _ => trivial

theorem follows_tight (rest : List Token) : Follows 5 rest := by
  cases rest with
  | nil => trivial
  | cons token rest =>
      cases token with
      | operator o => exact precedence_le o
      | _ => trivial

/-- The reader takes in the tree of a derivation as a left operand, whatever binds loosely enough
after it. -/
theorem Derives.expression_append (h : Derives level ts t) (hleast : least ≤ level)
    (hrest : Follows level rest) : expression least (ts ++ rest) = climb least t rest := by
  induction h generalizing least rest with
  | number d =>
      apply expression_of_operand (List.cons_ne_nil _ _)
      rw [List.singleton_append, operand]
  | column name =>
      apply expression_of_operand (List.cons_ne_nil _ _)
      simp [operand]
  | @brackets _ ts t _ ih =>
      have hclosing : Follows 0 (.closing :: rest) := trivial
      have hinner : expression 1 (ts ++ .closing :: rest) = some (t, .closing :: rest) := by
        rw [ih le_rfl (follows_mono hclosing zero_le_one)]
        exact climb_of_follows hclosing one_pos
      apply expression_of_operand (by simp)
      rw [List.append_assoc, List.cons_append, List.singleton_append, operand, hinner]
  | @negate _ ts t _ ih =>
      have hinner : expression 6 (ts ++ rest) = some (t, rest) := by
        rw [ih le_rfl (follows_mono (follows_tight rest) (by norm_num))]
        exact climb_of_follows (follows_tight rest) (by norm_num)
      apply expression_of_operand (List.cons_ne_nil _ _)
      rw [List.cons_append, operand, hinner]
  | @binary level o ls rs l r ho _ _ ihl ihr =>
      have hright : expression (o.precedence + 1) (rs ++ rest) = some (r, rest) := by
        rw [ihr le_rfl (follows_mono hrest (by omega))]
        exact climb_of_follows hrest (by omega)
      have hshorter : rest.length ≤ (rs ++ rest).length := by
        rw [List.length_append]
        omega
      have hfollows : Follows o.precedence (.operator o :: (rs ++ rest)) := le_refl o.precedence
      rw [List.append_assoc, List.cons_append, ihl (hleast.trans ho) hfollows, climb,
        if_pos (hleast.trans ho), hright]
      exact if_pos hshorter

/-- The reader finds the tree of every derivation. -/
theorem Derives.expression_eq (h : Derives 1 ts t) : expression 1 ts = some (t, []) := by
  have hend : Follows 1 [] := trivial
  rw [← List.append_nil ts, h.expression_append le_rfl hend]
  rw [climb]
  simp

end Reading

end ChartLowering.Expression
