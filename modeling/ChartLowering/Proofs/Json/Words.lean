import ChartLowering.Json.Write

/-!
# Bare words

What JSON writes neither between quotes nor in brackets: the names and the numbers. They are made of
letters, digits, signs and points, so that the character after one of them ends it.
-/

namespace ChartLowering

/-- A character of a name or a number. -/
def isBare (c : Char) : Bool := c.isAlphanum || c == '-' || c == '+' || c == '.'

/-- A text of such characters. -/
def IsBare (s : String) : Prop := ∀ c ∈ s.toList, isBare c = true

instance (s : String) : Decidable (IsBare s) := List.decidableBAll _ s.toList

/-- Characters that do not go on with a bare word. -/
def Json.Ends (cs : List Char) : Prop := ∀ c ∈ cs.head?, isBare c = false

namespace IsBare

theorem append {s t : String} (hs : IsBare s) (ht : IsBare t) : IsBare (s ++ t) := by
  intro c hc
  rw [String.toList_append, List.mem_append] at hc
  exact hc.elim (hs c) (ht c)

theorem ofList {cs : List Char} (h : ∀ c ∈ cs, isBare c = true) : IsBare (String.ofList cs) := by
  intro c hc
  rw [String.toList_ofList] at hc
  exact h c hc

theorem ite {p : Prop} [Decidable p] {s t : String} (hs : IsBare s) (ht : IsBare t) :
    IsBare (if p then s else t) := by
  split
  · exact hs
  · exact ht

theorem nat (n : Nat) : IsBare (toString n) := by
  intro c hc
  rw [Nat.toString_eq_ofList_toDigits, String.toList_ofList] at hc
  have hdigit := Nat.isDigit_of_mem_toDigits (by decide) (by decide) hc
  simp [isBare, Char.isAlphanum, hdigit]

theorem int (i : Int) : IsBare (toString i) := by
  cases i with
  | ofNat n => exact nat n
  | negSucc n => exact append (by decide) (nat (n + 1))

theorem zeros (n : Nat) : IsBare (String.ofList (List.replicate n '0')) :=
  ofList fun c hc ↦ (List.eq_of_mem_replicate hc) ▸ by decide

theorem take {s : String} (h : IsBare s) (n : Nat) : IsBare (String.ofList (s.toList.take n)) :=
  ofList fun c hc ↦ h c (List.mem_of_mem_take hc)

theorem drop {s : String} (h : IsBare s) (n : Nat) : IsBare (String.ofList (s.toList.drop n)) :=
  ofList fun c hc ↦ h c (List.mem_of_mem_drop hc)

theorem signText (negative : Bool) : IsBare (Binary64.signText negative) :=
  ite (by decide) (by decide)

theorem exponentText (e : Int) : IsBare (exponentText e) :=
  append (ite (by decide) (by decide)) (ite (append (by decide) (nat _)) (nat _))

theorem positional (d : Decimal) : IsBare d.positional := by
  unfold Decimal.positional
  exact ite (append (append (nat _) (zeros _)) (by decide))
    (ite (append (append (by decide) (zeros _)) (nat _))
      (append (append (take (nat _) _) (by decide)) (drop (nat _) _)))

theorem scientific (d : Decimal) : IsBare d.scientific := by
  unfold Decimal.scientific
  exact append (append (append (take (nat _) _)
    (ite (by decide) (append (by decide) (drop (nat _) _)))) (by decide)) (exponentText _)

theorem float (x : Binary64) : IsBare x.text := by
  unfold Binary64.text
  split
  · decide
  · exact append (signText _) (by decide)
  · exact append (signText _) (by decide)
  · exact append (signText _) (ite (positional _) (scientific _))

theorem floatText (x : Binary64) : IsBare (Json.floatText x) := by
  unfold Json.floatText
  split
  · decide
  · exact append (signText _) (by decide)
  · exact float _

end IsBare

theorem toDigits_inj {m n : Nat} (h : Nat.toDigits 10 m = Nat.toDigits 10 n) : m = n := by
  rw [← Nat.ofDigitChars_ten_toDigits (n := m), h, Nat.ofDigitChars_ten_toDigits]

theorem toList_nat (n : Nat) : (toString n).toList = Nat.toDigits 10 n := by
  rw [Nat.toString_eq_ofList_toDigits, String.toList_ofList]

theorem toList_int (i : Int) :
    (toString i).toList = (if i < 0 then ['-'] else []) ++ Nat.toDigits 10 i.natAbs := by
  cases i with
  | ofNat n => exact toList_nat n
  | negSucc n =>
      have htext : toString (Int.negSucc n) = "-" ++ toString (n + 1) := rfl
      rw [htext, String.toList_append, toList_nat, if_pos (Int.negSucc_lt_zero n)]
      rfl

/-- The first character of a number is a sign or a digit. -/
theorem head?_int (i : Int) : ∀ c ∈ (toString i).toList.head?, c = '-' ∨ c.isDigit = true := by
  intro c hc
  rw [toList_int] at hc
  split at hc
  · exact .inl (Option.some.inj hc).symm
  · exact .inr (Nat.isDigit_of_mem_toDigits (by decide) (by decide) (List.mem_of_mem_head? hc))

theorem toString_int_inj {i j : Int} (h : toString i = toString j) : i = j := by
  have hchars : (if i < 0 then ['-'] else []) ++ Nat.toDigits 10 i.natAbs =
      (if j < 0 then ['-'] else []) ++ Nat.toDigits 10 j.natAbs := by
    rw [← toList_int, ← toList_int, h]
  -- A sign is no digit.
  have hsign : ∀ {m n : Nat}, '-' :: Nat.toDigits 10 m ≠ Nat.toDigits 10 n := by
    intro m n heq
    have hdigit := Nat.isDigit_of_mem_toDigits (n := n) (by decide) (by decide)
      (heq ▸ List.mem_cons_self)
    exact absurd hdigit (by decide)
  by_cases hi : i < 0 <;> by_cases hj : j < 0
  · have habs : i.natAbs = j.natAbs := toDigits_inj (by simpa [hi, hj] using hchars)
    omega
  · exact (hsign (by simpa [hi, hj] using hchars)).elim
  · exact (hsign (by simpa [hi, hj] using hchars.symm)).elim
  · have habs : i.natAbs = j.natAbs := toDigits_inj (by simpa [hi, hj] using hchars)
    omega

theorem nat_ne_empty (n : Nat) : toString n ≠ "" := by
  rw [Nat.toString_eq_ofList_toDigits]
  intro h
  exact Nat.toDigits_ne_nil (String.ofList_eq_empty_iff.1 h)

theorem int_ne_empty (i : Int) : toString i ≠ "" := by
  cases i with
  | ofNat n => exact nat_ne_empty n
  | negSucc n =>
      show "-" ++ toString (n + 1) ≠ ""
      simp

theorem Decimal.text_ne_empty (d : Decimal) : d.text ≠ "" := by
  unfold Decimal.text
  split
  · unfold Decimal.positional
    simp only
    split
    · simp
    · split <;> simp
  · simp [Decimal.scientific]

theorem floatText_ne_empty (x : Binary64) : Json.floatText x ≠ "" := by
  unfold Json.floatText
  split
  · decide
  · simp
  · unfold Binary64.text
    split
    · decide
    · simp
    · simp
    · simp [Decimal.text_ne_empty]

end ChartLowering
