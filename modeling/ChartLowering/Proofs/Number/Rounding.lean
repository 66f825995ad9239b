import ChartLowering.Number.Shortest
import Mathlib.Algebra.Order.Field.Rat
import Mathlib.Algebra.Order.Ring.Abs
import Mathlib.Data.Nat.Log
import Mathlib.Tactic.FieldSimp
import Mathlib.Tactic.LinearCombination
import Mathlib.Tactic.Linarith
import Mathlib.Tactic.NormNum
import Mathlib.Tactic.Positivity
import Mathlib.Tactic.Ring

/-!
# Rounding to doubles

Fractions and decimals are rounded to the double whose interval they lie in: from half way to the
next smaller double to half way to the next greater one, the ends going to even significands.
-/

namespace ChartLowering

/-- The number that a decimal stands for. -/
def Decimal.value (d : Decimal) : ℚ := d.digits * 10 ^ d.exponent

namespace Binary64

/-- The exact value of a finite double. -/
def value : Binary64 → ℚ
  | finite negative significand exponent =>
      (if negative then -1 else 1) * (significand * 2 ^ exponent)
  | _ => 0

/-- A finite double in the only form that it has: with 53 bits, or with the least exponent. -/
def Proper : Binary64 → Prop
  | finite _ significand exponent =>
      minExponent ≤ exponent ∧ exponent ≤ maxExponent ∧ significand < 2 ^ 53 ∧
        (exponent = minExponent ∨ 2 ^ 52 ≤ significand)
  | _ => False

section Steps

theorem two_zpow_pos (e : ℤ) : (0 : ℚ) < 2 ^ e := zpow_pos (by norm_num) e

theorem two_zpow_succ (e : ℤ) : (2 : ℚ) ^ (e + 1) = 2 * 2 ^ e := by
  rw [zpow_add₀ (by norm_num), zpow_one, mul_comm]

variable {num den n d s : ℕ} {e : ℤ}

theorem scaleDown_pos (hden : 0 < den) : 0 < (scaleDown num den e).2 := by
  unfold scaleDown
  split
  · exact Nat.mul_pos hden (Nat.pow_pos (by norm_num))
  · exact hden

theorem scaleDown_div (num den : ℕ) (e : ℤ) :
    ((scaleDown num den e).1 : ℚ) / (scaleDown num den e).2 = num / den / 2 ^ e := by
  unfold scaleDown
  split
  · rename_i h
    obtain ⟨k, rfl⟩ := Int.eq_ofNat_of_zero_le h
    simp [div_div]
  · rename_i h
    obtain ⟨k, rfl⟩ : ∃ k : ℕ, e = -(k : ℤ) := ⟨(-e).toNat, by omega⟩
    simp [div_eq_mul_inv, mul_right_comm]

theorem roundHalfEven_mem (n d : ℕ) :
    roundHalfEven n d = n / d ∨ roundHalfEven n d = n / d + 1 := by
  rw [roundHalfEven]
  split
  · exact .inl rfl
  · split
    · exact .inr rfl
    · split
      · exact .inl rfl
      · exact .inr rfl

/-- A quotient is rounded to a number at most half away, and if it is half away to an even one. -/
theorem roundHalfEven_eq (hd : 0 < d) (hlow : (s : ℚ) - 1 / 2 ≤ n / d)
    (hhigh : (n : ℚ) / d ≤ s + 1 / 2)
    (htie : s % 2 = 0 ∨ (s : ℚ) - 1 / 2 < n / d ∧ (n : ℚ) / d < s + 1 / 2) :
    roundHalfEven n d = s := by
  have hd' : (0 : ℚ) < d := by exact_mod_cast hd
  have hlow : 2 * (s * d) ≤ 2 * n + d := by
    rw [le_div_iff₀ hd'] at hlow
    have hlow : (2 * (s * d) : ℚ) ≤ 2 * n + d := by linarith
    exact_mod_cast hlow
  have hhigh : 2 * n ≤ 2 * (s * d) + d := by
    rw [div_le_iff₀ hd'] at hhigh
    have hhigh : (2 * n : ℚ) ≤ 2 * (s * d) + d := by linarith
    exact_mod_cast hhigh
  have htie : s % 2 = 0 ∨ 2 * (s * d) < 2 * n + d ∧ 2 * n < 2 * (s * d) + d := by
    refine htie.imp_right fun ⟨hl, hh⟩ ↦ ?_
    rw [lt_div_iff₀ hd'] at hl
    rw [div_lt_iff₀ hd'] at hh
    have hl : (2 * (s * d) : ℚ) < 2 * n + d := by linarith
    have hh : (2 * n : ℚ) < 2 * (s * d) + d := by linarith
    exact ⟨by exact_mod_cast hl, by exact_mod_cast hh⟩
  have hsplit := Nat.div_add_mod n d
  have hrest := Nat.mod_lt n hd
  -- Only the two numbers around the quotient are near enough.
  have hs : s = n / d ∨ s = n / d + 1 := by
    rcases lt_trichotomy s (n / d) with hless | hsame | hmore
    · have hprod : (s + 1) * d ≤ n / d * d := Nat.mul_le_mul_right d hless
      rw [Nat.add_mul] at hprod
      rw [Nat.mul_comm d] at hsplit
      omega
    · exact .inl hsame
    · have hle : s ≤ n / d + 1 := by
        by_contra hgt
        have hprod : (n / d + 2) * d ≤ s * d := Nat.mul_le_mul_right d (by omega)
        rw [Nat.add_mul] at hprod
        rw [Nat.mul_comm d] at hsplit
        omega
      omega
  rw [roundHalfEven]
  rcases hs with rfl | rfl
  · rw [Nat.mul_comm d] at hsplit
    split
    · rfl
    · split
      · omega
      · split <;> omega
  · rw [Nat.mul_comm d] at hsplit
    rw [Nat.add_mul] at hlow hhigh htie
    split
    · omega
    · split
      · rfl
      · split <;> omega

/-- How many bits a quotient has over a power of two. -/
theorem scaleDown_quotient_lt_iff (hden : 0 < den) (bits : ℕ) :
    (scaleDown num den e).1 / (scaleDown num den e).2 < 2 ^ bits ↔
      (num : ℚ) / den < 2 ^ bits * 2 ^ e := by
  have hpos : 0 < (scaleDown num den e).2 := scaleDown_pos hden
  have hpos' : (0 : ℚ) < (scaleDown num den e).2 := by exact_mod_cast hpos
  have hcast : (scaleDown num den e).1 < 2 ^ bits * (scaleDown num den e).2 ↔
      ((scaleDown num den e).1 : ℚ) < 2 ^ bits * (scaleDown num den e).2 := by norm_cast
  rw [Nat.div_lt_iff_lt_mul hpos, hcast, ← div_lt_iff₀ hpos', scaleDown_div,
    div_lt_iff₀ (two_zpow_pos e)]

/-- Before it is adjusted, the exponent leaves a quotient of 52 or 53 bits. -/
theorem guess_bounds (hnum : 0 < num) (hden : 0 < den) :
    (2 : ℚ) ^ 51 * 2 ^ ((Nat.log2 num : ℤ) - Nat.log2 den - 52) < num / den ∧
      (num : ℚ) / den < 2 ^ 53 * 2 ^ ((Nat.log2 num : ℤ) - Nat.log2 den - 52) := by
  have hden' : (0 : ℚ) < den := by exact_mod_cast hden
  have hlow : ((2 ^ Nat.log2 num : ℕ) : ℚ) ≤ num := by
    exact_mod_cast Nat.log2_self_le hnum.ne'
  have hhigh : (num : ℚ) < ((2 ^ (Nat.log2 num + 1) : ℕ) : ℚ) := by
    exact_mod_cast Nat.lt_log2_self
  have hlow' : ((2 ^ Nat.log2 den : ℕ) : ℚ) ≤ den := by
    exact_mod_cast Nat.log2_self_le hden.ne'
  have hhigh' : (den : ℚ) < ((2 ^ (Nat.log2 den + 1) : ℕ) : ℚ) := by
    exact_mod_cast Nat.lt_log2_self
  push_cast at hlow hhigh hlow' hhigh'
  have hscale : (2 : ℚ) ^ ((Nat.log2 num : ℤ) - Nat.log2 den - 52) =
      2 ^ Nat.log2 num / 2 ^ Nat.log2 den / 2 ^ 52 := by
    rw [zpow_sub₀ (by norm_num), zpow_sub₀ (by norm_num), zpow_natCast, zpow_natCast]
    norm_num
  have hposn : (0 : ℚ) < 2 ^ Nat.log2 num := by positivity
  have hposd : (0 : ℚ) < 2 ^ Nat.log2 den := by positivity
  rw [pow_succ] at hhigh hhigh'
  rw [hscale, lt_div_iff₀ hden', div_lt_iff₀ hden']
  constructor
  · calc (2 : ℚ) ^ 51 * (2 ^ Nat.log2 num / 2 ^ Nat.log2 den / 2 ^ 52) * den
        = 2 ^ Nat.log2 num * (den / (2 ^ Nat.log2 den * 2)) := by ring
      _ < 2 ^ Nat.log2 num * 1 := by
          have hless : (den : ℚ) / (2 ^ Nat.log2 den * 2) < 1 :=
            (div_lt_one (by positivity)).2 hhigh'
          exact mul_lt_mul_of_pos_left hless hposn
      _ ≤ num := by rwa [mul_one]
  · calc (num : ℚ) < 2 ^ Nat.log2 num * 2 * 1 := by rwa [mul_one]
      _ ≤ 2 ^ Nat.log2 num * 2 * (den / 2 ^ Nat.log2 den) := by
          have hmore : (1 : ℚ) ≤ den / 2 ^ Nat.log2 den := (one_le_div hposd).2 hlow'
          exact mul_le_mul_of_nonneg_left hmore (by positivity)
      _ = 2 ^ 53 * (2 ^ Nat.log2 num / 2 ^ Nat.log2 den / 2 ^ 52) * den := by ring

/-- The exponent is the one that leaves 53 bits, or else the least one. -/
theorem exponentOf_spec (hnum : 0 < num) (hden : 0 < den) :
    minExponent ≤ exponentOf num den ∧
      (num : ℚ) / den < 2 ^ 53 * 2 ^ exponentOf num den ∧
      (exponentOf num den = minExponent ∨ 2 ^ 52 * 2 ^ exponentOf num den ≤ (num : ℚ) / den) := by
  obtain ⟨hlow, hhigh⟩ := guess_bounds hnum hden
  have hsplit : exponentOf num den = max minExponent
      (if (scaleDown num den ((Nat.log2 num : ℤ) - Nat.log2 den - 52)).1 /
          (scaleDown num den ((Nat.log2 num : ℤ) - Nat.log2 den - 52)).2 < 2 ^ 52
        then (Nat.log2 num : ℤ) - Nat.log2 den - 52 - 1
        else (Nat.log2 num : ℤ) - Nat.log2 den - 52) := rfl
  generalize (Nat.log2 num : ℤ) - Nat.log2 den - 52 = guess at hlow hhigh hsplit
  have hpred : (2 : ℚ) ^ guess = 2 * 2 ^ (guess - 1) := by
    rw [← two_zpow_succ, sub_add_cancel]
  -- The exponent that leaves 53 bits, which may be less than the least one.
  obtain ⟨exact, hexact, hle, hlt⟩ : ∃ exact : ℤ, exponentOf num den = max minExponent exact ∧
      2 ^ 52 * 2 ^ exact ≤ (num : ℚ) / den ∧ (num : ℚ) / den < 2 ^ 53 * 2 ^ exact := by
    rw [hsplit]
    split
    · rename_i hsmall
      rw [scaleDown_quotient_lt_iff hden, hpred] at hsmall
      rw [hpred] at hlow
      exact ⟨guess - 1, rfl, by linarith, by linarith⟩
    · rename_i hlarge
      rw [scaleDown_quotient_lt_iff hden, not_lt] at hlarge
      exact ⟨guess, rfl, hlarge, hhigh⟩
  rw [hexact]
  refine ⟨le_max_left _ _, ?_, ?_⟩
  · have hmono : (2 : ℚ) ^ exact ≤ 2 ^ max minExponent exact :=
      zpow_le_zpow_right₀ (by norm_num) (le_max_right _ _)
    linarith
  · rcases le_total exact minExponent with h | h
    · exact .inl (max_eq_left h)
    · right
      rwa [max_eq_right h]

/-- Only one exponent leaves 53 bits, or fewer if it is the least one. -/
theorem exponentOf_eq (hnum : 0 < num) (hden : 0 < den) (hleast : minExponent ≤ e)
    (hlt : (num : ℚ) / den < 2 ^ 53 * 2 ^ e)
    (hle : e = minExponent ∨ 2 ^ 52 * 2 ^ e ≤ (num : ℚ) / den) : exponentOf num den = e := by
  obtain ⟨hleast', hlt', hle'⟩ := exponentOf_spec hnum hden
  -- Of two different exponents the greater one leaves too few bits.
  have hno {a b : ℤ} (hab : a < b) (ha : (num : ℚ) / den < 2 ^ 53 * 2 ^ a)
      (hb : 2 ^ 52 * 2 ^ b ≤ (num : ℚ) / den) : False := by
    have hmono : (2 : ℚ) ^ (a + 1) ≤ 2 ^ b := zpow_le_zpow_right₀ (by norm_num) hab
    rw [two_zpow_succ] at hmono
    linarith
  rcases lt_trichotomy (exponentOf num den) e with h | h | h
  · rcases hle with rfl | hle
    · omega
    · exact (hno h hlt' hle).elim
  · exact h
  · rcases hle' with heq | hle'
    · omega
    · exact (hno h hlt hle').elim

end Steps

section Intervals

variable {negative : Bool} {num den s : ℕ} {e : ℤ} {v : ℚ}

/-- How far the interval of a double reaches down, in quarters of its last place. -/
def quartersBelow (s : ℕ) (e : ℤ) : ℕ := if s = 2 ^ 52 ∧ minExponent < e then 1 else 2

/-- The numbers that are rounded to the double `s * 2 ^ e`. -/
def Rounds (s : ℕ) (e : ℤ) (v : ℚ) : Prop :=
  ((s : ℚ) - quartersBelow s e / 4) * 2 ^ e ≤ v ∧ v ≤ (s + 1 / 2) * 2 ^ e ∧
    (s % 2 = 0 ∨ ((s : ℚ) - quartersBelow s e / 4) * 2 ^ e < v ∧ v < (s + 1 / 2) * 2 ^ e)

theorem quartersBelow_le (s : ℕ) (e : ℤ) : (quartersBelow s e : ℚ) ≤ 2 := by
  rw [quartersBelow]
  split <;> norm_num

theorem Rounds.pos (hs : 0 < s) (h : Rounds s e v) : 0 < v := by
  have hone : (1 : ℚ) ≤ s := by exact_mod_cast hs
  have hquarters := quartersBelow_le s e
  have hbelow : 0 < (s : ℚ) - quartersBelow s e / 4 := by linarith
  exact lt_of_lt_of_le (mul_pos hbelow (two_zpow_pos e)) h.1

theorem rounds_self (s : ℕ) (e : ℤ) : Rounds s e (s * 2 ^ e) := by
  have hpos := two_zpow_pos e
  have hquarters : (0 : ℚ) < quartersBelow s e := by
    rw [quartersBelow]
    split <;> norm_num
  have hlow : ((s : ℚ) - quartersBelow s e / 4) * 2 ^ e < s * 2 ^ e :=
    mul_lt_mul_of_pos_right (by linarith) hpos
  have hhigh : (s : ℚ) * 2 ^ e < (s + 1 / 2) * 2 ^ e := mul_lt_mul_of_pos_right (by linarith) hpos
  exact ⟨hlow.le, hhigh.le, .inr ⟨hlow, hhigh⟩⟩

/-- Rounding at the exponent that has been found, with what follows if all bits are used up. -/
theorem ofFraction_of_round {significand : ℕ} {exponent : ℤ} (hnum : 0 < num)
    (hexponent : exponentOf num den = exponent)
    (hround : roundHalfEven (scaleDown num den exponent).1 (scaleDown num den exponent).2 =
      significand) :
    ofFraction negative num den =
      if significand = 2 ^ 53 then
        if maxExponent < exponent + 1 then infinite negative
        else finite negative (2 ^ 52) (exponent + 1)
      else if maxExponent < exponent then infinite negative
      else finite negative significand exponent := by
  rw [ofFraction, if_neg hnum.ne']
  dsimp only
  rw [hexponent, hround]
  by_cases h : significand = 2 ^ 53
  · have hfull : significand = Nat.pow 2 53 := h
    rw [if_pos hfull, if_pos h]
    rfl
  · have hfull : significand ≠ Nat.pow 2 53 := h
    rw [if_neg hfull, if_neg h]

/-- A fraction is rounded to the double in whose interval it lies. -/
theorem ofFraction_eq (hproper : (finite negative s e).Proper) (hnum : 0 < num) (hden : 0 < den)
    (h : Rounds s e (num / den)) : ofFraction negative num den = finite negative s e := by
  obtain ⟨hleast, hmost, hbits, hnormal⟩ := hproper
  obtain ⟨hlow, hhigh, htie⟩ := h
  have hpos := two_zpow_pos e
  have hpred : (2 : ℚ) ^ e = 2 * 2 ^ (e - 1) := by rw [← two_zpow_succ, sub_add_cancel]
  by_cases hunder : s = 2 ^ 52 ∧ minExponent < e ∧ (num : ℚ) / den < 2 ^ 52 * 2 ^ e
  · -- Below a power of two the bits are used up at the exponent before.
    obtain ⟨rfl, hgreater, hless⟩ := hunder
    rw [quartersBelow, if_pos ⟨rfl, hgreater⟩] at hlow
    push_cast at hlow
    have hexponent : exponentOf num den = e - 1 := by
      apply exponentOf_eq hnum hden (by omega)
      · linarith
      · right
        linarith
    have hround : roundHalfEven (scaleDown num den (e - 1)).1 (scaleDown num den (e - 1)).2 =
        2 ^ 53 := by
      apply roundHalfEven_eq (scaleDown_pos hden)
      · rw [scaleDown_div, le_div_iff₀ (two_zpow_pos _)]
        push_cast
        linarith
      · rw [scaleDown_div, div_le_iff₀ (two_zpow_pos _)]
        push_cast
        linarith
      · left
        norm_num
    rw [ofFraction_of_round hnum hexponent hround, if_pos rfl, sub_add_cancel, if_neg (by omega)]
  · have hquarters := quartersBelow_le s e
    have hexponent : exponentOf num den = e := by
      have hbits : (s : ℚ) + 1 ≤ 2 ^ 53 := by exact_mod_cast hbits
      apply exponentOf_eq hnum hden hleast
      · calc (num : ℚ) / den ≤ (s + 1 / 2) * 2 ^ e := hhigh
          _ < 2 ^ 53 * 2 ^ e := mul_lt_mul_of_pos_right (by linarith) hpos
      · rcases hnormal with hleast | hfull
        · exact .inl hleast
        · by_cases heq : e = minExponent
          · exact .inl heq
          · right
            rcases hfull.lt_or_eq with hmore | rfl
            · have hmore : (2 ^ 52 : ℚ) + 1 ≤ s := by exact_mod_cast hmore
              calc (2 : ℚ) ^ 52 * 2 ^ e ≤ (s - quartersBelow s e / 4) * 2 ^ e :=
                    mul_le_mul_of_nonneg_right (by linarith) hpos.le
                _ ≤ num / den := hlow
            · exact not_lt.1 fun hless ↦ hunder ⟨rfl, lt_of_le_of_ne hleast (Ne.symm heq), hless⟩
    have hround : roundHalfEven (scaleDown num den e).1 (scaleDown num den e).2 = s := by
      have hreach : ((s : ℚ) - 1 / 2) * 2 ^ e ≤ (s - quartersBelow s e / 4) * 2 ^ e :=
        mul_le_mul_of_nonneg_right (by linarith) hpos.le
      apply roundHalfEven_eq (scaleDown_pos hden)
      · rw [scaleDown_div, le_div_iff₀ hpos]
        exact hreach.trans hlow
      · rw [scaleDown_div, div_le_iff₀ hpos]
        exact hhigh
      · rw [scaleDown_div, lt_div_iff₀ hpos, div_lt_iff₀ hpos]
        exact htie.imp_right fun ⟨hl, hh⟩ ↦ ⟨hreach.trans_lt hl, hh⟩
    rw [ofFraction_of_round hnum hexponent hround, if_neg (by omega), if_neg (by omega)]

theorem zero_proper (negative : Bool) : (zero negative).Proper :=
  ⟨le_rfl, by decide, by norm_num, .inl rfl⟩

/-- Rounding gives doubles in the form that they have. -/
theorem ofFraction_proper (negative : Bool) (num : ℕ) (hden : 0 < den) :
    ofFraction negative num den = infinite negative ∨ (ofFraction negative num den).Proper := by
  rcases Nat.eq_zero_or_pos num with rfl | hnum
  · right
    rw [ofFraction, if_pos rfl]
    exact zero_proper negative
  · obtain ⟨hleast, hlt, hle⟩ := exponentOf_spec hnum hden
    obtain ⟨e, hexponent⟩ : ∃ e, exponentOf num den = e := ⟨_, rfl⟩
    rw [hexponent] at hleast hlt hle
    have hfew := (scaleDown_quotient_lt_iff hden 53).2 hlt
    have hmany : e = minExponent ∨
        2 ^ 52 ≤ (scaleDown num den e).1 / (scaleDown num den e).2 := by
      refine hle.imp_right fun h ↦ ?_
      rwa [← not_lt, scaleDown_quotient_lt_iff hden, not_lt]
    have hround := roundHalfEven_mem (scaleDown num den e).1 (scaleDown num den e).2
    rw [ofFraction_of_round hnum hexponent rfl]
    split
    · split
      · exact .inl rfl
      · exact .inr ⟨by omega, by omega, by norm_num, .inr le_rfl⟩
    · split
      · exact .inl rfl
      · exact .inr ⟨hleast, by omega, by omega, hmany.imp_right fun h ↦ by omega⟩

theorem ofInt?_proper {i : ℤ} {x : Binary64} (h : ofInt? i = some x) : x.Proper := by
  have hround := ofFraction_proper (decide (i < 0)) i.natAbs one_pos
  rw [ofInt?] at h
  split at h
  · cases h
  · rename_i hfinite
    obtain rfl := Option.some.inj h
    exact hround.resolve_left fun heq ↦ hfinite _ heq

theorem ofDecimal_proper (negative : Bool) (digits : ℕ) (exponent : ℤ) :
    ofDecimal negative digits exponent = infinite negative ∨
      (ofDecimal negative digits exponent).Proper := by
  rw [ofDecimal]
  split
  · exact .inr (zero_proper negative)
  · dsimp only
    split
    · exact .inl rfl
    · split
      · exact .inr (zero_proper negative)
      · split
        · exact ofFraction_proper negative _ one_pos
        · exact ofFraction_proper negative _ (Nat.pow_pos (by norm_num))

/-- What is rounded to a double is neither too great nor too small for one. -/
theorem Rounds.bounds (hproper : (finite negative s e).Proper) (hs : 0 < s) (h : Rounds s e v) :
    (2 : ℚ) ^ (-1075 : ℤ) ≤ v ∧ v < 2 ^ (1024 : ℤ) := by
  obtain ⟨hleast, hmost, hbits, -⟩ := hproper
  obtain ⟨hlow, hhigh, -⟩ := h
  have hone : (1 : ℚ) ≤ s := by exact_mod_cast hs
  have hbits : (s : ℚ) + 1 ≤ 2 ^ 53 := by exact_mod_cast hbits
  have hquarters := quartersBelow_le s e
  have hmin : (2 : ℚ) ^ (-1074 : ℤ) ≤ 2 ^ e := zpow_le_zpow_right₀ (by norm_num) hleast
  have hmax : (2 : ℚ) ^ e ≤ 2 ^ (971 : ℤ) := zpow_le_zpow_right₀ (by norm_num) hmost
  constructor
  · calc (2 : ℚ) ^ (-1075 : ℤ) = 1 / 2 * (2 * 2 ^ (-1075 : ℤ)) := by ring
      _ = 1 / 2 * 2 ^ (-1074 : ℤ) := by rw [← two_zpow_succ]; rfl
      _ ≤ (s - quartersBelow s e / 4) * 2 ^ e :=
          mul_le_mul (by linarith) hmin (two_zpow_pos _).le (by linarith)
      _ ≤ v := hlow
  · calc v ≤ (s + 1 / 2) * 2 ^ e := hhigh
      _ < 2 ^ 53 * 2 ^ e := mul_lt_mul_of_pos_right (by linarith) (two_zpow_pos _)
      _ ≤ 2 ^ 53 * 2 ^ (971 : ℤ) := mul_le_mul_of_nonneg_left hmax (by norm_num)
      _ = 2 ^ (1024 : ℤ) := by
          rw [← zpow_natCast, ← zpow_add₀ (by norm_num)]
          rfl

/-- Three binary digits are less than a decimal one. -/
theorem two_zpow_le_ten_zpow {k m : ℤ} (hm : 0 ≤ m) (h : k ≤ 3 * m) : (2 : ℚ) ^ k ≤ 10 ^ m := by
  calc (2 : ℚ) ^ k ≤ 2 ^ (3 * m) := zpow_le_zpow_right₀ (by norm_num) h
    _ = 8 ^ m := by
        rw [zpow_mul]
        norm_num
    _ ≤ 10 ^ m := zpow_le_zpow_left₀ hm (by norm_num) (by norm_num)

theorem lt_ten_zpow_log2 (n : ℕ) : (n : ℚ) < 10 ^ ((Nat.log2 n : ℤ) / 3 + 1) := by
  have hbits : (n : ℚ) < ((2 ^ (Nat.log2 n + 1) : ℕ) : ℚ) := by exact_mod_cast Nat.lt_log2_self
  rw [Nat.cast_pow, Nat.cast_ofNat, ← zpow_natCast] at hbits
  exact hbits.trans_le (two_zpow_le_ten_zpow (by omega) (by push_cast; omega))

/-- Neither of the shortcuts for decimals far outside the range of a double is taken. -/
theorem ofDecimal_eq {d : Decimal} (hproper : (finite negative s e).Proper) (hs : 0 < s)
    (h : Rounds s e d.value) :
    ofDecimal negative d.digits d.exponent = finite negative s e := by
  obtain ⟨digits, exponent⟩ := d
  have hvalue : (0 : ℚ) < digits * 10 ^ exponent := h.pos hs
  obtain ⟨hmin, hmax⟩ := h.bounds hproper hs
  rw [Decimal.value] at h hmin hmax
  dsimp only at h hmin hmax ⊢
  have hten : (0 : ℚ) < 10 ^ exponent := zpow_pos (by norm_num) _
  have hdigits : 0 < digits := by
    rcases Nat.eq_zero_or_pos digits with rfl | hdigits
    · simp at hvalue
    · exact hdigits
  have hone : (1 : ℚ) ≤ digits := by exact_mod_cast hdigits
  have hgreat : ¬ 400 < exponent := by
    intro hgreat
    have hfar : (2 : ℚ) ^ (1024 : ℤ) ≤ 10 ^ (400 : ℤ) := two_zpow_le_ten_zpow (by omega) (by omega)
    have hpow : (10 : ℚ) ^ (400 : ℤ) ≤ 10 ^ exponent := zpow_le_zpow_right₀ (by norm_num) hgreat.le
    have hprod : (10 : ℚ) ^ exponent ≤ digits * 10 ^ exponent :=
      le_mul_of_one_le_left hten.le hone
    exact absurd hmax (not_lt.2 ((hfar.trans hpow).trans hprod))
  have hsmall : ¬ exponent + (Nat.log2 digits : ℤ) / 3 < -400 := by
    intro hsmall
    have hfar : (10 : ℚ) ^ (-400 : ℤ) ≤ 2 ^ (-1075 : ℤ) := by
      rw [zpow_neg, zpow_neg]
      exact inv_anti₀ (two_zpow_pos _) (two_zpow_le_ten_zpow (by omega) (by omega))
    have hpow : (10 : ℚ) ^ ((Nat.log2 digits : ℤ) / 3 + 1 + exponent) ≤ 10 ^ (-400 : ℤ) :=
      zpow_le_zpow_right₀ (by norm_num) (by omega)
    have hprod := mul_lt_mul_of_pos_right (lt_ten_zpow_log2 digits) hten
    rw [← zpow_add₀ (by norm_num)] at hprod
    exact absurd hmin (not_le.2 ((hprod.trans_le hpow).trans_le hfar))
  rw [ofDecimal, if_neg hdigits.ne']
  dsimp only
  rw [if_neg hgreat, if_neg hsmall]
  split
  · rename_i hnonneg
    obtain ⟨k, rfl⟩ := Int.eq_ofNat_of_zero_le hnonneg
    apply ofFraction_eq hproper (Nat.mul_pos hdigits (Nat.pow_pos (by norm_num))) one_pos
    simpa using h
  · rename_i hneg
    obtain ⟨k, rfl⟩ : ∃ k : ℕ, exponent = -(k : ℤ) := ⟨(-exponent).toNat, by omega⟩
    apply ofFraction_eq hproper hdigits (Nat.pow_pos (by norm_num))
    simpa [div_eq_mul_inv] using h

end Intervals

end Binary64

end ChartLowering
