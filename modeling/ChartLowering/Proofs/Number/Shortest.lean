import ChartLowering.Proofs.Number.Rounding

/-!
# Shortest decimals read back

The shortest decimal of a double is rounded to that double again. If it has been found on a grid of
few digits, it lies in the interval of the double; if not, seventeen digits come close enough.
-/

namespace ChartLowering

open Binary64

namespace Shortest

section Powers

/-- A power whose exponent is split into a numerator and a denominator. -/
theorem pow_toNat_div {b : ℚ} (e : ℤ) : b ^ e.toNat / b ^ (-e).toNat = b ^ e := by
  rcases le_total 0 e with h | h
  · obtain ⟨k, rfl⟩ := Int.eq_ofNat_of_zero_le h
    simp
  · obtain ⟨k, rfl⟩ : ∃ k : ℕ, e = -(k : ℤ) := ⟨(-e).toNat, by omega⟩
    simp

/-- The decimal digits that are counted for some binary ones are no more than there can be. -/
theorem ten_zpow_le_two_zpow {bits : ℤ} (hlow : -2000 ≤ bits) (hhigh : bits ≤ 1500) :
    (10 : ℚ) ^ (bits * 30103 / 100000 - 2) ≤ 2 ^ (bits - 1) := by
  have hten : (0 : ℚ) < 10 ^ (bits * 30103 / 100000 - 2) := zpow_pos (by norm_num) _
  have htwo := two_zpow_pos (bits - 1)
  rcases le_or_gt 1 bits with hpos | hneg
  · rw [← pow_le_pow_iff_left₀ hten.le htwo.le (by norm_num : 10 ≠ 0), ← zpow_natCast,
      ← zpow_natCast, ← zpow_mul, ← zpow_mul]
    calc (10 : ℚ) ^ ((bits * 30103 / 100000 - 2) * (10 : ℕ)) ≤ 10 ^ (3 * (bits - 1)) :=
          zpow_le_zpow_right₀ (by norm_num) (by push_cast; omega)
      _ = 1000 ^ (bits - 1) := by
          rw [zpow_mul]
          norm_num
      _ ≤ 1024 ^ (bits - 1) := zpow_le_zpow_left₀ (by omega) (by norm_num) (by norm_num)
      _ = 2 ^ ((bits - 1) * (10 : ℕ)) := by
          rw [mul_comm, zpow_mul]
          norm_num
  · rw [← pow_le_pow_iff_left₀ hten.le htwo.le (by norm_num : 93 ≠ 0), ← zpow_natCast,
      ← zpow_natCast, ← zpow_mul, ← zpow_mul]
    obtain ⟨k, hk⟩ : ∃ k : ℕ, bits - 1 = -(k : ℤ) := ⟨(1 - bits).toNat, by omega⟩
    have hpow : ((2 : ℚ) ^ 93) ^ k ≤ (10 ^ 28) ^ k :=
      pow_le_pow_left₀ (by norm_num) (by norm_num) k
    calc (10 : ℚ) ^ ((bits * 30103 / 100000 - 2) * (93 : ℕ)) ≤ 10 ^ (-(28 * (k : ℤ))) :=
          zpow_le_zpow_right₀ (by norm_num) (by push_cast; omega)
      _ = ((10 ^ 28) ^ k)⁻¹ := by
          rw [zpow_neg, zpow_mul, zpow_natCast]
          rfl
      _ ≤ ((2 ^ 93) ^ k)⁻¹ := inv_anti₀ (by positivity) hpow
      _ = 2 ^ ((bits - 1) * (93 : ℕ)) := by
          rw [hk, neg_mul, zpow_neg, mul_comm, zpow_mul, zpow_natCast]
          rfl

end Powers

section Trimming

theorem value_trim (fuel : ℕ) (d : Decimal) : (trim fuel d).value = d.value := by
  induction fuel generalizing d with
  | zero => rfl
  | succ fuel ih =>
      rw [trim]
      split
      · rename_i h
        have hdigits : d.digits = 10 * (d.digits / 10) := by omega
        have hcast : (d.digits : ℚ) = 10 * (d.digits / 10 : ℕ) := by exact_mod_cast hdigits
        rw [ih, Decimal.value, Decimal.value, hcast, zpow_add₀ (by norm_num), zpow_one]
        ring
      · rfl

end Trimming

section Intervals

variable {s : ℕ} {e : ℤ}

theorem unit_pos (s : ℕ) (e : ℤ) : (0 : ℚ) < (interval s e).unit := by
  have hpos : 0 < (interval s e).unit := Nat.pow_pos (by norm_num)
  exact_mod_cast hpos

/-- The scale of an interval over its unit is a quarter of the last place of the double. -/
theorem scale_div_unit (e : ℤ) :
    ((2 : ℚ) ^ (e - 2).toNat) / 2 ^ (2 - e).toNat = 2 ^ e / 4 := by
  have hpow := pow_toNat_div (b := 2) (e - 2)
  rw [neg_sub] at hpow
  rw [hpow, zpow_sub₀ (by norm_num)]
  norm_num

theorem middle_div (s : ℕ) (e : ℤ) :
    ((interval s e).middle : ℚ) / (interval s e).unit = s * 2 ^ e := by
  have hscale := scale_div_unit e
  show ((4 * s * 2 ^ (e - 2).toNat : ℕ) : ℚ) / ((2 ^ (2 - e).toNat : ℕ) : ℚ) = _
  push_cast
  rw [mul_div_assoc, hscale]
  ring

theorem high_div (s : ℕ) (e : ℤ) :
    ((interval s e).high : ℚ) / (interval s e).unit = (s + 1 / 2) * 2 ^ e := by
  have hscale := scale_div_unit e
  show (((4 * s + 2) * 2 ^ (e - 2).toNat : ℕ) : ℚ) / ((2 ^ (2 - e).toNat : ℕ) : ℚ) = _
  push_cast
  rw [mul_div_assoc, hscale]
  ring

theorem low_div (hs : 0 < s) (e : ℤ) :
    ((interval s e).low : ℚ) / (interval s e).unit = (s - quartersBelow s e / 4) * 2 ^ e := by
  have hscale := scale_div_unit e
  have hbelow : quartersBelow s e ≤ 4 * s := by
    rw [quartersBelow]
    split <;> omega
  show (((4 * s - quartersBelow s e) * 2 ^ (e - 2).toNat : ℕ) : ℚ) /
    ((2 ^ (2 - e).toNat : ℕ) : ℚ) = _
  push_cast [Nat.cast_sub hbelow]
  rw [mul_div_assoc, hscale]
  ring

/-- The test for what reads back compares exactly. -/
theorem holds_iff (hs : 0 < s) (d : Decimal) :
    (interval s e).holds d = true ↔ Rounds s e d.value := by
  have hunit := unit_pos s e
  have hten : (0 : ℚ) < ((10 ^ (-d.exponent).toNat : ℕ) : ℚ) := by positivity
  have hvalue : d.value = ((d.digits * (interval s e).unit * 10 ^ d.exponent.toNat : ℕ) : ℚ) /
      ((10 ^ (-d.exponent).toNat : ℕ) : ℚ) / (interval s e).unit := by
    rw [Decimal.value, ← pow_toNat_div]
    push_cast
    field_simp
  have hclosed : (interval s e).closed = decide (s % 2 = 0) := rfl
  have hpoint : (interval s e).holds d = if (interval s e).closed then
      decide ((interval s e).low * 10 ^ (-d.exponent).toNat ≤
        d.digits * (interval s e).unit * 10 ^ d.exponent.toNat) &&
      decide (d.digits * (interval s e).unit * 10 ^ d.exponent.toNat ≤
        (interval s e).high * 10 ^ (-d.exponent).toNat)
    else
      decide ((interval s e).low * 10 ^ (-d.exponent).toNat <
        d.digits * (interval s e).unit * 10 ^ d.exponent.toNat) &&
      decide (d.digits * (interval s e).unit * 10 ^ d.exponent.toNat <
        (interval s e).high * 10 ^ (-d.exponent).toNat) := rfl
  rw [hpoint, hclosed, Rounds, ← low_div hs, ← high_div, hvalue]
  generalize d.digits * (interval s e).unit * 10 ^ d.exponent.toNat = point
  generalize 10 ^ (-d.exponent).toNat = scale at hten
  simp only [div_le_div_iff_of_pos_right hunit, div_lt_div_iff_of_pos_right hunit,
    le_div_iff₀ hten, lt_div_iff₀ hten, div_le_iff₀ hten, div_lt_iff₀ hten, ← Nat.cast_mul,
    Nat.cast_le, Nat.cast_lt]
  rcases Nat.mod_two_eq_zero_or_one s with heven | hodd
  · simp [heven]
  · simp only [hodd, one_ne_zero, decide_false, Bool.false_eq_true, if_false, Bool.and_eq_true,
      decide_eq_true_eq, false_or]
    constructor
    · rintro ⟨hl, hh⟩
      exact ⟨hl.le, hh.le, hl, hh⟩
    · rintro ⟨-, -, hl, hh⟩
      exact ⟨hl, hh⟩

end Intervals

section Grids

variable {s : ℕ} {e : ℤ}

theorem abs_roundHalfEven_sub_le {n d : ℕ} (hd : 0 < d) :
    |(roundHalfEven n d : ℚ) - n / d| ≤ 1 / 2 := by
  have hd' : (0 : ℚ) < d := by exact_mod_cast hd
  have hsplit : ((d * (n / d) + n % d : ℕ) : ℚ) = n := by rw [Nat.div_add_mod]
  have hquotient : (n : ℚ) / d = (n / d : ℕ) + (n % d : ℕ) / d := by
    rw [← hsplit]
    push_cast
    field_simp
  have hnonneg : (0 : ℚ) ≤ (n % d : ℕ) / d := by positivity
  have hone : ((n % d : ℕ) : ℚ) / d ≤ 1 := by
    rw [div_le_one hd']
    exact_mod_cast (Nat.mod_lt n hd).le
  have hsmall (h : 2 * (n % d) ≤ d) : ((n % d : ℕ) : ℚ) / d ≤ 1 / 2 := by
    have h : (2 * (n % d : ℕ) : ℚ) ≤ d := by exact_mod_cast h
    rw [div_le_iff₀ hd']
    linarith
  have hlarge (h : d ≤ 2 * (n % d)) : (1 : ℚ) / 2 ≤ (n % d : ℕ) / d := by
    have h : (d : ℚ) ≤ 2 * (n % d : ℕ) := by exact_mod_cast h
    rw [le_div_iff₀ hd']
    linarith
  rw [hquotient, roundHalfEven, abs_le]
  split
  · rename_i h
    have hbound := hsmall h.le
    constructor <;> linarith
  · rename_i h
    have hbound := hlarge (not_lt.1 h)
    split
    · push_cast
      constructor <;> linarith
    · rename_i h'
      have hbound' := hsmall (not_lt.1 h')
      split
      · constructor <;> linarith
      · push_cast
        constructor <;> linarith

theorem nearer_eq (i : Interval) (exponent : ℤ) : (i.neighbours exponent).1 =
    ⟨roundHalfEven (i.middle * 10 ^ (-exponent).toNat) (i.unit * 10 ^ exponent.toNat),
      exponent⟩ := by
  simp only [Interval.neighbours, Nat.pow_eq]
  generalize i.middle * 10 ^ (-exponent).toNat = num
  generalize i.unit * 10 ^ exponent.toNat = den
  rcases roundHalfEven_mem num den with h | h
  · rw [if_pos h, h]
  · rw [if_neg (by omega), h]

/-- The nearer one of the multiples of a power of ten is at most half that power away. -/
theorem abs_nearer_sub_le (s : ℕ) (e exponent : ℤ) :
    |((interval s e).neighbours exponent).1.value - s * 2 ^ e| ≤ 10 ^ exponent / 2 := by
  have hunit := unit_pos s e
  have hten : (0 : ℚ) < 10 ^ exponent := zpow_pos (by norm_num) _
  have hden : 0 < (interval s e).unit * 10 ^ exponent.toNat := by
    have hunit : 0 < (interval s e).unit := by exact_mod_cast hunit
    positivity
  have hquotient : (((interval s e).middle * 10 ^ (-exponent).toNat : ℕ) : ℚ) /
      (((interval s e).unit * 10 ^ exponent.toNat : ℕ) : ℚ) = s * 2 ^ e / 10 ^ exponent := by
    rw [← middle_div, ← pow_toNat_div exponent]
    push_cast
    field_simp
  have hround := abs_roundHalfEven_sub_le (n := (interval s e).middle * 10 ^ (-exponent).toNat) hden
  rw [hquotient] at hround
  rw [nearer_eq, Decimal.value]
  dsimp only
  calc |(roundHalfEven _ _ : ℚ) * 10 ^ exponent - s * 2 ^ e|
      = |(roundHalfEven ((interval s e).middle * 10 ^ (-exponent).toNat)
          ((interval s e).unit * 10 ^ exponent.toNat) : ℚ) - s * 2 ^ e / 10 ^ exponent| *
          10 ^ exponent := by
        rw [← abs_of_pos hten, ← abs_mul, abs_of_pos hten]
        congr 1
        field_simp
    _ ≤ 1 / 2 * 10 ^ exponent := mul_le_mul_of_nonneg_right hround hten.le
    _ = 10 ^ exponent / 2 := by ring

/-- The search for the point starts below it and goes on only while the double is greater. -/
theorem pointFrom_spec (i : Interval) (hunit : 0 < i.unit) (fuel : ℕ) (p : ℤ) :
    i.pointFrom fuel p = p ∨
      (10 : ℚ) ^ (i.pointFrom fuel p - 1) ≤ (i.middle : ℚ) / i.unit := by
  have hunit' : (0 : ℚ) < i.unit := by exact_mod_cast hunit
  induction fuel generalizing p with
  | zero => exact .inl rfl
  | succ fuel ih =>
      rw [Interval.pointFrom]
      split
      · exact .inl rfl
      · rename_i h
        right
        rcases ih (p + 1) with heq | hle
        · have hten : (0 : ℚ) < 10 ^ (-p).toNat := by positivity
          have h : (i.unit * 10 ^ p.toNat : ℚ) ≤ i.middle * 10 ^ (-p).toNat := by
            exact_mod_cast not_lt.1 h
          rw [heq, add_sub_cancel_right, ← pow_toNat_div, div_le_div_iff₀ hten hunit']
          linarith
        · exact hle

/-- The point stands no further to the right than the double is great. -/
theorem ten_zpow_point_le {negative : Bool} (hproper : (finite negative s e).Proper) (hs : 0 < s) :
    (10 : ℚ) ^ ((interval s e).point - 1) ≤ s * 2 ^ e := by
  have hunit : 0 < (interval s e).unit := by exact_mod_cast unit_pos s e
  have hmiddle : 0 < (interval s e).middle :=
    Nat.mul_pos (Nat.mul_pos (by norm_num) hs) (Nat.pow_pos (by norm_num))
  obtain ⟨hmin, hmax⟩ := (rounds_self s e).bounds hproper hs
  obtain ⟨hlow, hhigh⟩ := guess_bounds hmiddle hunit
  rw [middle_div] at hlow hhigh
  rw [← middle_div, Interval.point]
  generalize (Nat.log2 (interval s e).middle : ℤ) - Nat.log2 (interval s e).unit = bits at *
  have hlow : (2 : ℚ) ^ (bits - 1) < s * 2 ^ e := by
    calc (2 : ℚ) ^ (bits - 1) = 2 ^ 51 * 2 ^ (bits - 52) := by
          rw [← zpow_natCast, ← zpow_add₀ (by norm_num)]
          congr 1
          push_cast
          ring
      _ < s * 2 ^ e := hlow
  have hhigh : (s : ℚ) * 2 ^ e < 2 ^ (bits + 1) := by
    calc (s : ℚ) * 2 ^ e < 2 ^ 53 * 2 ^ (bits - 52) := hhigh
      _ = 2 ^ (bits + 1) := by
          rw [← zpow_natCast, ← zpow_add₀ (by norm_num)]
          congr 1
          push_cast
          ring
  have hbits : bits - 1 < 1024 := (zpow_lt_zpow_iff_right₀ (by norm_num)).1 (hlow.trans hmax)
  have hbits' : -1075 < bits + 1 :=
    (zpow_lt_zpow_iff_right₀ (by norm_num)).1 (hmin.trans_lt hhigh)
  rcases pointFrom_spec (interval s e) hunit 4 (bits * 30103 / 100000 - 1) with heq | hle
  · rw [heq, middle_div, sub_sub]
    exact (ten_zpow_le_two_zpow (by omega) (by omega)).trans hlow.le
  · exact hle

/-- Seventeen digits are enough for every double. -/
theorem rounds_seventeen {negative : Bool} (hproper : (finite negative s e).Proper) (hs : 0 < s) :
    Rounds s e ((interval s e).neighbours ((interval s e).point - 17)).1.value := by
  have hpoint := ten_zpow_point_le hproper hs
  have hnear := abs_nearer_sub_le s e ((interval s e).point - 17)
  generalize ((interval s e).neighbours ((interval s e).point - 17)).1.value = v at *
  obtain ⟨-, -, hbits, -⟩ := hproper
  have hbits : (s : ℚ) < 2 ^ 53 := by exact_mod_cast hbits
  have hpos := two_zpow_pos e
  have hgrid : (10 : ℚ) ^ ((interval s e).point - 17) * 10 ^ 16 ≤ s * 2 ^ e := by
    calc (10 : ℚ) ^ ((interval s e).point - 17) * 10 ^ 16 = 10 ^ ((interval s e).point - 1) := by
          rw [← zpow_natCast, ← zpow_add₀ (by norm_num)]
          congr 1
          push_cast
          ring
      _ ≤ s * 2 ^ e := hpoint
  -- The distance in units of the last place.
  have hfar : |v - s * 2 ^ e| ≤ s / (2 * 10 ^ 16) * 2 ^ e := by
    calc |v - s * 2 ^ e| ≤ 10 ^ ((interval s e).point - 17) / 2 := hnear
      _ ≤ s / (2 * 10 ^ 16) * 2 ^ e := by linarith
  have hhalf : (s : ℚ) / (2 * 10 ^ 16) < 1 / 2 := by
    rw [div_lt_iff₀ (by norm_num)]
    norm_num at hbits ⊢
    linarith
  have hquarter : (s : ℚ) / (2 * 10 ^ 16) < quartersBelow s e / 4 := by
    rw [quartersBelow]
    split
    · rename_i h
      rw [h.1]
      norm_num
    · push_cast
      linarith
  have hlow : ((s : ℚ) - quartersBelow s e / 4) * 2 ^ e < v := by
    have hprod := mul_lt_mul_of_pos_right hquarter hpos
    have hbelow := neg_le_of_abs_le hfar
    linarith
  have hhigh : v < (s + 1 / 2) * 2 ^ e := by
    have hprod := mul_lt_mul_of_pos_right hhalf hpos
    have habove := le_of_abs_le hfar
    linarith
  exact ⟨hlow.le, hhigh.le, .inr ⟨hlow, hhigh⟩⟩

theorem rounds_decimal {negative : Bool} (hproper : (finite negative s e).Proper) (hs : 0 < s) :
    Rounds s e (decimal s e).value := by
  have hfound (n : ℤ) {d : Decimal} (h : (interval s e).onGrid? n = some d) :
      Rounds s e d.value := by
    rw [Interval.onGrid?] at h
    dsimp only at h
    split at h
    · rename_i hholds
      exact Option.some.inj h ▸ (holds_iff hs _).1 hholds
    · split at h
      · rename_i hholds
        exact Option.some.inj h ▸ (holds_iff hs _).1 hholds
      · cases h
  rw [decimal, value_trim]
  cases h : (List.range 17).findSome? fun n : ℕ ↦
      (interval s e).onGrid? ((interval s e).point - (n + 1)) with
  | none => exact rounds_seventeen hproper hs
  | some d =>
      obtain ⟨n, -, hn⟩ := List.exists_of_findSome?_eq_some h
      exact hfound _ hn

/-- The shortest decimal of a double is rounded to that double. -/
theorem ofDecimal_decimal {negative : Bool} (hproper : (finite negative s e).Proper) (hs : 0 < s) :
    ofDecimal negative (decimal s e).digits (decimal s e).exponent = finite negative s e :=
  ofDecimal_eq hproper hs (rounds_decimal hproper hs)

end Grids

end Shortest

end ChartLowering
