import ChartLowering.Expression
import ChartLowering.Proofs.Expression.Syntax
import ChartLowering.Proofs.Json.Words
import ChartLowering.Proofs.Number.Shortest

/-!
# Doubles in expressions

A finite double is written into an expression as a numeral, after a minus sign if it is negative.
The numeral is read as a decimal that is rounded to the double again.
-/

namespace ChartLowering.Expression

/-- A text that is read as a decimal wherever it stands before a blank. -/
structure IsNumeral (cs : List Char) (d : Decimal) : Prop where
  head : ∃ c rest, cs = c :: rest ∧ c.isDigit = true
  reads (rest : List Char) : readDecimal? (cs ++ ' ' :: rest) = some (d, ' ' :: rest)

section Digits

/-- A row of digits. -/
def AllDigits (cs : List Char) : Prop := ∀ c ∈ cs, c.isDigit = true

theorem allDigits_toDigits (n : ℕ) : AllDigits (Nat.toDigits 10 n) := fun _ hc ↦
  Nat.isDigit_of_mem_toDigits (by norm_num) le_rfl hc

theorem allDigits_zeros (n : ℕ) : AllDigits (List.replicate n '0') := fun _ hc ↦
  (List.eq_of_mem_replicate hc) ▸ by decide

theorem AllDigits.append {cs ds : List Char} (hcs : AllDigits cs) (hds : AllDigits ds) :
    AllDigits (cs ++ ds) := fun c hc ↦ (List.mem_append.1 hc).elim (hcs c) (hds c)

theorem AllDigits.take {cs : List Char} (h : AllDigits cs) (n : ℕ) : AllDigits (cs.take n) :=
  fun c hc ↦ h c (List.mem_of_mem_take hc)

theorem AllDigits.drop {cs : List Char} (h : AllDigits cs) (n : ℕ) : AllDigits (cs.drop n) :=
  fun c hc ↦ h c (List.mem_of_mem_drop hc)

theorem readDigits_append {digits rest : List Char} {c : Char} (h : AllDigits digits)
    (hc : c.isDigit = false) : Json.readDigits (digits ++ c :: rest) = (digits, c :: rest) := by
  have hstop : ¬ c.isDigit = true := by simp [hc]
  rw [Json.readDigits, List.takeWhile_append_of_pos h, List.dropWhile_append_of_pos h,
    List.takeWhile_cons_of_neg hstop, List.dropWhile_cons_of_neg hstop, List.append_nil]

/-- What does not go on with a bare word does not go on with digits either. -/
theorem readDigits_append_of_ends {digits rest : List Char} (h : AllDigits digits)
    (hrest : Json.Ends rest) : Json.readDigits (digits ++ rest) = (digits, rest) := by
  cases rest with
  | nil =>
      rw [Json.readDigits, List.takeWhile_append_of_pos h, List.dropWhile_append_of_pos h,
        List.takeWhile_nil, List.dropWhile_nil, List.append_nil]
  | cons c rest =>
      have hbare := hrest c rfl
      refine readDigits_append h (Bool.eq_false_iff.2 fun hdigit ↦ ?_)
      simp [isBare, Char.isAlphanum, hdigit] at hbare

theorem readFraction_of_ends {rest : List Char} (h : Json.Ends rest) :
    Json.readFraction rest = some ([], rest) := by
  cases rest with
  | nil => rfl
  | cons c rest =>
      rw [Json.readFraction]
      rintro _ ⟨⟩
      cases h '.' rfl

theorem readExponent_of_ends {rest : List Char} (h : Json.Ends rest) :
    Json.readExponent rest = some (none, rest) := by
  cases rest with
  | nil => rfl
  | cons c rest =>
      have hletter : ¬ (c = 'e' ∨ c = 'E') := by
        rintro (rfl | rfl) <;> cases h _ rfl
      unfold Json.readExponent
      exact if_neg hletter

theorem natOf_toDigits (n : ℕ) : Json.natOf (Nat.toDigits 10 n) = n := Nat.ofDigitChars_ten_toDigits

theorem natOf_append (cs ds : List Char) :
    Json.natOf (cs ++ ds) = 10 ^ ds.length * Json.natOf cs + Json.natOf ds := by
  show Nat.ofDigitChars 10 (cs ++ ds) 0 = _
  rw [Nat.ofDigitChars_append, Nat.ofDigitChars_eq_ofDigitChars_zero]
  rfl

theorem natOf_zeros (n : ℕ) : Json.natOf (List.replicate n '0') = 0 := by
  have hzeros : Json.natOf (List.replicate n '0') = 10 ^ n * 0 := Nat.ofDigitChars_replicate_zero
  rwa [Nat.mul_zero] at hzeros

/-- A positive number has no zeros in front. -/
theorem head?_toDigits {n : ℕ} (hn : 0 < n) : (Nat.toDigits 10 n).head? ≠ some '0' := by
  induction n using Nat.strongRecOn with
  | ind n ih =>
      rcases lt_or_ge n 10 with hlt | hge
      · have hsingle : ∀ m < 10, 0 < m → [Nat.digitChar m].head? ≠ some '0' := by decide
        rw [Nat.toDigits_of_lt_base hlt]
        exact hsingle n hlt hn
      · have hquotient : 0 < n / 10 := by omega
        rw [Nat.toDigits_of_base_le (by norm_num) hge,
          List.head?_append_of_ne_nil _ Nat.toDigits_ne_nil]
        exact ih (n / 10) (by omega) hquotient

theorem not_padded_toDigits (n : ℕ) : ¬ (Nat.toDigits 10 n = [] ∨
    (Nat.toDigits 10 n).head? = some '0' ∧ 1 < (Nat.toDigits 10 n).length) := by
  rintro (hnil | ⟨hzero, hlong⟩)
  · exact Nat.toDigits_ne_nil hnil
  · rcases Nat.eq_zero_or_pos n with rfl | hpos
    · exact absurd hlong (by decide)
    · exact head?_toDigits hpos hzero

end Digits

section Parts

/-- Digits after a point, if there are any. -/
def fractionPart (fraction : List Char) : List Char :=
  if fraction = [] then [] else '.' :: fraction

def exponentPart : Option ℤ → List Char
  | none => []
  | some e => 'e' :: (exponentText e).toList

/-- At least two digits, maybe with a zero in front. -/
theorem toList_exponentText (e : ℤ) :
    ∃ digits, (exponentText e).toList = (if e < 0 then '-' else '+') :: digits ∧
      AllDigits digits ∧ digits ≠ [] ∧ Json.natOf digits = e.natAbs := by
  have hsign : (if e < 0 then "-" else "+" : String).toList = [if e < 0 then '-' else '+'] := by
    split <;> rfl
  rw [exponentText, String.toList_append, hsign]
  by_cases hshort : (toString e.natAbs).length < 2
  · rw [if_pos hshort, String.toList_append, toList_nat]
    have hpadded := natOf_append (List.replicate 1 '0') (Nat.toDigits 10 e.natAbs)
    rw [natOf_zeros 1, mul_zero, zero_add, natOf_toDigits] at hpadded
    exact ⟨'0' :: Nat.toDigits 10 e.natAbs, rfl,
      (allDigits_zeros 1).append (allDigits_toDigits _), List.cons_ne_nil _ _, hpadded⟩
  · rw [if_neg hshort, toList_nat]
    exact ⟨Nat.toDigits 10 e.natAbs, rfl, allDigits_toDigits _, Nat.toDigits_ne_nil,
      natOf_toDigits _⟩

theorem readExponent_exponentPart (e : Option ℤ) (rest : List Char) :
    Json.readExponent (exponentPart e ++ ' ' :: rest) = some (e, ' ' :: rest) := by
  cases e with
  | none => rfl
  | some e =>
      obtain ⟨digits, htext, hdigits, hne, hvalue⟩ := toList_exponentText e
      have hread : Json.readDigits (digits ++ ' ' :: rest) = (digits, ' ' :: rest) :=
        readDigits_append hdigits (by decide)
      obtain ⟨first, others, rfl⟩ := List.exists_cons_of_ne_nil hne
      rw [exponentPart, htext]
      rcases lt_or_ge e 0 with hneg | hpos
      · rw [if_pos hneg]
        simp only [List.cons_append, Json.readExponent, true_or, if_true] at hread ⊢
        rw [hread]
        simp only [hvalue]
        rw [Int.ofNat_natAbs_of_nonpos hneg.le, neg_neg]
      · rw [if_neg (not_lt.2 hpos)]
        simp only [List.cons_append, Json.readExponent, true_or, if_true] at hread ⊢
        rw [hread]
        simp only [Bool.false_eq_true, if_false, hvalue]
        rw [Int.natAbs_of_nonneg hpos]

theorem IsNumeral.of_parts {whole fraction : List Char} {exponent : Option ℤ} {d : Decimal}
    (hwhole : AllDigits whole) (hfraction : AllDigits fraction) (hne : whole ≠ [])
    (hlead : whole.head? = some '0' → whole.length ≤ 1)
    (hdigits : Json.natOf (whole ++ fraction) = d.digits)
    (hexponent : exponent.getD 0 - fraction.length = d.exponent) :
    IsNumeral (whole ++ fractionPart fraction ++ exponentPart exponent) d where
  head := by
    obtain ⟨c, rest, rfl⟩ := List.exists_cons_of_ne_nil hne
    exact ⟨c, rest ++ fractionPart fraction ++ exponentPart exponent, by simp,
      hwhole c List.mem_cons_self⟩
  reads rest := by
    -- What comes after the exponent, the fraction and the whole is not a digit.
    have hstart (e : Option ℤ) : ∃ c after, exponentPart e ++ ' ' :: rest = c :: after ∧
        c.isDigit = false ∧ c ≠ '.' := by
      cases e with
      | none => exact ⟨' ', rest, rfl, by decide, by decide⟩
      | some e => exact ⟨'e', _, rfl, by decide, by decide⟩
    obtain ⟨c, after, hafter, hc, hpoint⟩ := hstart exponent
    have hpower := readExponent_exponentPart exponent rest
    have hread : Json.readFraction (fractionPart fraction ++ (exponentPart exponent ++ ' ' :: rest))
        = some (fraction, exponentPart exponent ++ ' ' :: rest) := by
      rw [hafter, fractionPart]
      split
      · rename_i hnone
        rw [hnone, List.nil_append, Json.readFraction]
        rintro _ ⟨⟩
        exact hpoint rfl
      · rename_i hsome
        obtain ⟨first, others, rfl⟩ := List.exists_cons_of_ne_nil hsome
        rw [List.cons_append, Json.readFraction, readDigits_append hfraction hc]
    have hbegin : Json.readDigits (whole ++ (fractionPart fraction ++
        (exponentPart exponent ++ ' ' :: rest))) =
        (whole, fractionPart fraction ++ (exponentPart exponent ++ ' ' :: rest)) := by
      rw [hafter, fractionPart]
      split
      · exact readDigits_append hwhole hc
      · exact readDigits_append hwhole (by decide)
    have hvalid : ¬ (whole = [] ∨ whole.head? = some '0' ∧ 1 < whole.length) := by
      rintro (hnil | ⟨hzero, hlong⟩)
      · exact hne hnil
      · exact absurd (hlead hzero) (by omega)
    rw [List.append_assoc, List.append_assoc, readDecimal?, hbegin]
    simp only [if_neg hvalid, hread, hpower, hdigits, hexponent]

theorem IsNumeral.of_nat (n : ℕ) : IsNumeral (Nat.toDigits 10 n) ⟨n, 0⟩ := by
  have hlead : (Nat.toDigits 10 n).head? = some '0' → (Nat.toDigits 10 n).length ≤ 1 :=
    fun hzero ↦ not_lt.1 fun hlong ↦ not_padded_toDigits n (.inr ⟨hzero, hlong⟩)
  have hdigits : Json.natOf (Nat.toDigits 10 n ++ []) = n := by
    rw [List.append_nil, natOf_toDigits]
  have hparts : IsNumeral (Nat.toDigits 10 n ++ fractionPart [] ++ exponentPart none) ⟨n, 0⟩ :=
    .of_parts (allDigits_toDigits n) (allDigits_zeros 0) Nat.toDigits_ne_nil hlead hdigits rfl
  simpa [fractionPart, exponentPart] using hparts

end Parts

section Decimals

variable {d : Decimal}

theorem natOf_parted (d : Decimal) (n : ℕ) :
    Json.natOf ((Nat.toDigits 10 d.digits).take n ++ (Nat.toDigits 10 d.digits).drop n) =
      d.digits := by
  rw [List.take_append_drop, natOf_toDigits]

theorem length_toDigits (d : Decimal) :
    ((Nat.toDigits 10 d.digits).length : ℤ) = d.point - d.exponent := by
  rw [Decimal.point, ← String.length_toList, toList_nat]
  omega

theorem head?_take_toDigits (hd : 0 < d.digits) (n : ℕ) :
    ((Nat.toDigits 10 d.digits).take n).head? ≠ some '0' := by
  have hhead := head?_toDigits hd
  obtain ⟨first, others, hcons⟩ :=
    List.exists_cons_of_ne_nil (Nat.toDigits_ne_nil (n := d.digits) (b := 10))
  rw [hcons] at hhead ⊢
  cases n with
  | zero => simp
  | succ n => exact hhead

theorem isNumeral_scientific (d : Decimal) : IsNumeral d.scientific.toList d := by
  have hlength := length_toDigits d
  have hpos := Nat.length_toDigits_pos (b := 10) (n := d.digits)
  have htext : d.scientific.toList = (Nat.toDigits 10 d.digits).take 1 ++
      fractionPart ((Nat.toDigits 10 d.digits).drop 1) ++ exponentPart (some (d.point - 1)) := by
    simp only [Decimal.scientific, toList_nat, String.toList_append, String.toList_ofList,
      fractionPart, exponentPart, List.drop_eq_nil_iff]
    split <;> simp
  rw [htext]
  apply IsNumeral.of_parts ((allDigits_toDigits _).take 1) ((allDigits_toDigits _).drop 1)
  · apply List.ne_nil_of_length_pos
    rw [List.length_take]
    omega
  · exact fun _ ↦ List.length_take_le 1 _
  · exact natOf_parted d 1
  · rw [Option.getD_some, List.length_drop]
    omega

/-- A whole number is written with zeros up to the point and one after it. -/
theorem isNumeral_whole (hd : 0 < d.digits) {n : ℕ} (hn : d.exponent = n) :
    IsNumeral d.positional.toList ⟨10 ^ (n + 1) * d.digits, -1⟩ := by
  have hlead : (Nat.toDigits 10 d.digits ++ List.replicate n '0').head? ≠ some '0' := by
    rw [List.head?_append_of_ne_nil _ Nat.toDigits_ne_nil]
    exact head?_toDigits hd
  have htext : d.positional.toList = Nat.toDigits 10 d.digits ++ List.replicate n '0' ++
      fractionPart (List.replicate 1 '0') ++ exponentPart none := by
    rw [Decimal.positional]
    simp [hn, fractionPart, exponentPart]
  rw [htext]
  apply IsNumeral.of_parts ((allDigits_toDigits _).append (allDigits_zeros n)) (allDigits_zeros 1)
  · exact List.append_ne_nil_of_left_ne_nil Nat.toDigits_ne_nil _
  · exact fun h ↦ absurd h hlead
  · simp only [natOf_append, natOf_toDigits, natOf_zeros, List.length_replicate]
    ring
  · rfl

/-- A number below one is written with a zero before the point. -/
theorem isNumeral_small (hpart : d.exponent < 0) (hsmall : d.point ≤ 0) :
    IsNumeral d.positional.toList d := by
  have hlength := length_toDigits d
  have hne : List.replicate (-d.point).toNat '0' ++ Nat.toDigits 10 d.digits ≠ [] :=
    List.append_ne_nil_of_right_ne_nil _ Nat.toDigits_ne_nil
  have htext : d.positional.toList = List.replicate 1 '0' ++
      fractionPart (List.replicate (-d.point).toNat '0' ++ Nat.toDigits 10 d.digits) ++
      exponentPart none := by
    rw [Decimal.positional, if_neg (not_le.2 hpart), if_pos hsmall, fractionPart, if_neg hne]
    simp [exponentPart]
  rw [htext]
  apply IsNumeral.of_parts (allDigits_zeros 1) ((allDigits_zeros _).append (allDigits_toDigits _))
  · exact List.cons_ne_nil _ _
  · exact fun _ ↦ le_rfl
  · rw [← List.append_assoc, ← List.replicate_add, natOf_append, natOf_zeros, natOf_toDigits]
    omega
  · rw [Option.getD_none, List.length_append, List.length_replicate]
    omega

theorem isNumeral_large (hd : 0 < d.digits) (hpart : d.exponent < 0) (hlarge : 0 < d.point) :
    IsNumeral d.positional.toList d := by
  have hlength := length_toDigits d
  have hne : (Nat.toDigits 10 d.digits).drop d.point.toNat ≠ [] := by
    apply List.ne_nil_of_length_pos
    rw [List.length_drop]
    omega
  have htext : d.positional.toList = (Nat.toDigits 10 d.digits).take d.point.toNat ++
      fractionPart ((Nat.toDigits 10 d.digits).drop d.point.toNat) ++ exponentPart none := by
    rw [Decimal.positional, if_neg (not_le.2 hpart), if_neg (not_le.2 hlarge), fractionPart,
      if_neg hne]
    simp [exponentPart]
  rw [htext]
  apply IsNumeral.of_parts ((allDigits_toDigits _).take _) ((allDigits_toDigits _).drop _)
  · apply List.ne_nil_of_length_pos
    rw [List.length_take]
    omega
  · exact fun h ↦ absurd h (head?_take_toDigits hd _)
  · exact natOf_parted d _
  · rw [Option.getD_none, List.length_drop]
    omega

/-- A positive decimal is written as a numeral, maybe one with more digits. -/
theorem isNumeral_text (hd : 0 < d.digits) :
    ∃ d', IsNumeral d.text.toList d' ∧ d'.value = d.value := by
  rw [Decimal.text]
  split
  · rcases le_or_gt 0 d.exponent with hwhole | hpart
    · obtain ⟨n, hn⟩ := Int.eq_ofNat_of_zero_le hwhole
      refine ⟨_, isNumeral_whole hd hn, ?_⟩
      rw [Decimal.value, Decimal.value, hn, zpow_natCast]
      push_cast
      rw [pow_succ, zpow_neg_one]
      ring
    · rcases le_or_gt d.point 0 with hsmall | hlarge
      · exact ⟨d, isNumeral_small hpart hsmall, rfl⟩
      · exact ⟨d, isNumeral_large hd hpart hlarge, rfl⟩
  · exact ⟨d, isNumeral_scientific d, rfl⟩

end Decimals

section Doubles

open Binary64

variable {k : Binary64} {negative : Bool} {s : ℕ} {e : ℤ}

theorem toFraction?_finite (negative : Bool) (s : ℕ) (e : ℤ) :
    ∃ (n : ℤ) (den : ℕ), (finite negative s e).toFraction? = some (n, den) ∧ 0 < den ∧
      (n : ℚ) / den = (finite negative s e).value := by
  have hmagnitude : ∃ (m den : ℕ), (if 0 ≤ e then ((s * Nat.pow 2 e.toNat : ℕ), 1)
      else (s, Nat.pow 2 (-e).toNat) : ℤ × ℕ) = ((m : ℤ), den) ∧ 0 < den ∧
        (m : ℚ) / den = s * 2 ^ e := by
    split
    · rename_i h
      obtain ⟨n, rfl⟩ := Int.eq_ofNat_of_zero_le h
      exact ⟨s * 2 ^ n, 1, rfl, one_pos, by simp⟩
    · rename_i h
      obtain ⟨n, rfl⟩ : ∃ n : ℕ, e = -(n : ℤ) := ⟨(-e).toNat, by omega⟩
      refine ⟨s, 2 ^ n, by simp, by positivity, ?_⟩
      simp [div_eq_mul_inv]
  obtain ⟨m, den, hpair, hden, hvalue⟩ := hmagnitude
  refine ⟨if negative then -m else m, den, ?_, hden, ?_⟩
  · simp only [toFraction?]
    push_cast at hpair
    rw [hpair]
  · rw [value, ← hvalue]
    cases negative <;> simp [neg_div]

theorem value_of_toInt? {i : ℤ} (h : (finite negative s e).toInt? = some i) :
    (i : ℚ) = (finite negative s e).value := by
  obtain ⟨n, den, hfraction, hden, hvalue⟩ := toFraction?_finite negative s e
  simp only [toInt?, hfraction] at h
  split at h
  · rename_i hdvd
    obtain rfl := Option.some.inj h
    rw [← hvalue, Int.cast_div (Int.dvd_of_emod_eq_zero hdvd) (by positivity), Int.cast_natCast]
  · cases h

/-- A decimal that rounds to the magnitude of a double is read as that double. -/
theorem signed_nearest {d : Decimal} (hproper : (finite negative s e).Proper) (hs : 0 < s)
    (h : Rounds s e d.value) :
    Reading.nearest.signed negative d = (finite negative s e).value := by
  have hpositive : (finite false s e).Proper := hproper
  rw [Reading.signed, Reading.value, ofDecimal_eq hpositive hs h, value, value]
  cases negative <;> simp

theorem number_of_toInt? {i : ℤ} (h : k.toInt? = some i) :
    number (.float k) = .ok (toString i) := by
  rw [number]
  simp only [h]
  rfl

theorem number_of_toInt?_none (h : (finite negative s e).toInt? = none) (hs : 0 < s) :
    number (.float (finite negative s e)) =
      .ok (signText negative ++ (Shortest.decimal s e).text) := by
  obtain ⟨n, rfl⟩ := Nat.exists_eq_succ_of_ne_zero hs.ne'
  rw [number]
  simp only [h]
  rfl

theorem toString_int_eq (i : ℤ) :
    toString i = signText (decide (i < 0)) ++ String.ofList (Nat.toDigits 10 i.natAbs) := by
  apply String.toList_injective
  rw [toList_int, String.toList_append, String.toList_ofList, signText]
  by_cases hneg : i < 0
  · rw [if_pos hneg, if_pos (decide_eq_true hneg)]
    rfl
  · rw [if_neg hneg, if_neg (by simpa using hneg)]
    rfl

theorem toInt?_zero (negative : Bool) (e : ℤ) : (finite negative 0 e).toInt? = some 0 := by
  obtain ⟨n, den, hfraction, hden, hvalue⟩ := toFraction?_finite negative 0 e
  have hden' : (den : ℚ) ≠ 0 := by positivity
  have hn : n = 0 := by
    have hquotient : (n : ℚ) / den = 0 := by rw [hvalue, value, Nat.cast_zero, zero_mul, mul_zero]
    rw [div_eq_zero_iff, or_iff_left hden'] at hquotient
    exact_mod_cast hquotient
  simp [toInt?, hfraction, hn]

/-- A double that is a whole number other than zero has the digits of that number. -/
theorem rounds_natAbs {i : ℤ} (hs : 0 < s) (h : (i : ℚ) = (finite negative s e).value) :
    decide (i < 0) = negative ∧ Rounds s e (Decimal.value ⟨i.natAbs, 0⟩) := by
  have hpos : (0 : ℚ) < s * 2 ^ e := mul_pos (by exact_mod_cast hs) (two_zpow_pos e)
  have habs : Decimal.value ⟨i.natAbs, 0⟩ = |(i : ℚ)| := by
    rw [Decimal.value, zpow_zero, mul_one, ← Int.cast_abs, Int.abs_eq_natAbs, Int.cast_natCast]
  have hself := rounds_self s e
  rw [value] at h
  cases negative with
  | false =>
      have hi : (i : ℚ) = s * 2 ^ e := by simpa using h
      have hnonneg : 0 ≤ i := by
        have hcast : (0 : ℚ) ≤ i := hi ▸ hpos.le
        exact_mod_cast hcast
      rw [habs, hi, abs_of_pos hpos]
      exact ⟨decide_eq_false (not_lt.2 hnonneg), hself⟩
  | true =>
      have hi : (i : ℚ) = -(s * 2 ^ e) := by simpa using h
      have hneg : i < 0 := by
        have hcast : (i : ℚ) < 0 := by
          rw [hi]
          exact neg_lt_zero.2 hpos
        exact_mod_cast hcast
      rw [habs, hi, abs_neg, abs_of_pos hpos]
      exact ⟨decide_eq_true hneg, hself⟩

/-- A finite double is written as a numeral, maybe after a minus sign, that rounds to it. -/
theorem exists_numeral (hk : k.Proper) : ∃ negative cs d,
    number (.float k) = .ok (signText negative ++ String.ofList cs) ∧ IsNumeral cs d ∧
      Reading.nearest.signed negative d = k.value := by
  cases k with
  | nan => exact hk.elim
  | infinite negative => exact hk.elim
  | finite negative s e =>
      rcases Nat.eq_zero_or_pos s with rfl | hs
      · -- Zero loses its sign.
        refine ⟨false, ['0'], ⟨0, 0⟩, number_of_toInt? (toInt?_zero negative e), .of_nat 0, ?_⟩
        rw [value, Nat.cast_zero, zero_mul, mul_zero, Reading.signed, if_neg Bool.false_ne_true,
          Reading.value, ofDecimal, if_pos rfl, zero, value, Nat.cast_zero, zero_mul, mul_zero]
      · cases hwhole : (finite negative s e).toInt? with
        | some i =>
            obtain ⟨hsign, hrounds⟩ := rounds_natAbs hs (value_of_toInt? hwhole)
            refine ⟨negative, _, _, ?_, .of_nat i.natAbs, signed_nearest hk hs hrounds⟩
            rw [number_of_toInt? hwhole, toString_int_eq, hsign]
        | none =>
            have hrounds := Shortest.rounds_decimal hk hs
            have hdigits : 0 < (Shortest.decimal s e).digits := by
              by_contra hzero
              have hpos := hrounds.pos hs
              rw [Decimal.value, Nat.eq_zero_of_not_pos hzero, Nat.cast_zero, zero_mul] at hpos
              exact lt_irrefl _ hpos
            obtain ⟨d, hnumeral, hvalue⟩ := isNumeral_text hdigits
            refine ⟨negative, _, d, ?_, hnumeral, signed_nearest hk hs (hvalue ▸ hrounds)⟩
            rw [number_of_toInt?_none hwhole hs, String.ofList_toList]

end Doubles

end ChartLowering.Expression
