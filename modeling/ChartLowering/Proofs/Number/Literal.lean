import ChartLowering.Proofs.Number.Numeral

/-!
# Numbers as literals

A literal of the expression language is a row of digits, maybe after a minus sign, with a fraction
and an exponent if it has them. Every finite double is written as one. What is no number or not
finite is written as a name.
-/

namespace ChartLowering.Expression

/-- Digits without a zero in front, unless there is nothing else. -/
def IsWhole (cs : List Char) : Prop :=
  cs ≠ [] ∧ AllDigits cs ∧ (cs.head? = some '0' → cs.length ≤ 1)

/-- Nothing, or a point and digits. -/
def IsFraction (cs : List Char) : Prop :=
  cs = [] ∨ ∃ digits, cs = '.' :: digits ∧ digits ≠ [] ∧ AllDigits digits

/-- Nothing, or the letter for the power of ten and digits, maybe with a sign. -/
def IsExponent (cs : List Char) : Prop :=
  cs = [] ∨ ∃ letter ∈ ['e', 'E'], ∃ sign ∈ [[], ['-'], ['+']], ∃ digits,
    cs = letter :: (sign ++ digits) ∧ digits ≠ [] ∧ AllDigits digits

/-- A numeric literal. -/
def IsLiteral (s : String) : Prop :=
  ∃ negative whole fraction exponent,
    s = Binary64.signText negative ++ String.ofList (whole ++ fraction ++ exponent) ∧
      IsWhole whole ∧ IsFraction fraction ∧ IsExponent exponent

section Readers

variable {cs rest digits fraction : List Char}

theorem of_readDigits (h : Json.readDigits cs = (digits, rest)) :
    cs = digits ++ rest ∧ AllDigits digits := by
  obtain ⟨rfl, rfl⟩ := Prod.mk.inj h
  exact ⟨List.takeWhile_append_dropWhile.symm,
    fun c hc ↦ List.all_eq_true.1 List.all_takeWhile c hc⟩

theorem isFraction_of_readFraction (h : Json.readFraction cs = some (fraction, rest)) :
    ∃ read, cs = read ++ rest ∧ IsFraction read := by
  unfold Json.readFraction at h
  split at h
  · split at h
    · cases h
    · rename_i after found hne
      have hread := Option.some.inj h
      obtain ⟨hsplit, hdigits⟩ := of_readDigits hread
      refine ⟨'.' :: fraction, by rw [hsplit]; rfl, .inr ⟨fraction, rfl, ?_, hdigits⟩⟩
      rintro rfl
      exact hne _ hread
  · obtain ⟨rfl, rfl⟩ := Prod.mk.inj (Option.some.inj h)
    exact ⟨[], rfl, .inl rfl⟩

theorem isExponent_of_readExponent {exponent : Option ℤ}
    (h : Json.readExponent cs = some (exponent, rest)) :
    ∃ read, cs = read ++ rest ∧ IsExponent read := by
  unfold Json.readExponent at h
  split at h
  · split at h
    · rename_i letter after hletter
      split at h
      rename_i negative unsigned hpair
      have hsign : ∃ sign ∈ [[], ['-'], ['+']], after = sign ++ unsigned := by
        split at hpair <;> obtain ⟨-, rfl⟩ := Prod.mk.inj hpair
        · exact ⟨['-'], by simp, rfl⟩
        · exact ⟨['+'], by simp, rfl⟩
        · exact ⟨[], by simp, rfl⟩
      obtain ⟨sign, hsign, rfl⟩ := hsign
      split at h
      · cases h
      · rename_i digits stop hne hread
        obtain ⟨-, rfl⟩ := Prod.mk.inj (Option.some.inj h)
        obtain ⟨rfl, hdigits⟩ := of_readDigits hread
        refine ⟨letter :: (sign ++ digits), by simp, .inr ⟨letter, by simpa using hletter, sign,
          hsign, digits, rfl, ?_, hdigits⟩⟩
        rintro rfl
        exact hne rfl
    · obtain ⟨rfl, rfl⟩ := Prod.mk.inj (Option.some.inj h)
      exact ⟨[], rfl, .inl rfl⟩
  · obtain ⟨rfl, rfl⟩ := Prod.mk.inj (Option.some.inj h)
    exact ⟨[], rfl, .inl rfl⟩

/-- What is read as a decimal has the parts of a literal. -/
theorem exists_parts_of_readDecimal? {d : Decimal} (h : readDecimal? cs = some (d, rest)) :
    ∃ whole fraction exponent, cs = whole ++ fraction ++ exponent ++ rest ∧
      IsWhole whole ∧ IsFraction fraction ∧ IsExponent exponent := by
  unfold readDecimal? at h
  split at h
  rename_i whole after hwhole
  obtain ⟨rfl, hdigits⟩ := of_readDigits hwhole
  split at h
  · cases h
  · rename_i hvalid
    rw [not_or, not_and, not_lt] at hvalid
    split at h
    · cases h
    · rename_i digits next hread
      obtain ⟨fraction, rfl, hfraction⟩ := isFraction_of_readFraction hread
      split at h
      · cases h
      · rename_i power stop hread'
        obtain ⟨exponent, rfl, hexponent⟩ := isExponent_of_readExponent hread'
        obtain ⟨-, rfl⟩ := Prod.mk.inj (Option.some.inj h)
        exact ⟨whole, fraction, exponent, by simp, ⟨hvalid.1, hdigits, hvalid.2⟩, hfraction,
          hexponent⟩

end Readers

section Literals

open Binary64

theorem IsNumeral.isLiteral {cs : List Char} {d : Decimal} (h : IsNumeral cs d) (negative : Bool) :
    IsLiteral (signText negative ++ String.ofList cs) := by
  obtain ⟨whole, fraction, exponent, hsplit, hparts⟩ := exists_parts_of_readDecimal? (h.reads [])
  exact ⟨negative, whole, fraction, exponent, by rw [List.append_cancel_right hsplit], hparts⟩

theorem IsLiteral.exists_digit {s : String} (h : IsLiteral s) :
    ∃ c ∈ s.toList, c.isDigit = true := by
  obtain ⟨negative, whole, fraction, exponent, rfl, ⟨hne, hdigits, -⟩, -⟩ := h
  obtain ⟨c, others, rfl⟩ := List.exists_cons_of_ne_nil hne
  exact ⟨c, by simp, hdigits c List.mem_cons_self⟩

/-- How a double is written that is no finite number. -/
def names : List String := ["nan", "inf", "-inf"]

theorem not_isLiteral_of_mem_names {s : String} (h : s ∈ names) : ¬ IsLiteral s := by
  intro hliteral
  obtain ⟨c, hc, hdigit⟩ := hliteral.exists_digit
  have hnone : ∀ c ∈ s.toList, c.isDigit = false := by
    simp only [names, List.mem_cons, List.not_mem_nil, or_false] at h
    obtain rfl | rfl | rfl := h <;> simp
  rw [hnone c hc] at hdigit
  cases hdigit

theorem exists_name_of_not_isFinite {k : Binary64} (h : k.isFinite = false) :
    ∃ s ∈ names, number (.float k) = .ok s := by
  cases k with
  | nan => exact ⟨"nan", by decide, rfl⟩
  | infinite negative => cases negative <;> exact ⟨_, by decide, rfl⟩
  | finite negative s e => cases h

/-- A double is written as a literal exactly if it is finite, and else as a name. -/
theorem exists_number_float {k : Binary64} (hk : k.isFinite = true → k.Proper) :
    ∃ s, number (.float k) = .ok s ∧ (IsLiteral s ↔ k.isFinite = true) ∧
      (k.isFinite = false → s ∈ names) := by
  cases hfinite : k.isFinite with
  | true =>
      obtain ⟨negative, cs, d, htext, hnumeral, -⟩ := exists_numeral (hk hfinite)
      exact ⟨_, htext, ⟨fun _ ↦ rfl, fun _ ↦ hnumeral.isLiteral negative⟩, nofun⟩
  | false =>
      obtain ⟨s, hname, htext⟩ := exists_name_of_not_isFinite hfinite
      exact ⟨s, htext, ⟨fun h ↦ absurd h (not_isLiteral_of_mem_names hname), nofun⟩,
        fun _ ↦ hname⟩

end Literals

end ChartLowering.Expression
