import ChartLowering.Json.Read
import ChartLowering.Text.Escaped

/-!
# String literals read back

A string literal is read back as the string that it was written for, whatever stands after it. So no
string ends its own literal early.
-/

namespace ChartLowering.Json

open Text

theorem hex_control :
    ∀ n < 0x20, hex 4 n = ['0', '0', Nat.digitChar (n / 16), Nat.digitChar (n % 16)] ∧
      codeUnit? '0' '0' (Nat.digitChar (n / 16)) (Nat.digitChar (n % 16)) = some n := by
  decide +kernel

theorem readString_control {n : Nat} (hn : n < 0x20) (rest : List Char) :
    readString ('\\' :: 'u' :: hex 4 n ++ rest) = push (Char.ofNat n) (readString rest) := by
  obtain ⟨hhex, hunit⟩ := hex_control n hn
  have hlow : ¬ (0xD800 ≤ n ∧ n < 0xDC00) := by omega
  rw [hhex]
  simp only [List.cons_append, List.nil_append, readString, hunit, if_neg hlow]

/-- The characters with an escape of one letter. -/
def lettered : List Char := ['"', '\\', '\n', '\r', '\t', '\x08', '\x0c']

theorem readString_lettered {c : Char} (hc : c ∈ lettered) (rest : List Char) :
    readString (literalChar c ++ rest) = push c (readString rest) := by
  simp only [lettered, List.mem_cons, List.not_mem_nil, or_false] at hc
  rcases hc with rfl | rfl | rfl | rfl | rfl | rfl | rfl <;> rfl

theorem readString_of_plain {c : Char} (hquote : c ≠ '"') (hslash : c ≠ '\\')
    (hcontrol : ¬ c.toNat < 0x20) (rest : List Char) :
    readString (c :: rest) = push c (readString rest) := by
  rw [readString, if_neg hcontrol]
  · exact hquote
  · intro _ _ _ _ _ h
    exact absurd h hslash
  · intro _ _ h
    exact absurd h hslash

theorem readString_literalChar (c : Char) (rest : List Char) :
    readString (literalChar c ++ rest) = push c (readString rest) := by
  by_cases hc : c ∈ lettered
  · exact readString_lettered hc rest
  · have hplain : literalChar c =
        if c.toNat < 0x20 then '\\' :: 'u' :: hex 4 c.toNat else [c] := by
      simp only [lettered, List.mem_cons, List.not_mem_nil, or_false, not_or] at hc
      simp [literalChar, hc]
    rw [hplain]
    split
    · rename_i hcontrol
      exact (readString_control hcontrol rest).trans (by rw [Char.ofNat_toNat])
    · rename_i hcontrol
      simp only [lettered, List.mem_cons, not_or] at hc
      exact readString_of_plain hc.1 hc.2.1 hcontrol rest

theorem readString_literal (s rest : List Char) :
    readString (s.flatMap literalChar ++ '"' :: rest) = some (s, rest) := by
  induction s with
  | nil => rfl
  | cons c s ih =>
      rw [List.flatMap_cons, List.append_assoc, readString_literalChar, ih]
      rfl

theorem toList_stringLiteral (s : String) :
    (stringLiteral s).toList = '"' :: s.toList.flatMap literalChar ++ ['"'] := by
  rw [stringLiteral, String.toList_ofList]

/-- Two literals with something after them are the same only if the strings are. -/
theorem stringLiteral_append_inj {s t : String} {rest other : List Char}
    (h : (stringLiteral s).toList ++ rest = (stringLiteral t).toList ++ other) :
    s = t ∧ rest = other := by
  simp only [toList_stringLiteral, List.cons_append, List.append_assoc, List.cons.injEq,
    true_and] at h
  have hread := congrArg readString h
  rw [readString_literal, readString_literal, Option.some.injEq, Prod.mk.injEq] at hread
  exact ⟨String.toList_injective hread.1, hread.2⟩

end ChartLowering.Json
