import ChartLowering.Proofs.Json.Tree
import ChartLowering.Proofs.Logic.Tests
import Mathlib.Data.List.DropRight

/-!
# Literals read back

The literal of a constant is read as the constant again, and the literal in the access to a column
as the name of the column. The reader stops where the literal ends, whatever comes after it: only an
integer has to be followed by something that is no part of a bare word.
-/

namespace ChartLowering

namespace Json

open Logic (Anything)

/-- Wherever the text stands before such characters, the reader takes it for the value and leaves
what follows. -/
def ReadsAs (next : List Char → Prop) (s : String) (v : Value) : Prop :=
  ∀ rest, next rest → ∀ fuel, s.toList.length < fuel →
    readValue fuel (s.toList ++ rest) = some (v, rest)

variable {next : List Char → Prop} {rest : List Char} {s : String} {v : Value}

theorem ReadsAs.read?_eq (h : ReadsAs next s v) (hnext : next []) : read? s = some v := by
  have hend := h [] hnext (s.length + 1) (by rw [String.length_toList]; exact Nat.lt_succ_self _)
  rw [List.append_nil] at hend
  rw [read?, hend]
  rfl

theorem ReadsAs.weaken {next' : List Char → Prop} (h : ReadsAs next s v)
    (hnext : ∀ rest, next' rest → next rest) : ReadsAs next' s v := fun rest hrest ↦
  h rest (hnext rest hrest)

theorem ends_nil : Ends [] := fun _ h ↦ by cases h

section Blanks

theorem skipBlank_skipBlank (cs : List Char) : skipBlank (skipBlank cs) = skipBlank cs :=
  List.dropWhile_idempotent _ _

/-- A reader skips blanks by itself. -/
theorem readValue_skipBlank (fuel : ℕ) (cs : List Char) :
    readValue fuel (skipBlank cs) = readValue fuel cs := by
  cases fuel with
  | zero => rfl
  | succ fuel => rw [readValue, readValue, skipBlank_skipBlank]

theorem readItems_skipBlank (fuel : ℕ) (cs : List Char) :
    readItems fuel (skipBlank cs) = readItems fuel cs := by
  cases fuel with
  | zero => rfl
  | succ fuel => rw [readItems, readItems, readValue_skipBlank]

theorem readItems_blank (fuel : ℕ) (cs : List Char) :
    readItems fuel (' ' :: cs) = readItems fuel cs :=
  (readItems_skipBlank fuel (' ' :: cs)).symm.trans (readItems_skipBlank fuel cs)

end Blanks

section Numbers

theorem readMagnitude_toDigits (negative : Bool) (n : ℕ) (h : Ends rest) :
    readMagnitude negative (Nat.toDigits 10 n ++ rest) =
      some (.int (if negative then -(n : ℤ) else n), rest) := by
  rw [readMagnitude, Expression.readDigits_append_of_ends (Expression.allDigits_toDigits n) h]
  simp only [if_neg (Expression.not_padded_toDigits n), Expression.readFraction_of_ends h,
    Expression.readExponent_of_ends h, and_self, if_true, Expression.natOf_toDigits]

theorem readNumber_int (i : ℤ) (h : Ends rest) :
    readNumber ((toString i).toList ++ rest) = some (.int i, rest) := by
  rw [toList_int]
  by_cases hi : i < 0
  · rw [if_pos hi]
    show readMagnitude true (Nat.toDigits 10 i.natAbs ++ rest) = _
    rw [readMagnitude_toDigits true _ h, if_pos rfl, Int.ofNat_natAbs_of_nonpos hi.le, neg_neg]
  · obtain ⟨c, cs, hchars, hc⟩ := Logic.exists_digit i.natAbs
    have hread := readMagnitude_toDigits false i.natAbs h
    rw [if_neg hi, List.nil_append]
    rw [hchars, List.cons_append] at hread ⊢
    rw [readNumber, hread, if_neg Bool.false_ne_true, Int.natAbs_of_nonneg (not_lt.1 hi)]
    rintro _ ⟨⟩
    cases hc

/-- What begins like a number is read as one. -/
theorem readValue_number {c : Char} (hc : c = '-' ∨ c.isDigit = true) (fuel : ℕ) (cs : List Char) :
    readValue (fuel + 1) (c :: cs) = readNumber (c :: cs) := by
  have hother : ∀ d ∈ [' ', '\t', '\n', '\r', 'n', 't', 'f', '"', '[', '{'], c ≠ d := by
    rintro d hd rfl
    have hall : [' ', '\t', '\n', '\r', 'n', 't', 'f', '"', '[', '{'].all
        (fun d ↦ !(d == '-' || d.isDigit)) = true := rfl
    have hnumber : (c == '-' || c.isDigit) = true := by simpa using hc
    have hnone := List.all_eq_true.1 hall c hd
    simp only [hnumber] at hnone
    cases hnone
  have hskip : skipBlank (c :: cs) = c :: cs := by
    refine List.dropWhile_cons_of_neg ?_
    simp [hother]
  rw [readValue, hskip]
  split
  case h_7 => rfl
  all_goals
    rename_i heq
    exact (hother _ (by decide) (List.cons.inj heq).1).elim

theorem readsAs_int (i : ℤ) : ReadsAs Ends (toString i) (.int i) := by
  intro rest hrest fuel hfuel
  have hread := readNumber_int i hrest
  cases hchars : (toString i).toList with
  | nil => exact absurd (String.toList_eq_nil_iff.1 hchars) (int_ne_empty i)
  | cons c cs =>
      have hc := head?_int i c (by rw [hchars]; rfl)
      obtain ⟨fuel, rfl⟩ := Nat.exists_eq_succ_of_ne_zero (Nat.ne_zero_of_lt hfuel)
      rw [hchars] at hread
      exact (readValue_number hc fuel _).trans hread

end Numbers

section Literals

theorem readsAs_null : ReadsAs Anything "null" .null := by
  intro rest _ fuel hfuel
  obtain ⟨fuel, rfl⟩ := Nat.exists_eq_succ_of_ne_zero (Nat.ne_zero_of_lt hfuel)
  rfl

theorem readsAs_bool (b : Bool) : ReadsAs Anything (if b then "true" else "false") (.bool b) := by
  intro rest _ fuel hfuel
  obtain ⟨fuel, rfl⟩ := Nat.exists_eq_succ_of_ne_zero (Nat.ne_zero_of_lt hfuel)
  cases b <;> rfl

theorem readsAs_text (s : String) : ReadsAs Anything (Text.stringLiteral s) (.text s) := by
  intro rest _ fuel hfuel
  obtain ⟨fuel, rfl⟩ := Nat.exists_eq_succ_of_ne_zero (Nat.ne_zero_of_lt hfuel)
  rw [toList_stringLiteral, List.cons_append, List.cons_append, List.append_assoc]
  show (readString (s.toList.flatMap Text.literalChar ++ '"' :: rest)).map _ = _
  rw [readString_literal, Option.map_some]
  simp only [String.ofList_toList]

/-- No item begins with the bracket that closes a list. -/
theorem readItems_closing (fuel : ℕ) (cs : List Char) : readItems fuel (']' :: cs) = none := by
  cases fuel with
  | zero => rfl
  | succ fuel => cases fuel <;> rfl

theorem readValue_list {fuel : ℕ} {cs : List Char} {items : List Value}
    (h : readItems fuel cs = some (items, rest)) :
    readValue (fuel + 1) ('[' :: cs) = some (.list items, rest) := by
  rw [← readItems_skipBlank] at h
  have hskip : skipBlank ('[' :: cs) = '[' :: cs := rfl
  rw [readValue, hskip]
  simp only
  split
  · rename_i other heq
    rw [heq, readItems_closing] at h
    cases h
  · rw [h]
    rfl

theorem readItems_intercalate {ss : List String} {items : List Value}
    (h : List.Forall₂ (ReadsAs Ends) ss items) (hne : ss ≠ []) (rest : List Char) (fuel : ℕ)
    (hfuel : (", ".intercalate ss).toList.length + 1 < fuel) :
    readItems fuel ((", ".intercalate ss).toList ++ ']' :: rest) = some (items, rest) := by
  induction h generalizing fuel with
  | nil => exact absurd rfl hne
  | @cons s v ss items hs hss ih =>
      obtain ⟨fuel, rfl⟩ := Nat.exists_eq_succ_of_ne_zero (Nat.ne_zero_of_lt hfuel)
      cases hss with
      | nil =>
          rw [String.intercalate_singleton] at hfuel ⊢
          have hends : Ends (']' :: rest) := by
            rintro _ ⟨⟩
            rfl
          rw [readItems, hs _ hends fuel (by omega)]
          rfl
      | @cons t _ ss _ _ _ =>
          have hmore := ih (List.cons_ne_nil t ss)
          rw [String.intercalate_cons_cons, String.toList_append, String.toList_append] at hfuel ⊢
          generalize ", ".intercalate (t :: ss) = more at hfuel hmore ⊢
          have hcomma : ", ".toList.length = 2 := rfl
          simp only [List.length_append] at hfuel
          have hends : Ends (", ".toList ++ (more.toList ++ ']' :: rest)) := by
            rintro _ ⟨⟩
            rfl
          rw [List.append_assoc, List.append_assoc, readItems, hs _ hends fuel (by omega)]
          show (readItems fuel (' ' :: (more.toList ++ ']' :: rest))).map _ = _
          rw [readItems_blank, hmore fuel (by omega)]
          rfl

theorem readsAs_list {ss : List String} {items : List Value}
    (h : List.Forall₂ (ReadsAs Ends) ss items) :
    ReadsAs Anything ("[" ++ ", ".intercalate ss ++ "]") (.list items) := by
  intro rest _ fuel hfuel
  obtain ⟨fuel, rfl⟩ := Nat.exists_eq_succ_of_ne_zero (Nat.ne_zero_of_lt hfuel)
  cases h with
  | nil => rfl
  | cons hs hss =>
      rw [String.toList_append, String.toList_append] at hfuel ⊢
      simp only [List.length_append] at hfuel
      have hbrackets : "[".toList.length = 1 ∧ "]".toList.length = 1 := ⟨rfl, rfl⟩
      have hitems :=
        readItems_intercalate (.cons hs hss) (List.cons_ne_nil _ _) rest fuel (by omega)
      rw [List.append_assoc, List.append_assoc]
      exact readValue_list hitems

end Literals

end Json

namespace Predicate.Constant

/-- What may come after the literal of a constant. Only an integer can be taken for the beginning of
a longer literal. -/
def Next : Constant → List Char → Prop
  | int _ => Json.Ends
  | _ => Logic.Anything

theorem next_of_ends (c : Constant) {rest : List Char} (h : Json.Ends rest) : c.Next rest := by
  cases c with
  | int => exact h
  | _ => trivial

end Predicate.Constant

namespace Expression

open Json (ReadsAs Ends)
open Logic (Anything)
open Predicate (Constant)

mutual

/-- The literal of a constant is read as the constant. -/
theorem exists_literal : ∀ c : Constant, ∃ s, literal c.value = .ok s ∧ ReadsAs c.Next s c.value
  | .null => ⟨"null", rfl, Json.readsAs_null⟩
  | .bool true => ⟨"true", rfl, Json.readsAs_bool true⟩
  | .bool false => ⟨"false", rfl, Json.readsAs_bool false⟩
  | .int i => ⟨toString i, rfl, Json.readsAs_int i⟩
  | .text s => ⟨Text.stringLiteral s, rfl, Json.readsAs_text s⟩
  | .list items => by
      obtain ⟨ss, hliterals, hreads⟩ := exists_literals items
      refine ⟨"[" ++ ", ".intercalate ss ++ "]", ?_, Json.readsAs_list hreads⟩
      rw [Constant.value, literal, hliterals]
      rfl

theorem exists_literals : ∀ cs : List Constant, ∃ ss,
    literals (Constant.values cs) = .ok ss ∧
      List.Forall₂ (ReadsAs Ends) ss (Constant.values cs)
  | [] => ⟨[], rfl, .nil⟩
  | c :: rest => by
      obtain ⟨s, hliteral, hreads⟩ := exists_literal c
      obtain ⟨ss, hliterals, hrest⟩ := exists_literals rest
      refine ⟨s :: ss, ?_, .cons (hreads.weaken fun _ ↦ c.next_of_ends) hrest⟩
      rw [Constant.values, literals, hliteral, ok_bind, hliterals]
      rfl

end

/-- Each constant has a literal that is read as the constant, and the access to a column by an
accepted path has one that is read as the name of the column. None of them ends early: the reader
leaves exactly what comes after it. -/
theorem literals_read_back :
    (∀ c : Constant, ∃ s, literal c.value = .ok s ∧ Json.read? s = some c.value ∧
      ReadsAs c.Next s c.value) ∧
    ∀ path row segments, FieldPath.segments path = .ok segments → ∃ name s,
      FieldPath.flatten path = .ok name ∧ field path row = .ok (row ++ "[" ++ s ++ "]") ∧
      Json.read? s = some (.text name) ∧ ReadsAs Anything s (.text name) := by
  refine ⟨fun c ↦ ?_, fun path row segments h ↦ ?_⟩
  · obtain ⟨s, hliteral, hreads⟩ := exists_literal c
    exact ⟨s, hliteral, hreads.read?_eq (c.next_of_ends Json.ends_nil), hreads⟩
  · have hflatten : FieldPath.flatten path = .ok (".".intercalate segments) := by
      rw [FieldPath.flatten, h]
      rfl
    have hreads := Json.readsAs_text (".".intercalate segments)
    refine ⟨_, Text.stringLiteral (".".intercalate segments), hflatten, ?_,
      hreads.read?_eq trivial, hreads⟩
    rw [field, hflatten]
    rfl

/-- A key with a quote, a bracket and a backslash in it. -/
def quotedPath : String := "a['x\"]\\\\'].b"

theorem literals_read_back_quotedPath :
    FieldPath.segments quotedPath = .ok ["a", "x\"]\\", "b"] ∧ ∃ name s,
      FieldPath.flatten quotedPath = .ok name ∧
      field quotedPath "datum" = .ok ("datum" ++ "[" ++ s ++ "]") ∧
      Json.read? s = some (.text name) ∧ ReadsAs Anything s (.text name) := by
  have hsegments : FieldPath.segments quotedPath = .ok ["a", "x\"]\\", "b"] := rfl
  exact ⟨hsegments, literals_read_back.2 quotedPath "datum" _ hsegments⟩

end Expression

end ChartLowering
