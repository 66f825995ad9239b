import ChartLowering.Proofs.FieldPath.Suffix

/-!
# Text before a path

What is written before a path begins its first segment, unless a quote opens in the path before
anything else there means something: then it is dropped. It can never be lost in such a way that the
path itself is what is left.
-/

namespace ChartLowering.FieldPath

/-- Does a quote open in a path before anything else in it means something? -/
def opensQuote : List Char → Bool
  | [] => false
  | c :: cs =>
      if ['"', '\''].contains c then true
      else if ['\\', '.', '[', ']'].contains c then false
      else opensQuote cs

/-- Segments with a text before the first of them. -/
def prepend (start : List Char) : List (List Char) → List (List Char)
  | [] => []
  | s :: rest => (start ++ s) :: rest

variable {c : Char} {cs begun start : List Char} {segments : List (List Char)} {fresh : Bool}

theorem opensQuote_of_takes (h : (Place.name true).takes c = true) :
    opensQuote (c :: cs) = opensQuote cs := by
  simp_all [Place.takes, opensQuote]

theorem intercalate_prepend (h : segments ≠ []) :
    ['.'].intercalate (prepend start segments) = start ++ ['.'].intercalate segments := by
  rcases segments with _ | ⟨s, _ | ⟨t, rest⟩⟩
  · exact absurd rfl h
  · simp [prepend]
  · simp [prepend, List.intercalate_cons_cons]

theorem prepend_emit (r : Except Defect (List (List Char))) :
    emit (some (start ++ begun)) r = prepend start <$> emit (some begun) r := by
  cases r <;> rfl

/-- A text before what has been begun stays before it, or is dropped with it. -/
theorem scan_prepend (fresh : Bool) (start begun cs : List Char) :
    scan (.name fresh) (some (start ++ begun)) cs =
      if (fresh && opensQuote cs) = true then scan (.name fresh) (some begun) cs
      else prepend start <$> scan (.name fresh) (some begun) cs := by
  -- On the length, as a backslash and the character after it are read at once.
  induction hn : cs.length using Nat.strongRecOn generalizing cs fresh begun with
  | ind n ih =>
      have hgrow : ∀ d, grow (some (start ++ begun)) d = some (start ++ (begun ++ [d])) := by
        simp [grow]
      rcases cs with _ | ⟨c, rest⟩
      · rw [opensQuote, Bool.and_false, if_neg Bool.false_ne_true]
        rfl
      rw [List.length_cons] at hn
      by_cases htakes : (Place.name fresh).takes c = true
      · have hopens : (fresh && opensQuote (c :: rest)) = (fresh && opensQuote rest) := by
          cases fresh with
          | false => rfl
          | true => exact opensQuote_of_takes htakes
        rw [scan_of_takes htakes, scan_of_takes htakes, hopens, hgrow]
        exact ih rest.length (by omega) fresh (begun ++ [c]) rest rfl
      have hcases : c = '\\' ∨ c = '.' ∨ c = '[' ∨ c = ']' ∨
          fresh = true ∧ (c = '"' ∨ c = '\'') := by
        simp [Place.takes] at htakes
        tauto
      have hno : ∀ {c : Char}, c ∈ ['\\', '.', '[', ']'] →
          ¬ (fresh && opensQuote (c :: rest)) = true := by
        intro c hc
        simp only [List.mem_cons, List.not_mem_nil, or_false] at hc
        rcases hc with rfl | rfl | rfl | rfl <;> simp [opensQuote]
      rcases hcases with rfl | rfl | rfl | rfl | ⟨rfl, hquote⟩
      · rw [if_neg (hno (by decide))]
        rcases rest with _ | ⟨d, rest⟩
        · rw [scan_last_backslash, scan_last_backslash]
          rfl
        · rw [scan_escape, scan_escape, hgrow]
          rw [List.length_cons] at hn
          exact ih rest.length (by omega) false (begun ++ [d]) rest rfl
      · rw [if_neg (hno (by decide)), scan_dot, scan_dot, prepend_emit]
      · rw [if_neg (hno (by decide)), scan_open, scan_open, prepend_emit]
      · rw [if_neg (hno (by decide))]
        cases fresh <;> rfl
      · have hopens : opensQuote (c :: rest) = true := by
          rcases hquote with rfl | rfl <;> rfl
        rw [hopens, Bool.and_self, if_pos rfl]
        rcases hquote with rfl | rfl <;> rfl

/-- What a path adds to the name of a column after something that has been begun, if it is
accepted. -/
def continuation? (path : String) : Option String :=
  match scan (.name true) (some []) path.toList with
  | .ok segments => some (String.ofList (['.'].intercalate segments))
  | .error _ => none

/-- What is left of a text before a path. -/
def beginning (text path : String) : String :=
  if opensQuote path.toList = true then "" else text

section Names

variable {text path name : String}

/-- The name of a column is what is left of the text before the path, and then what the path adds to
it. -/
theorem flatten_append_eq_ok_iff (htext : Unmarked text) (hne : text ≠ "") :
    flatten (text ++ path) = .ok name ↔
      ∃ rest, continuation? path = some rest ∧ name = beginning text path ++ rest := by
  have hscan := scan_prepend true text.toList [] path.toList
  rw [List.append_nil, Bool.true_and] at hscan
  rw [flatten_eq_ok_iff, scan_append htext hne, hscan, continuation?, beginning]
  cases hread : scan (.name true) (some []) path.toList with
  | error defect =>
      refine iff_of_false ?_ ?_
      · rintro ⟨segments, h, -⟩
        split at h <;> cases h
      · rintro ⟨rest, h, -⟩
        cases h
  | ok segments =>
      have hsegments : segments ≠ [] := ne_nil_of_scan (.inl rfl) hread
      simp only [Option.some.injEq, exists_eq_left']
      rw [← String.toList_inj, String.toList_append, String.toList_ofList]
      cases opensQuote path.toList with
      | true => simp [eq_comm]
      | false => simp [Functor.map, Except.map, intercalate_prepend hsegments, eq_comm]

/-- Whatever is written before a path, what is left is never the path by itself. -/
theorem flatten_append_ne_self (htext : Unmarked text) (hne : text ≠ "") (path : String) :
    flatten (text ++ path) ≠ .ok path := by
  -- If it were, the text would begin the path, and again what comes after it there, and so on.
  have key : ∀ n path other, path.length = n → Unmarked other → text ++ other = other ++ text →
      flatten (text ++ other ++ path) ≠ .ok (other ++ path) := by
    intro n
    induction n using Nat.strongRecOn with
    | ind n ih =>
        intro path other hn hother hcomm h
        have hbegins : Unmarked (text ++ other) ∧ text ++ other ≠ "" := by
          refine ⟨.append htext hother, ?_⟩
          rw [Ne, String.append_eq_empty_iff]
          exact fun hempty ↦ hne hempty.1
        have hprefix := isPrefix_of_flatten_append hbegins.1 hbegins.2 h
        rw [hcomm, String.toList_append, List.prefix_append_right_inj] at hprefix
        obtain ⟨rest, hrest⟩ := hprefix
        have hpath : path = text ++ String.ofList rest := by
          rw [← String.toList_inj, String.toList_append, String.toList_ofList, hrest]
        refine ih rest.length ?_ (String.ofList rest) (other ++ text) (by simp)
          (.append hother htext) ?_ ?_
        · have hlength := congrArg String.length hpath
          have hpos : 0 < text.length := by
            rw [Nat.pos_iff_ne_zero, Ne, String.length_eq_zero_iff]
            exact hne
          rw [String.length_append, String.length_ofList] at hlength
          omega
        · rw [← String.append_assoc, hcomm]
        · rw [hpath] at h
          simpa [String.append_assoc] using h
  have hself := key path.length path "" rfl (by decide) (by simp)
  simpa using hself

end Names

end ChartLowering.FieldPath
