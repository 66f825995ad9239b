import ChartLowering.Proofs.FieldPath.Verbatim

/-!
# Names with dots between them

Names without backslashes, dots and brackets are the segments of the path that they make with dots
between them, unless a quote stands in the first of them. Such a quote opens a key, wherever in the
name it stands, and no bracket follows that would end it. So the path is refused.
-/

namespace ChartLowering.FieldPath

/-- A name in which nothing parts, escapes or encloses. Quotes can stand in it. -/
def IsSimple (name : String) : Prop := name ≠ "" ∧ ∀ c ∈ name.toList, c ∉ ['\\', '.', '[', ']']

def HasQuote (name : String) : Prop := ∃ c ∈ name.toList, c ∈ ['"', '\'']

instance (name : String) : Decidable (IsSimple name) :=
  @instDecidableAnd _ _ _ (List.decidableBAll _ name.toList)

instance (name : String) : Decidable (HasQuote name) := List.decidableBEx _ name.toList

variable {place : Place} {pending : Option (List Char)} {fresh : Bool} {cs rest : List Char}
  {first : String} {names : List String}

/-- A character that is neither special nor a quote at a place where one opens is part of a name. -/
theorem takes_of_notMem {c : Char} (hc : c ∉ ['\\', '.', '[', ']'])
    (hquote : fresh = true → c ∉ ['"', '\'']) : (Place.name fresh).takes c = true := by
  cases fresh <;> simp_all [Place.takes]

/-- A path cannot end between brackets or quotes, and only a closing bracket leads out of them. -/
theorem exists_defect_of_bracketed (hplace : place.bracketed = true)
    (hcs : ∀ c ∈ cs, c ∉ ['\\', ']']) : ∃ defect, scan place pending cs = .error defect := by
  induction cs generalizing place pending with
  | nil =>
      cases place with
      | name fresh => cases hplace
      | quoted quote bracketed =>
          cases bracketed with
          | false => exact ⟨.closingQuote, rfl⟩
          | true => exact ⟨.closingBracket, rfl⟩
      | key | afterQuote => exact ⟨.closingBracket, rfl⟩
  | cons c rest ih =>
      obtain ⟨hc, hrest⟩ := List.forall_mem_cons.1 hcs
      have hslash : c ≠ '\\' := by simp_all
      have hclose : c ≠ ']' := by simp_all
      have hparts {next : Place} (kept : Option (List Char)) (hnext : next.bracketed = true) :
          ∃ defect, emit kept (scan next none rest) = .error defect := by
        obtain ⟨defect, hdefect⟩ : ∃ defect, scan next none rest = .error defect := ih hnext hrest
        exact ⟨defect, by rw [hdefect]; rfl⟩
      cases hquoted : place.isQuoted with
      | true =>
          obtain ⟨quote, bracketed, rfl⟩ := Place.exists_of_isQuoted hquoted
          rw [scan_quoted_cons hslash]
          split
          · exact hparts _ rfl
          · exact ih rfl hrest
      | false =>
          have hdot : ¬ (c = '.' ∧ ¬ place.bracketed = true) := fun h ↦ h.2 hplace
          rw [scan_cons hquoted hslash, if_neg hclose, if_neg hdot]
          split
          · exact ih rfl hrest
          · split
            · exact hparts _ rfl
            · exact ih hplace hrest

/-- A quote in the first name encloses all that comes after it. -/
theorem exists_defect_of_quote (hquote : ∃ c ∈ cs, c ∈ ['"', '\''])
    (hcs : ∀ c ∈ cs, c ∉ ['\\', '.', '[', ']']) (hrest : ∀ c ∈ rest, c ∉ ['\\', ']']) :
    ∃ defect, scan (.name true) pending (cs ++ rest) = .error defect := by
  induction cs generalizing pending with
  | nil =>
      obtain ⟨c, hc, -⟩ := hquote
      cases hc
  | cons c cs ih =>
      obtain ⟨hc, hcs⟩ := List.forall_mem_cons.1 hcs
      rw [List.cons_append]
      by_cases hopens : c ∈ ['"', '\'']
      · have hslash : c ≠ '\\' := by simp_all
        have hsame : Place.opens (.name true) = true ∧ (c = '"' ∨ c = '\'') :=
          ⟨rfl, by simpa using hopens⟩
        have hafter : ∀ d ∈ cs ++ rest, d ∉ ['\\', ']'] := by
          intro d hd
          rcases List.mem_append.1 hd with hd | hd
          · have hplain := hcs d hd
            simp_all
          · exact hrest d hd
        rw [scan_cons rfl hslash, if_pos hsame]
        exact exists_defect_of_bracketed rfl hafter
      · have hlater : ∃ d ∈ cs, d ∈ ['"', '\''] := by
          obtain ⟨d, hd, hmark⟩ := hquote
          obtain rfl | hd := List.mem_cons.1 hd
          · exact absurd hmark hopens
          · exact ⟨d, hd, hmark⟩
        rw [scan_of_takes (takes_of_notMem hc fun _ ↦ hopens)]
        exact ih hlater hcs

/-- More names, each after a dot, are more segments, quotes and all. -/
theorem scan_parted_names (h : ∀ name ∈ names, IsSimple name) :
    scan (.name fresh) pending (names.flatMap fun name ↦ '.' :: name.toList) =
      .ok (pending.toList ++ names.map String.toList) := by
  induction names generalizing fresh pending with
  | nil => simp [scan]
  | cons name rest ih =>
      obtain ⟨⟨hne, hname⟩, hrest⟩ := List.forall_mem_cons.1 h
      have htakes : ∀ c ∈ name.toList, (Place.name false).takes c = true :=
        fun c hc ↦ takes_of_notMem (hname c hc) fun h ↦ absurd h Bool.false_ne_true
      rw [List.flatMap_cons, List.cons_append, scan_dot, scan_append_of_takes htakes,
        foldl_grow_none (by simpa using hne), ih hrest]
      rfl

theorem toList_dotted (first : String) (names : List String) :
    (".".intercalate (first :: names)).toList =
      first.toList ++ names.flatMap fun name ↦ '.' :: name.toList := by
  rw [String.toList_intercalate, List.map_cons]
  show ['.'].intercalate _ = _
  induction names generalizing first with
  | nil => simp
  | cons name rest ih => rw [List.map_cons, List.intercalate_cons_cons, ih]; simp

theorem segments_of_not_hasQuote (h : ∀ name ∈ first :: names, IsSimple name)
    (hquote : ¬ HasQuote first) :
    segments (".".intercalate (first :: names)) = .ok (first :: names) := by
  obtain ⟨⟨hne, hfirst⟩, hnames⟩ := List.forall_mem_cons.1 h
  have htakes : ∀ c ∈ first.toList, (Place.name true).takes c = true :=
    fun c hc ↦ takes_of_notMem (hfirst c hc) fun _ hmark ↦ hquote ⟨c, hc, hmark⟩
  rw [segments_eq_ok_iff, toList_dotted, scan_append_of_takes htakes,
    foldl_grow_none (by simpa using hne), scan_parted_names hnames]
  rfl

theorem exists_defect_of_hasQuote (h : ∀ name ∈ first :: names, IsSimple name)
    (hquote : HasQuote first) : ∃ defect : Defect, segments (".".intercalate (first :: names)) =
      .error (.spec (defect.reason (".".intercalate (first :: names)))) := by
  obtain ⟨⟨-, hfirst⟩, hnames⟩ := List.forall_mem_cons.1 h
  have hrest : ∀ c ∈ names.flatMap fun name ↦ '.' :: name.toList, c ∉ ['\\', ']'] := by
    intro c hc
    obtain ⟨name, hname, hc⟩ := List.mem_flatMap.1 hc
    obtain rfl | hc := List.mem_cons.1 hc
    · decide
    · have hplain := (hnames name hname).2 c hc
      simp_all
  obtain ⟨defect, hdefect⟩ : ∃ defect, scan (.name true) none
      (first.toList ++ names.flatMap fun name ↦ '.' :: name.toList) = .error defect :=
    exists_defect_of_quote hquote hfirst hrest
  refine ⟨defect, ?_⟩
  rw [segments, segments?, toList_dotted, hdefect]
  rfl

/-- Simple names with dots between them are read as these names just if there is no quote in the
first one. Otherwise the path is refused. -/
theorem segments_dotted_iff (h : ∀ name ∈ first :: names, IsSimple name) :
    (segments (".".intercalate (first :: names)) = .ok (first :: names) ↔ ¬ HasQuote first) ∧
      (HasQuote first → ∃ defect : Defect, segments (".".intercalate (first :: names)) =
        .error (.spec (defect.reason (".".intercalate (first :: names))))) := by
  refine ⟨⟨fun hread hquote ↦ ?_, segments_of_not_hasQuote h⟩, exists_defect_of_hasQuote h⟩
  obtain ⟨defect, hdefect⟩ := exists_defect_of_hasQuote h hquote
  rw [hread] at hdefect
  cases hdefect

theorem segments_dotted_iff_apostrophe :
    (∀ name ∈ ["log", "it's", "\"odd\""], IsSimple name) ∧
      segments "log.it's.\"odd\"" = .ok ["log", "it's", "\"odd\""] := by
  have hsimple : ∀ name ∈ ["log", "it's", "\"odd\""], IsSimple name := by decide
  exact ⟨hsimple, (segments_dotted_iff hsimple).1.2 (by decide)⟩

/-- An apostrophe in a name by itself is taken for a quote that is never closed. -/
theorem not_segments_apostrophe : (∀ name ∈ ["it's"], IsSimple name) ∧
    segments (".".intercalate ["it's"]) = .error (.spec (.closingQuoteMissing (.text "it's"))) := by
  refine ⟨by decide, rfl⟩

end ChartLowering.FieldPath
