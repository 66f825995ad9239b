import ChartLowering.Proofs.FieldPath.Verbatim

/-!
# Text after a path

What is written after a path becomes part of its last segment, unless the path ends in a dot or in a
closing bracket that means something: then it is a segment of its own, with a dot before it.
-/

namespace ChartLowering.FieldPath

/-- Does a path end inside of a segment? It does not if its last character is a dot or a closing
bracket, unless a backslash stands before it. -/
def endsOpen : List Char → Bool
  | [] => false
  | ['\\'] => true
  | '\\' :: _ :: cs => cs.isEmpty || endsOpen cs
  | c :: cs => if cs.isEmpty then c != '.' && c != ']' else endsOpen cs

/-- Is a segment open after a text, given the one that has been begun before it? -/
def isOpen (pending : Option (List Char)) (cs : List Char) : Bool :=
  if cs.isEmpty then pending.isSome else endsOpen cs

/-- Segments before and after a text has been added to their path: it is more of the last segment if
that one is open, or else a segment of its own. -/
inductive Extends (ds : List Char) : Bool → List (List Char) → List (List Char) → Prop
  | within (before : List (List Char)) (last : List Char) :
      Extends ds true (before ++ [last]) (before ++ [last ++ ds])
  | after (segments : List (List Char)) : Extends ds false segments (segments ++ [ds])

variable {place next : Place} {pending begun : Option (List Char)} {c : Char}
  {cs ds : List Char} {segments others : List (List Char)}

@[simp] theorem isOpen_nil : isOpen pending [] = pending.isSome := rfl

theorem isOpen_of_ne_nil (h : cs ≠ []) : isOpen pending cs = endsOpen cs := by
  simp [isOpen, h]

theorem endsOpen_escape : endsOpen ('\\' :: c :: cs) = isOpen (grow pending c) cs := by
  cases cs <;> simp [endsOpen, isOpen, grow]

theorem endsOpen_cons (hc : c ≠ '\\') :
    endsOpen (c :: cs) = if cs.isEmpty then c != '.' && c != ']' else endsOpen cs := by
  rw [endsOpen]
  · simp [hc]
  · simp [hc]

theorem Extends.append_left {isOpen : Bool} (kept : List (List Char))
    (h : Extends ds isOpen segments others) :
    Extends ds isOpen (kept ++ segments) (kept ++ others) := by
  cases h with
  | within before last =>
      rw [← List.append_assoc, ← List.append_assoc]
      exact .within (kept ++ before) last
  | after segments =>
      rw [← List.append_assoc]
      exact .after (kept ++ segments)

theorem scan_nil_eq_ok (h : scan place pending [] = .ok segments) :
    (∃ fresh, place = .name fresh) ∧ segments = pending.toList := by
  cases place with
  | name fresh => exact ⟨⟨fresh, rfl⟩, (Except.ok.inj h).symm⟩
  | quoted quote bracketed => cases bracketed <;> cases h
  | key | afterQuote => cases h

/-- What comes after all of a path is more of what has been begun. -/
theorem scan_unmarked {fresh : Bool} (hds : ds ≠ [])
    (h : ∀ d ∈ ds, d ∉ ['\\', '.', '[', ']', '"', '\'']) :
    scan (.name fresh) pending ds = .ok [pending.getD [] ++ ds] := by
  have htakes : ∀ d ∈ ds, (Place.name fresh).takes d = true := by
    intro d hd
    have hplain := h d hd
    simp_all [Place.takes]
  have hgrown : ds.foldl grow pending = some (pending.getD [] ++ ds) := by
    cases pending with
    | none => exact foldl_grow_none hds
    | some begun => exact foldl_grow_some begun ds
  have hread := scan_append_of_takes htakes pending []
  rw [List.append_nil, hgrown] at hread
  exact hread

theorem extends_toList (pending : Option (List Char)) :
    Extends ds pending.isSome pending.toList [pending.getD [] ++ ds] := by
  cases pending with
  | none => exact .after []
  | some begun => exact .within [] begun

/-- A text without a meaning after a path that is read. -/
theorem exists_scan_append (hds : ds ≠ []) (hplain : ∀ d ∈ ds, d ∉ ['\\', '.', '[', ']', '"', '\''])
    (h : scan place pending cs = .ok segments) :
    ∃ others, scan place pending (cs ++ ds) = .ok others ∧
      Extends ds (isOpen pending cs) segments others := by
  -- On the length, as a backslash and the character after it are read at once.
  induction hn : cs.length using Nat.strongRecOn generalizing cs place pending segments with
  | ind n ih =>
      rcases cs with _ | ⟨c, rest⟩
      · obtain ⟨⟨fresh, rfl⟩, rfl⟩ := scan_nil_eq_ok h
        exact ⟨_, scan_unmarked hds hplain, extends_toList pending⟩
      rw [List.length_cons] at hn
      rw [isOpen_of_ne_nil (List.cons_ne_nil c rest)]
      by_cases hc : c = '\\'
      · subst hc
        rcases rest with _ | ⟨d, rest⟩
        -- A backslash at the end takes the first character of the text, which means nothing anyway.
        · obtain ⟨hplace, rfl⟩ := scan_nil_eq_ok (scan_last_backslash.symm.trans h)
          obtain ⟨d, ds, rfl⟩ := List.exists_cons_of_ne_nil hds
          refine ⟨[pending.getD [] ++ d :: ds], ?_, extends_toList (some (pending.getD []))⟩
          obtain ⟨fresh, hfresh⟩ := hplace
          rw [List.cons_append, List.nil_append, scan_escape, hfresh]
          have hgrown : pending.getD [] ++ d :: ds = (grow pending d).getD [] ++ ds := by
            simp [grow]
          rw [hgrown]
          rcases ds with _ | ⟨e, ds⟩
          · simp [scan, grow]
          · exact scan_unmarked (List.cons_ne_nil e ds) fun x hx ↦ hplain x (.tail d hx)
        · rw [scan_escape] at h
          rw [List.cons_append, List.cons_append, scan_escape, endsOpen_escape]
          rw [List.length_cons] at hn
          exact ih rest.length (by omega) h rfl
      · rcases exists_step place pending hc with
          ⟨defect, herror⟩ | ⟨kept, next, begun, hstep, hscan⟩
        · rw [herror] at h
          cases h
        rw [hscan] at h
        obtain ⟨later, hlater, rfl⟩ := cost_emit h
        obtain ⟨others, hread, hextends⟩ := ih rest.length (by omega) hlater rfl
        have hopen : endsOpen (c :: rest) = isOpen begun rest := by
          rw [endsOpen_cons hc]
          cases rest with
          | nil =>
              obtain ⟨⟨fresh, rfl⟩, -⟩ := scan_nil_eq_ok hlater
              rw [isOpen_nil, Bool.eq_iff_iff, hstep.parts rfl]
              simp
          | cons d rest => simp [isOpen]
        refine ⟨kept.toList ++ others, ?_, ?_⟩
        · rw [List.cons_append, hscan, hread]
          rfl
        · rw [hopen]
          exact hextends.append_left kept.toList

/-- What has been begun, or stands between quotes, is never all lost. -/
theorem ne_nil_of_scan (hbegun : pending.isSome = true ∨ place.isQuoted = true)
    (h : scan place pending cs = .ok segments) : segments ≠ [] := by
  induction hn : cs.length using Nat.strongRecOn generalizing cs place pending segments with
  | ind n ih =>
      rcases cs with _ | ⟨c, rest⟩
      · obtain ⟨⟨fresh, rfl⟩, rfl⟩ := scan_nil_eq_ok h
        rcases hbegun with hsome | hquoted
        · obtain ⟨begun, rfl⟩ := Option.isSome_iff_exists.1 hsome
          exact List.cons_ne_nil begun []
        · cases hquoted
      rw [List.length_cons] at hn
      by_cases hc : c = '\\'
      · subst hc
        rcases rest with _ | ⟨d, rest⟩
        · obtain ⟨-, rfl⟩ := scan_nil_eq_ok (scan_last_backslash.symm.trans h)
          exact List.cons_ne_nil _ _
        · rw [scan_escape] at h
          rw [List.length_cons] at hn
          exact ih rest.length (by omega) (.inl rfl) h rfl
      · rcases exists_step place pending hc with
          ⟨defect, herror⟩ | ⟨kept, next, begun, hstep, hscan⟩
        · rw [herror] at h
          cases h
        rw [hscan] at h
        obtain ⟨later, hlater, rfl⟩ := cost_emit h
        rcases hstep.holds hbegun with hkept | hlost
        · obtain ⟨segment, rfl⟩ := Option.isSome_iff_exists.1 hkept
          exact List.cons_ne_nil segment later
        · have hne := ih rest.length (by omega) hlost hlater rfl
          exact List.append_ne_nil_of_right_ne_nil _ hne

theorem intercalate_append_singleton (h : segments ≠ []) (last : List Char) :
    ['.'].intercalate (segments ++ [last]) = ['.'].intercalate segments ++ '.' :: last := by
  induction segments with
  | nil => exact absurd rfl h
  | cons s rest ih =>
      cases rest with
      | nil => simp
      | cons t later =>
          rw [List.cons_append, List.cons_append, List.intercalate_cons_cons,
            ← List.cons_append, ih (List.cons_ne_nil t later), List.intercalate_cons_cons]
          simp

theorem intercalate_append_last (before : List (List Char)) (last : List Char) :
    ['.'].intercalate (before ++ [last ++ ds]) =
      ['.'].intercalate (before ++ [last]) ++ ds := by
  by_cases hbefore : before = []
  · rw [hbefore]
    simp
  · rw [intercalate_append_singleton hbefore, intercalate_append_singleton hbefore]
    simp

/-- What stands between the name of a column and a text that is added to its path. -/
def junction (field : String) : String :=
  if field = "" ∨ endsOpen field.toList = true then "" else "."

/-- What is added to a path that begins with a plain name is added to the name of its column, with a
dot in between if the path does not end inside of a segment. -/
theorem flatten_append_suffix {start field name suffix : String} (hstart : Unmarked start)
    (hne : start ≠ "") (hsuffix : Unmarked suffix) (hgiven : suffix ≠ "")
    (h : flatten (start ++ field) = .ok name) :
    flatten (start ++ field ++ suffix) = .ok (name ++ (junction field ++ suffix)) := by
  obtain ⟨segments, hread, hname⟩ := flatten_eq_ok_iff.1 h
  rw [scan_append hstart hne] at hread
  have hsegments : segments ≠ [] := ne_nil_of_scan (.inl rfl) hread
  have hds : suffix.toList ≠ [] := by simpa using hgiven
  obtain ⟨others, hothers, hextends⟩ := exists_scan_append hds hsuffix hread
  apply flatten_eq_ok_iff.2
  refine ⟨others, ?_, ?_⟩
  · rw [String.append_assoc, scan_append hstart hne, String.toList_append, hothers]
  have hopen : (field = "" ∨ endsOpen field.toList = true) ↔
      isOpen (some start.toList) field.toList = true := by
    by_cases hfield : field = ""
    · simp [hfield]
    · rw [isOpen_of_ne_nil (by simpa using hfield), or_iff_right hfield]
  rw [junction, if_congr hopen rfl rfl, String.toList_append, ← hname]
  generalize isOpen (some start.toList) field.toList = isOpen at hextends
  cases hextends with
  | within before last =>
      rw [intercalate_append_last, if_pos rfl, String.empty_append]
  | after =>
      rw [intercalate_append_singleton hsegments, if_neg Bool.false_ne_true, String.toList_append]
      rfl

theorem not_isWord_of_mem : ∀ c ∈ ['\\', '.', '[', ']', '"', '\''], Text.isWord c = false := by
  simp only [List.forall_mem_cons, List.not_mem_nil, false_implies, implies_true, and_true]
  refine ⟨?_, ?_, ?_, ?_, ?_, ?_⟩ <;> decide +kernel

theorem unmarked_wordsOnly (s : String) : Unmarked (Text.wordsOnly s) := by
  intro c hc hmark
  rw [Text.wordsOnly, String.toList_map] at hc
  obtain ⟨d, -, rfl⟩ := List.mem_map.1 hc
  have hno := not_isWord_of_mem _ hmark
  by_cases hd : Text.isWord d = true
  · rw [if_pos hd, hd] at hno
    cases hno
  · rw [if_neg hd] at hno
    exact absurd hno (by decide)

end ChartLowering.FieldPath

namespace ChartLowering

open FieldPath

theorem unmarked_join {words : List String} (h : ∀ w ∈ words, Unmarked w) :
    Unmarked (String.join words) := by
  intro c hc
  rw [String.toList_join] at hc
  obtain ⟨w, hw, hc⟩ := List.mem_flatMap.1 hc
  exact h w hw c hc

theorem Binning.unmarked_name (b : Binning) : Unmarked b.name := by
  have hbin : Unmarked "bin" := by decide
  cases b with
  | flag | named => exact hbin
  | «with» parameters =>
      refine .append hbin (unmarked_join fun w hw ↦ ?_)
      obtain ⟨m, -, rfl⟩ := List.mem_map.1 hw
      exact unmarked_wordsOnly _

theorem Binning.name_ne_empty (b : Binning) : b.name ≠ "" := by
  have hbin : "bin" ≠ "" := by decide
  cases b with
  | flag | named => exact hbin
  | «with» parameters =>
      rw [Binning.name, Ne, String.append_eq_empty_iff]
      exact fun h ↦ hbin h.1

namespace FieldDef

variable {fd : FieldDef} {bin : Binning} {start : String}

theorem isBinned_of_asks (hbin : fd.bin = some bin) (hasks : bin.asks = true) :
    fd.isBinned = true := by
  rw [isBinned, hbin]
  exact hasks

/-- The column of a bin begins with the name of the bin, which has no meaning in a path. -/
theorem exists_column_eq (hbin : fd.bin = some bin) (hasks : bin.asks = true)
    (hcount : fd.isCount = false) :
    ∃ begun : String, Unmarked begun ∧ begun ≠ "" ∧ fd.column none = begun ++ fd.path := by
  have hfunction : fd.functionName = .text bin.name := by
    simp [functionName, hbin, hasks]
  have hname := bin.name_ne_empty
  have hderived : derived fd.functionName fd.path =
      if fd.path = "" then bin.name else bin.name ++ "_" ++ fd.path := by
    rw [hfunction]
    simp [derived, Value.truthy, Value.shown, hname]
  have hnone : fd.column none = derived fd.functionName fd.path := by
    simp [column, hcount]
  rw [hnone, hderived]
  by_cases hpath : fd.path = ""
  · exact ⟨bin.name, bin.unmarked_name, hname, by simp [hpath]⟩
  · refine ⟨bin.name ++ "_", .append bin.unmarked_name (by decide), ?_, ?_⟩
    · rw [Ne, String.append_eq_empty_iff]
      exact fun h ↦ hname h.1
    · rw [if_neg hpath]

theorem column_eq_of_not_binned (h : ¬ (fd.isBinned = true ∧ fd.isCount = false))
    (suffix : Option String) : fd.column suffix = fd.column none := by
  cases hcount : fd.isCount with
  | true => simp [column, hcount]
  | false =>
      have hbinned : fd.isBinned = false := by
        simpa [hcount] using h
      cases suffix <;> simp [column, hbinned]

/-- A suffix is added to the name of the column in which a bin starts, after one more dot if the
path of the field ends in a dot or a bracket. -/
theorem output_suffix {suffix : String} (hbinned : fd.isBinned = true) (hcount : fd.isCount = false)
    (hsuffix : Unmarked suffix) (hne : suffix ≠ "") (h : fd.output = .ok start) :
    fd.output suffix = .ok (start ++ (junction fd.path ++ ("_" ++ suffix))) := by
  obtain ⟨bin, hbin, hasks⟩ := (Option.any_eq_true _ _).1 hbinned
  obtain ⟨begun, hbegun, hbegunNe, hcolumn⟩ := exists_column_eq hbin hasks hcount
  have hparted : fd.column suffix = begun ++ fd.path ++ ("_" ++ suffix) := by
    have hadded : fd.column suffix = fd.column none ++ "_" ++ suffix := by
      simp [column, hcount, hbinned, hne]
    rw [hadded, hcolumn, String.append_assoc]
  have haddedNe : "_" ++ suffix ≠ "" := by
    rw [Ne, String.append_eq_empty_iff]
    exact fun h ↦ hne h.2
  rw [output, hcolumn] at h
  rw [output, hparted]
  exact flatten_append_suffix hbegun hbegunNe (.append (by decide) hsuffix) haddedNe h

/-- What the name of the column in which a band ends has besides that of the column in which it
starts. Only a bin has two columns. -/
def ending (fd : FieldDef) : String :=
  if fd.isBinned = true ∧ fd.isCount = false then junction fd.path ++ "_end" else ""

theorem output_end (h : fd.output = .ok start) : fd.output "end" = .ok (start ++ fd.ending) := by
  rw [ending]
  by_cases hbinned : fd.isBinned = true ∧ fd.isCount = false
  · rw [if_pos hbinned]
    exact output_suffix hbinned.1 hbinned.2 (by decide) (by decide) h
  · have hflatten : flatten (fd.column none) = .ok start := h
    rw [if_neg hbinned, output, column_eq_of_not_binned hbinned, hflatten, String.append_empty]

/-- The column in which a band ends is named after the one in which it starts just for bins whose
field has a path that does not end in a dot or a bracket. -/
theorem ending_eq_iff : fd.ending = "_end" ↔ fd.isBinned = true ∧ fd.isCount = false ∧
    (fd.path = "" ∨ endsOpen fd.path.toList = true) := by
  rw [ending, junction, ← and_assoc]
  by_cases hbinned : fd.isBinned = true ∧ fd.isCount = false
  · rw [if_pos hbinned, and_iff_right hbinned]
    split
    · rename_i hopen
      exact iff_of_true rfl hopen
    · rename_i hclosed
      exact iff_of_false (by decide) hclosed
  · rw [if_neg hbinned]
    exact iff_of_false (by decide) fun h ↦ hbinned h.1

end FieldDef

end ChartLowering
