import ChartLowering.FieldPath

/-!
# Spelled paths

A segment of a path can be spelled after a dot, bare in brackets, or quoted in brackets, each with
backslashes before the characters that would end it or mean something else there. A path is read
back as the segments that it spells, in whatever way each of them is spelled.
-/

namespace ChartLowering.FieldPath

namespace Place

/-- Is a character at this place just one more of the segment? -/
def takes : Place → Char → Bool
  | name fresh, c => !(['\\', '.', '[', ']'].contains c) && !(fresh && ['"', '\''].contains c)
  | key fresh, c => !(['\\', '[', ']'].contains c) && !(fresh && ['"', '\''].contains c)
  | quoted quote _, c => !(['\\', quote].contains c)
  | afterQuote, c => !(['\\', '[', ']'].contains c)

theorem takes_stale {place : Place} {c : Char} (h : place.takes c = true) :
    place.stale.takes c = true := by
  cases place with
  | name fresh | key fresh =>
      rw [takes, Bool.and_eq_true] at h
      simpa [takes, stale] using h.1
  | quoted | afterQuote => exact h

@[simp] theorem stale_stale (place : Place) : place.stale.stale = place.stale := by
  cases place <;> rfl

end Place

variable {place : Place} {pending : Option (List Char)} {c : Char} {cs : List Char}
  {fresh bracketed : Bool} {quote : Char}

@[simp] theorem emit_none (r : Except Defect (List (List Char))) : emit none r = r := by
  cases r <;> rfl

theorem scan_escape : scan place pending ('\\' :: c :: cs) =
    scan place.stale (grow pending c) cs := by
  cases place with
  | quoted quote bracketed => cases bracketed <;> rfl
  | name | key | afterQuote => rfl

theorem scan_of_takes (h : place.takes c = true) :
    scan place pending (c :: cs) = scan place (grow pending c) cs := by
  cases place with
  | name fresh | key fresh =>
      cases fresh <;> simp_all [Place.takes, scan, Place.opens, Place.bracketed]
  | quoted | afterQuote => simp_all [Place.takes, scan, Place.opens, Place.bracketed]

theorem scan_dot : scan (.name fresh) pending ('.' :: cs) =
    emit pending (scan (.name false) none cs) := by
  cases fresh <;> simp [scan, Place.opens, Place.bracketed]

theorem scan_open : scan (.name fresh) pending ('[' :: cs) =
    emit pending (scan (.key true) none cs) := by
  cases fresh <;> simp [scan, Place.opens, Place.bracketed]

theorem scan_close : scan (.key fresh) pending (']' :: cs) =
    emit pending (scan (.name false) none cs) := by
  cases fresh <;> simp [scan, Place.opens, Place.bracketed]

theorem scan_close_afterQuote :
    scan .afterQuote pending (']' :: cs) = emit pending (scan (.name false) none cs) := by
  simp [scan, Place.opens, Place.bracketed]

theorem foldl_grow_some (begun cs : List Char) :
    cs.foldl grow (some begun) = some (begun ++ cs) := by
  induction cs generalizing begun with
  | nil => simp
  | cons c rest ih => simp [grow, ih]

theorem foldl_grow_none (h : cs ≠ []) : cs.foldl grow none = some cs := by
  cases cs with
  | nil => exact absurd rfl h
  | cons c rest => exact foldl_grow_some [c] rest

/-- A text with backslashes before some of its characters. -/
def marked (marks cs : List Char) : List Char :=
  cs.flatMap fun c ↦ if marks.contains c then ['\\', c] else [c]

/-- Reading a text whose marked characters are all that mean something here. The place is left as it
is, unless there was a backslash. -/
theorem exists_scan_marked {marks : List Char} (h : ∀ c ∉ marks, place.takes c = true)
    (pending : Option (List Char)) (cs rest : List Char) :
    ∃ next, (next = place ∨ next = place.stale) ∧
      scan place pending (marked marks cs ++ rest) = scan next (cs.foldl grow pending) rest := by
  induction cs generalizing place pending with
  | nil => exact ⟨place, .inl rfl, rfl⟩
  | cons c cs ih =>
      by_cases hc : c ∈ marks
      -- The backslash leaves the place stale, which it stays from there on.
      · have hstale : ∀ c ∉ marks, place.stale.takes c = true :=
          fun c hc ↦ Place.takes_stale (h c hc)
        obtain ⟨next, hnext, hscan⟩ := ih hstale (grow pending c)
        rw [Place.stale_stale, or_self] at hnext
        refine ⟨next, .inr hnext, ?_⟩
        have hmarked : marked marks (c :: cs) = '\\' :: c :: marked marks cs := by
          simp [marked, hc]
        rw [hmarked, List.cons_append, List.cons_append, scan_escape, hscan, List.foldl_cons]
      · obtain ⟨next, hnext, hscan⟩ := ih h (grow pending c)
        refine ⟨next, hnext, ?_⟩
        have hmarked : marked marks (c :: cs) = c :: marked marks cs := by
          simp [marked, hc]
        rw [hmarked, List.cons_append, scan_of_takes (h c hc), hscan, List.foldl_cons]

inductive QuoteMark where
  | single
  | double

def QuoteMark.char : QuoteMark → Char
  | single => '\''
  | double => '"'

/-- A segment and the way in which it is spelled. Only between quotes can it be empty. -/
inductive Spelling where
  | dotted (name : String) (given : name ≠ "")
  | bare (key : String) (given : key ≠ "")
  | quoted (mark : QuoteMark) (key : String)

namespace Spelling

def segment : Spelling → String
  | dotted name _ => name
  | bare key _ | quoted _ key => key

/-- The characters of a segment, without the dot that parts it from those before it. -/
def written : Spelling → List Char
  | dotted name _ => marked ['\\', '.', '[', ']', '"', '\''] name.toList
  | bare key _ => '[' :: marked ['\\', '[', ']', '"', '\''] key.toList ++ [']']
  | quoted mark key =>
      '[' :: mark.char :: marked ['\\', mark.char] key.toList ++ [mark.char, ']']

def parted : Spelling → List Char
  | dotted name given => '.' :: written (dotted name given)
  | spelling => written spelling

/-- The path that segments spell. Only its first segment has no dot before it. -/
def path : List Spelling → String
  | [] => ""
  | first :: rest => String.ofList (first.written ++ rest.flatMap parted)

variable {cs rest : List Char}

theorem exists_scan_dotted {name : String} (given : name ≠ "") :
    ∃ after, scan (.name fresh) none (written (dotted name given) ++ rest) =
      scan (.name after) (some name.toList) rest := by
  have htakes : ∀ c ∉ ['\\', '.', '[', ']', '"', '\''], (Place.name fresh).takes c = true := by
    intro c hc
    simp_all [Place.takes]
  have hname : name.toList ≠ [] := by simpa using given
  obtain ⟨next, hnext, hscan⟩ := exists_scan_marked htakes none name.toList rest
  rw [foldl_grow_none hname] at hscan
  rcases hnext with rfl | rfl
  · exact ⟨fresh, hscan⟩
  · exact ⟨false, hscan⟩

theorem scan_bare {key : String} (given : key ≠ "") :
    scan (.name fresh) pending (written (bare key given) ++ rest) =
      emit pending (emit (some key.toList) (scan (.name false) none rest)) := by
  have htakes : ∀ c ∉ ['\\', '[', ']', '"', '\''], (Place.key true).takes c = true := by
    intro c hc
    simp_all [Place.takes]
  have hkey : key.toList ≠ [] := by simpa using given
  obtain ⟨next, hnext, hscan⟩ := exists_scan_marked htakes none key.toList (']' :: rest)
  rw [foldl_grow_none hkey] at hscan
  have hclose : scan next (some key.toList) (']' :: rest) =
      emit (some key.toList) (scan (.name false) none rest) := by
    rcases hnext with rfl | rfl <;> exact scan_close
  have hwritten : written (bare key given) ++ rest =
      '[' :: (marked ['\\', '[', ']', '"', '\''] key.toList ++ ']' :: rest) := by
    simp [written]
  rw [hwritten, scan_open, hscan, hclose]

theorem scan_quoted {mark : QuoteMark} {key : String} :
    scan (.name fresh) pending (written (quoted mark key) ++ rest) =
      emit pending (emit (some key.toList) (scan (.name false) none rest)) := by
  have htakes : ∀ c ∉ ['\\', mark.char], (Place.quoted mark.char true).takes c = true := by
    intro c hc
    simpa [Place.takes] using hc
  obtain ⟨next, hnext, hscan⟩ := exists_scan_marked htakes none key.toList
    (mark.char :: ']' :: rest)
  obtain rfl : next = .quoted mark.char true := hnext.elim id id
  have hopen : ∀ cs, scan (.key true) none (mark.char :: cs) =
      scan (.quoted mark.char true) none cs := by
    intro cs
    cases mark <;> simp [QuoteMark.char, scan, Place.opens, Place.bracketed]
  have hclose : scan (.quoted mark.char true) (key.toList.foldl grow none)
      (mark.char :: ']' :: rest) = emit (some key.toList) (scan (.name false) none rest) := by
    have hkey : (key.toList.foldl grow none).getD [] = key.toList := by
      by_cases h : key.toList = []
      · rw [h]
        rfl
      · rw [foldl_grow_none h, Option.getD_some]
    have hend : ∀ pending, scan (.quoted mark.char true) pending (mark.char :: ']' :: rest) =
        emit (some (pending.getD [])) (scan .afterQuote none (']' :: rest)) := by
      intro pending
      cases mark <;> simp [QuoteMark.char, scan]
    rw [hend, hkey, scan_close_afterQuote, emit_none]
  have hwritten : written (quoted mark key) ++ rest =
      '[' :: mark.char :: (marked ['\\', mark.char] key.toList ++ mark.char :: ']' :: rest) := by
    simp [written]
  rw [hwritten, scan_open, hopen, hscan, hclose]

/-- After a segment that has been begun or closed, the rest of the spelling adds its own ones. -/
theorem scan_parted (spelled : List Spelling) :
    scan (.name fresh) pending (spelled.flatMap parted) =
      .ok (pending.toList ++ spelled.map fun s ↦ s.segment.toList) := by
  induction spelled generalizing fresh pending with
  | nil => simp [scan]
  | cons first rest ih =>
      rw [List.flatMap_cons]
      cases first with
      | dotted name given =>
          rw [parted, List.cons_append, scan_dot]
          obtain ⟨after, hscan⟩ := exists_scan_dotted given
          rw [hscan, ih]
          rfl
      | bare key given =>
          refine (scan_bare given).trans ?_
          rw [ih]
          rfl
      | quoted mark key =>
          refine scan_quoted.trans ?_
          rw [ih]
          rfl

theorem scan_path (spelled : List Spelling) :
    scan (.name true) none (path spelled).toList =
      .ok (spelled.map fun s ↦ s.segment.toList) := by
  cases spelled with
  | nil => rfl
  | cons first rest =>
      rw [path, String.toList_ofList]
      cases first with
      | dotted name given =>
          obtain ⟨after, hscan⟩ := exists_scan_dotted given
          rw [hscan, scan_parted]
          rfl
      | bare key given => exact scan_parted (bare key given :: rest)
      | quoted mark key => exact scan_parted (quoted mark key :: rest)

end Spelling

/-- Has a name none of the characters that mean something in a path? -/
def Unmarked (name : String) : Prop := ∀ c ∈ name.toList, c ∉ ['\\', '.', '[', ']', '"', '\'']

instance (name : String) : Decidable (Unmarked name) := List.decidableBAll _ name.toList

theorem Unmarked.append {s t : String} (hs : Unmarked s) (ht : Unmarked t) : Unmarked (s ++ t) := by
  intro c hc
  rw [String.toList_append, List.mem_append] at hc
  exact hc.elim (hs c) (ht c)

theorem marked_of_unmarked {name : String} (h : Unmarked name) :
    marked ['\\', '.', '[', ']', '"', '\''] name.toList = name.toList := by
  rw [Unmarked] at h
  generalize name.toList = cs at h
  induction cs with
  | nil => rfl
  | cons c cs ih =>
      have hc := h c List.mem_cons_self
      have hrest := ih fun c hc ↦ h c (List.mem_cons_of_mem _ hc)
      rw [marked, List.flatMap_cons, if_neg (by simpa using hc)]
      exact congrArg (c :: ·) hrest

/-- Such a name is the path of its own column. -/
theorem flatten_of_unmarked {name : String} (h : Unmarked name) : flatten name = .ok name := by
  by_cases hname : name = ""
  · subst hname
    rfl
  · have hspelled : Spelling.path [.dotted name hname] = name := by
      apply String.toList_injective
      simpa [Spelling.path, Spelling.written] using marked_of_unmarked h
    have hscan := Spelling.scan_path [.dotted name hname]
    rw [hspelled] at hscan
    have hsegments : segments name = .ok [name] := by
      rw [segments, segments?, hscan]
      simp [Spelling.segment, pure, Except.pure]
    rw [flatten, hsegments]
    exact congrArg Except.ok (String.intercalate_singleton)

/-- A path reads as the segments that it spells. -/
theorem segments_path (spelled : List Spelling) :
    segments (Spelling.path spelled) = .ok (spelled.map Spelling.segment) := by
  have hsegments : segments? (Spelling.path spelled) = .ok (spelled.map Spelling.segment) := by
    rw [segments?, Spelling.scan_path]
    simp [Function.comp_def]
  rw [segments, hsegments]
  rfl

example : segments "a\\.b[''][0].it\\'s" = .ok ["a.b", "", "0", "it's"] := by
  rfl

end ChartLowering.FieldPath
