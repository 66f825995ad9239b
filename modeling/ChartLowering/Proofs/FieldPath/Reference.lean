import ChartLowering.FieldDef.Name
import ChartLowering.Proofs.FieldPath.Spelling
import ChartLowering.Proofs.Report

/-!
# References to columns

A reference to a column is its name with the dots escaped, and nothing else. It is read back as that
name exactly if nothing else in the name means something to a reader of paths; otherwise what it is
read as is shorter than the name.
-/

namespace ChartLowering

namespace FieldPath

/-- A text with its dots escaped. -/
abbrev escaped (cs : List Char) : List Char := marked ['.'] cs

theorem toList_escapeDots (name : String) : (escapeDots name).toList = escaped name.toList := by
  rw [escapeDots, String.toList_ofList, escaped, marked]
  congr 1
  funext c
  by_cases hc : c = '.' <;> simp [hc]

theorem escaped_append (cs ds : List Char) : escaped (cs ++ ds) = escaped cs ++ escaped ds :=
  List.flatMap_append

theorem escaped_intercalate (segments : List (List Char)) :
    escaped (['.'].intercalate segments) = ['\\', '.'].intercalate (segments.map escaped) := by
  induction segments with
  | nil => rfl
  | cons first rest ih =>
      cases rest with
      | nil => simp
      | cons second rest =>
          simp only [List.intercalate, List.map_cons, List.intersperse_cons_cons,
            List.flatten_cons, escaped_append] at ih ⊢
          rw [ih]
          rfl

theorem intercalate_escapeDots (segments : List String) :
    "\\.".intercalate (segments.map escapeDots) = escapeDots (".".intercalate segments) := by
  have hdots : segments.map (String.toList ∘ escapeDots) =
      (segments.map String.toList).map escaped := by
    simp [toList_escapeDots]
  rw [← String.toList_inj, toList_escapeDots, String.toList_intercalate, String.toList_intercalate,
    List.map_map, hdots]
  exact (escaped_intercalate _).symm

theorem reference_eq_ok_iff {path ref : String} : reference path = .ok ref ↔
    ∃ name, flatten path = .ok name ∧ escapeDots name = ref := by
  rw [reference, flatten]
  cases segments path with
  | error fault => simp [bind, Except.bind]
  | ok found => simp [bind, Except.bind, pure, Except.pure, intercalate_escapeDots]

section Length

variable {place : Place} {pending : Option (List Char)} {c : Char} {cs : List Char}

/-- Is this a place between quotes? -/
def Place.isQuoted : Place → Bool
  | quoted _ _ => true
  | _ => false

theorem Place.exists_of_isQuoted (h : place.isQuoted = true) :
    ∃ quote bracketed, place = quoted quote bracketed := by
  cases place with
  | quoted quote bracketed => exact ⟨quote, bracketed, rfl⟩
  | name | key | afterQuote => cases h

/-- The length of a segment as far as it has been read. -/
def held (pending : Option (List Char)) : Nat := (pending.getD []).length

/-- The characters of all segments together. -/
def total (segments : List (List Char)) : Nat := segments.flatten.length

theorem held_grow : held (grow pending c) = held pending + 1 := by
  simp [held, grow]

/-- What one character does to the segment that has been begun: it grows, or it is dropped, or else
kept as it is. -/
def Turns (pending : Option (List Char)) (c : Char) (kept begun : Option (List Char)) : Prop :=
  kept = none ∧ begun = grow pending c ∨
    begun = none ∧ (kept = none ∨ kept.getD [] = pending.getD [])

theorem scan_quoted_cons {quote : Char} {bracketed : Bool} (hc : c ≠ '\\')
    (pending : Option (List Char)) (cs : List Char) :
    scan (.quoted quote bracketed) pending (c :: cs) =
      if c = quote then emit (some (pending.getD [])) (scan .afterQuote none cs)
      else scan (.quoted quote bracketed) (grow pending c) cs := by
  rw [scan]
  · simp [hc]
  · simp [hc]

theorem scan_cons (hplace : place.isQuoted = false) (hc : c ≠ '\\')
    (pending : Option (List Char)) (cs : List Char) :
    scan place pending (c :: cs) =
      if place.opens ∧ (c = '"' ∨ c = '\'') then scan (.quoted c place.bracketed) none cs
      else if c = '.' ∧ ¬place.bracketed then emit pending (scan (.name false) none cs)
      else if c = '[' then emit pending (scan (.key true) none cs)
      else if c = ']' then
        if place.bracketed then emit pending (scan (.name false) none cs)
        else .error .openBracket
      else scan place (grow pending c) cs := by
  have hother : ∀ quote bracketed, place ≠ .quoted quote bracketed := by
    rintro quote bracketed rfl
    cases hplace
  rw [scan]
  · simp [hc]
  · simp [hc]
  · simpa using hother

/-- One step of the reader over a character other than a backslash. It leads into a name with a
segment begun unless the character has parted segments, and what has been begun, or stands between
quotes, is not lost but for a quote. -/
structure Step (place : Place) (pending : Option (List Char)) (c : Char)
    (kept : Option (List Char)) (next : Place) (begun : Option (List Char)) : Prop where
  turns : Turns pending c kept begun
  parts : next.bracketed = false → (begun.isSome = true ↔ c ≠ '.' ∧ c ≠ ']')
  holds : pending.isSome = true ∨ place.isQuoted = true →
    kept.isSome = true ∨ begun.isSome = true ∨ next.isQuoted = true

/-- What a character other than a backslash can do, whatever comes after it: be refused, or be kept
or dropped, and end a segment or drop what has been read of one. -/
theorem exists_step (place : Place) (pending : Option (List Char)) (hc : c ≠ '\\') :
    (∃ defect, ∀ cs, scan place pending (c :: cs) = .error defect) ∨
      ∃ kept next begun, Step place pending c kept next begun ∧
        ∀ cs, scan place pending (c :: cs) = emit kept (scan next begun cs) := by
  have hgrow : (place.bracketed = false → c ≠ '.' ∧ c ≠ ']') →
      Step place pending c none place (grow pending c) := by
    intro hparts
    exact ⟨.inl ⟨rfl, rfl⟩, fun h ↦ iff_of_true rfl (hparts h), fun _ ↦ .inr (.inl rfl)⟩
  cases hplace : place.isQuoted with
  | true =>
      obtain ⟨quote, bracketed, rfl⟩ := Place.exists_of_isQuoted hplace
      right
      by_cases hquote : c = quote
      · refine ⟨some (pending.getD []), .afterQuote, none, ⟨.inr ⟨rfl, .inr rfl⟩, ?_, ?_⟩, ?_⟩
        · intro h
          cases h
        · exact fun _ ↦ .inl rfl
        · intro cs
          rw [scan_quoted_cons hc, if_pos hquote]
      · refine ⟨none, _, _, hgrow fun h ↦ ?_, fun cs ↦ ?_⟩
        · cases h
        · rw [scan_quoted_cons hc, if_neg hquote, emit_none]
  | false =>
      have hemit : ∀ next : Place, (next.bracketed = false → c = '.' ∨ c = ']') →
          Step place pending c pending next none := by
        intro next hparts
        refine ⟨.inr ⟨rfl, .inr rfl⟩, fun h ↦ ?_, fun h ↦ ?_⟩
        · rcases hparts h with rfl | rfl <;> simp
        · rw [hplace] at h
          exact .inl (by simpa using h)
      by_cases hquote : place.opens = true ∧ (c = '"' ∨ c = '\'')
      · refine .inr ⟨none, .quoted c place.bracketed, none, ⟨.inr ⟨rfl, .inl rfl⟩, ?_, ?_⟩, ?_⟩
        · intro h
          cases h
        · exact fun _ ↦ .inr (.inr rfl)
        · intro cs
          rw [scan_cons hplace hc, if_pos hquote, emit_none]
      by_cases hdot : c = '.' ∧ ¬place.bracketed = true
      · refine .inr ⟨pending, _, none, hemit (.name false) fun _ ↦ .inl hdot.1, fun cs ↦ ?_⟩
        rw [scan_cons hplace hc, if_neg hquote, if_pos hdot]
      by_cases hopen : c = '['
      · refine .inr ⟨pending, _, none, hemit (.key true) fun h ↦ ?_, fun cs ↦ ?_⟩
        · cases h
        · rw [scan_cons hplace hc, if_neg hquote, if_neg hdot, if_pos hopen]
      by_cases hclose : c = ']'
      · cases hbracketed : place.bracketed with
        | true =>
            refine .inr ⟨pending, _, none, hemit (.name false) fun _ ↦ .inr hclose, fun cs ↦ ?_⟩
            rw [scan_cons hplace hc, if_neg hquote, if_neg hdot, if_neg hopen, if_pos hclose,
              if_pos hbracketed]
        | false =>
            refine .inl ⟨.openBracket, fun cs ↦ ?_⟩
            rw [scan_cons hplace hc, if_neg hquote, if_neg hdot, if_neg hopen, if_pos hclose,
              if_neg (ne_true_of_eq_false hbracketed)]
      · refine .inr ⟨none, _, _, hgrow fun h ↦ ⟨fun heq ↦ ?_, hclose⟩, fun cs ↦ ?_⟩
        · exact hdot ⟨heq, ne_true_of_eq_false h⟩
        · rw [scan_cons hplace hc, if_neg hquote, if_neg hdot, if_neg hopen, if_neg hclose,
            emit_none]

theorem exists_scan_cons (place : Place) (pending : Option (List Char)) (cs : List Char)
    (hc : c ≠ '\\') :
    (∃ defect, scan place pending (c :: cs) = .error defect) ∨
      ∃ kept next begun, Turns pending c kept begun ∧
        scan place pending (c :: cs) = emit kept (scan next begun cs) := by
  rcases exists_step place pending hc with ⟨defect, herror⟩ | ⟨kept, next, begun, hstep, hscan⟩
  · exact .inl ⟨defect, herror cs⟩
  · exact .inr ⟨kept, next, begun, hstep.turns, hscan cs⟩

/-- The reader never holds more than it has read. -/
theorem Turns.held_le {kept begun : Option (List Char)} (h : Turns pending c kept begun) :
    held kept + held begun ≤ held pending + 1 := by
  obtain ⟨rfl, rfl⟩ | ⟨rfl, rfl | hkept⟩ := h
  · rw [held_grow]
    simp [held]
  · simp [held]
  · simp [held, hkept]

theorem total_of_emit {kept : Option (List Char)} {r : Except Defect (List (List Char))}
    {segments : List (List Char)} (h : emit kept r = .ok segments) :
    ∃ others, r = .ok others ∧ total segments = held kept + total others := by
  cases r with
  | error defect => cases h
  | ok others =>
      obtain rfl := Except.ok.inj h
      refine ⟨others, rfl, ?_⟩
      cases kept <;> simp [total, held]

theorem escaped_cons_dot : escaped ('.' :: cs) = '\\' :: '.' :: escaped cs := rfl

theorem escaped_cons (hc : c ≠ '.') : escaped (c :: cs) = c :: escaped cs := by
  simp [escaped, marked, hc]

theorem total_le_of_scan_nil {segments : List (List Char)}
    (h : scan place pending [] = .ok segments) : total segments ≤ held pending := by
  cases place with
  | name fresh =>
      obtain rfl := Except.ok.inj h
      cases pending <;> simp [total, held]
  | quoted quote bracketed => cases bracketed <;> cases h
  | key | afterQuote => cases h

theorem scan_last_backslash :
    scan place pending ['\\'] = scan place.stale (some (pending.getD [])) [] := by
  cases place with
  | quoted quote bracketed => cases bracketed <;> rfl
  | name | key | afterQuote => rfl

/-- A name whose dots are escaped is never read as more than itself. -/
theorem total_le_of_scan {segments : List (List Char)}
    (h : scan place pending (escaped cs) = .ok segments) :
    total segments ≤ held pending + cs.length := by
  -- On the length, as a backslash and the character after it are read at once.
  induction hn : cs.length using Nat.strongRecOn generalizing cs place pending segments with
  | ind n ih =>
      -- One character that is no backslash, and what comes after it.
      have hplain : ∀ {c : Char} {rest : List Char} {place : Place}
          {pending : Option (List Char)} {segments : List (List Char)}, c ≠ '\\' →
          rest.length < n → scan place pending (c :: escaped rest) = .ok segments →
          total segments ≤ held pending + rest.length + 1 := by
        intro c rest place pending segments hc hrest h
        rcases exists_scan_cons place pending (escaped rest) hc with
          ⟨defect, herror⟩ | ⟨kept, next, begun, hturns, hscan⟩
        · rw [herror] at h
          cases h
        · rw [hscan] at h
          obtain ⟨others, hothers, htotal⟩ := total_of_emit h
          have hle := ih rest.length hrest hothers rfl
          have hheld := hturns.held_le
          omega
      rcases cs with _ | ⟨c, rest⟩
      · exact Nat.le_add_right_of_le (total_le_of_scan_nil h)
      rw [List.length_cons] at hn
      by_cases hdot : c = '.'
      · rw [hdot, escaped_cons_dot, scan_escape] at h
        have hle := ih rest.length (by omega) h rfl
        rw [held_grow] at hle
        omega
      rw [escaped_cons hdot] at h
      by_cases hc : c = '\\'
      -- A backslash of the name itself drops out, and may meet the backslash before a dot.
      · rcases rest with _ | ⟨d, rest⟩
        · rw [hc] at h
          have hle := total_le_of_scan_nil (scan_last_backslash.symm.trans h)
          exact Nat.le_add_right_of_le hle
        rw [List.length_cons] at hn
        by_cases hd : d = '.'
        · rw [hc, hd, escaped_cons_dot, scan_escape] at h
          have hle := hplain (by decide) (by omega) h
          rw [held_grow] at hle
          omega
        · rw [hc, escaped_cons hd, scan_escape] at h
          have hle := ih rest.length (by omega) h rfl
          rw [held_grow] at hle
          omega
      · have hle := hplain hc (by omega) h
        omega

/-- A character of a name that means something is not read as itself. -/
theorem total_lt_of_scan {fresh : Bool} {segments : List (List Char)} (hdot : c ≠ '.')
    (hc : (Place.name fresh).takes c = false)
    (h : scan (.name fresh) pending (escaped (c :: cs)) = .ok segments) :
    total segments < held pending + cs.length + 1 := by
  rw [escaped_cons hdot] at h
  have hcases : c = '\\' ∨ c = '[' ∨ c = ']' ∨ fresh = true ∧ (c = '"' ∨ c = '\'') := by
    simp [Place.takes] at hc
    tauto
  rcases hcases with rfl | rfl | rfl | ⟨rfl, hquote⟩
  · rcases cs with _ | ⟨d, rest⟩
    · have hle := total_le_of_scan_nil (scan_last_backslash.symm.trans h)
      exact Nat.lt_succ_of_le hle
    rw [List.length_cons]
    by_cases hd : d = '.'
    · rw [hd, escaped_cons_dot, scan_escape] at h
      obtain ⟨others, hothers, htotal⟩ := total_of_emit (scan_dot.symm.trans h)
      have hle := total_le_of_scan hothers
      rw [held_grow] at htotal
      simp only [held, Option.getD_none, List.length_nil] at hle htotal ⊢
      omega
    · rw [escaped_cons hd, scan_escape] at h
      have hle := total_le_of_scan h
      rw [held_grow] at hle
      omega
  · obtain ⟨others, hothers, htotal⟩ := total_of_emit (scan_open.symm.trans h)
    have hle := total_le_of_scan hothers
    simp only [held, Option.getD_none, List.length_nil] at hle htotal ⊢
    omega
  · cases fresh <;> simp [scan, Place.opens, Place.bracketed] at h
  · have hopen : scan (.name true) pending (c :: escaped cs) =
        scan (.quoted c false) none (escaped cs) := by
      rcases hquote with rfl | rfl <;> simp [scan, Place.opens, Place.bracketed]
    have hle := total_le_of_scan (hopen.symm.trans h)
    simp only [held, Option.getD_none, List.length_nil] at hle ⊢
    omega

end Length

/-- Does a text mean nothing but itself where its dots are escaped? A quote only means something
while nothing has been escaped. -/
def PlainFrom (fresh : Bool) (cs : List Char) : Prop :=
  (∀ c ∈ cs, c ∉ ['\\', '[', ']']) ∧
    (fresh = true → ∀ c ∈ cs.takeWhile (· != '.'), c ∉ ['"', '\''])

/-- Does a name mean nothing but itself once its dots are escaped? It has no backslash and no
bracket, and no quote before its first dot. -/
def IsPlain (name : String) : Prop := PlainFrom true name.toList

-- By running over the text, as deciding for all characters there are would not end.
instance (fresh : Bool) (cs : List Char) : Decidable (PlainFrom fresh cs) :=
  @instDecidableAnd _ _ (List.decidableBAll _ cs)
    (@instDecidableForall _ _ _ (List.decidableBAll _ (cs.takeWhile _)))

instance (name : String) : Decidable (IsPlain name) := inferInstanceAs (Decidable (PlainFrom _ _))

theorem plainFrom_cons_dot {fresh : Bool} {cs : List Char} :
    PlainFrom fresh ('.' :: cs) ↔ PlainFrom false cs := by
  simp [PlainFrom]

theorem plainFrom_cons {fresh : Bool} {c : Char} {cs : List Char} (hdot : c ≠ '.') :
    PlainFrom fresh (c :: cs) ↔ (Place.name fresh).takes c = true ∧ PlainFrom fresh cs := by
  cases fresh
  · simp [PlainFrom, Place.takes, hdot]
  · simp [PlainFrom, Place.takes, hdot]
    tauto

theorem scan_escaped_eq_iff {fresh : Bool} {pending : Option (List Char)} {cs : List Char}
    (h : pending = none → cs ≠ []) :
    scan (.name fresh) pending (escaped cs) = .ok [pending.getD [] ++ cs] ↔ PlainFrom fresh cs := by
  induction cs generalizing fresh pending with
  | nil =>
      cases pending with
      | none => exact absurd rfl (h rfl)
      | some begun => simp [escaped, marked, scan, PlainFrom]
  | cons c rest ih =>
      have hread : [pending.getD [] ++ c :: rest] = [(grow pending c).getD [] ++ rest] := by
        simp [grow]
      have hgrow : grow pending c = none → rest ≠ [] := by
        intro hnone
        cases hnone
      by_cases hdot : c = '.'
      · subst hdot
        rw [escaped_cons_dot, scan_escape, hread, plainFrom_cons_dot]
        exact ih hgrow
      cases hc : (Place.name fresh).takes c with
      | true =>
          rw [escaped_cons hdot, scan_of_takes hc, hread, plainFrom_cons hdot, hc,
            eq_self_iff_true, true_and]
          exact ih hgrow
      | false =>
          rw [plainFrom_cons hdot, hc]
          constructor
          · intro hscan
            have hlt := total_lt_of_scan hdot hc hscan
            simp only [total, held, List.flatten_singleton, List.length_append,
              List.length_cons] at hlt
            omega
          · rintro ⟨htrue, -⟩
            cases htrue

theorem segments_eq_ok_iff {path : String} {found : List String} :
    segments path = .ok found ↔
      scan (.name true) none path.toList = .ok (found.map String.toList) := by
  have hback : ∀ segments : List (List Char),
      segments.map String.ofList = found ↔ segments = found.map String.toList := by
    intro segments
    constructor
    · rintro rfl
      simp [Function.comp_def]
    · rintro rfl
      simp [Function.comp_def]
  rw [segments, segments?]
  cases scan (.name true) none path.toList with
  | error defect => simp
  | ok segments => simpa [pure, Except.pure] using hback segments

/-- A name with its dots escaped is read back exactly if nothing else in it has to be escaped. -/
theorem segments_escapeDots_iff {name : String} :
    segments (escapeDots name) = .ok [name] ↔ name ≠ "" ∧ IsPlain name := by
  rw [segments_eq_ok_iff, toList_escapeDots]
  by_cases hname : name = ""
  · subst hname
    simp [escaped, marked, scan]
  · have hscan : scan (.name true) none (escaped name.toList) = .ok [name.toList] ↔
        PlainFrom true name.toList := scan_escaped_eq_iff fun _ ↦ by simpa using hname
    rw [List.map_cons, List.map_nil, hscan]
    exact (and_iff_right hname).symm

end FieldPath

namespace FieldDef

open FieldPath

variable {fd : FieldDef} {suffix : Option String} {name : String}

/-- The three forms of a derived column. The accessor always reads the column that a transform
writes, the reference exactly if dots are all that has to be escaped in its name. -/
theorem reference_resolves_iff (h : fd.output suffix = .ok name) :
    fd.datum suffix = .ok (Expression.access name "datum") ∧
      ∃ ref, fd.reference suffix = .ok ref ∧
        (segments ref = .ok [name] ↔ name ≠ "" ∧ IsPlain name) := by
  have hflatten : flatten (fd.column suffix) = .ok name := h
  refine ⟨?_, escapeDots name, ?_, segments_escapeDots_iff⟩
  · rw [datum, Expression.field, hflatten]
    rfl
  · exact reference_eq_ok_iff.2 ⟨name, hflatten, rfl⟩

/-- The mean of a field, with its type. -/
def meanOf (path : String) : FieldDef :=
  { field := some path, type := some .quantitative, aggregate := some (.named "mean"), bin := none
    timeUnit := none, title := .null, extras := [] }

theorem reference_resolves_meanOf_quotedKey :
    (meanOf "orders[\"unit.price\"]").output = .ok "mean_orders.unit.price" ∧
      ∃ ref, (meanOf "orders[\"unit.price\"]").reference = .ok ref ∧
        segments ref = .ok ["mean_orders.unit.price"] := by
  have houtput : (meanOf "orders[\"unit.price\"]").output = .ok "mean_orders.unit.price" := by
    rfl
  obtain ⟨-, ref, href, hresolves⟩ := reference_resolves_iff houtput
  exact ⟨houtput, ref, href, hresolves.2 ⟨by decide, by decide +kernel⟩⟩

/-- A reference to a column whose name has brackets is read as a path of two segments. -/
theorem reference_of_bracketed : (meanOf "a\\[0\\]").output = .ok "mean_a[0]" ∧
    (meanOf "a\\[0\\]").reference = .ok "mean_a[0]" ∧
    segments "mean_a[0]" = .ok ["mean_a", "0"] := by
  refine ⟨?_, ?_, ?_⟩ <;> rfl

end FieldDef

end ChartLowering
