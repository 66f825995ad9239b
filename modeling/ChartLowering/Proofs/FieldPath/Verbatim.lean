import ChartLowering.Proofs.FieldPath.Reference

/-!
# Names that are read as they stand

A name of a column that stands for a path without being escaped is read as itself exactly if nothing
in it has a meaning and no segment is missing around its dots. Any other name comes out lighter than
it went in, where a dot weighs less than all other characters.
-/

namespace ChartLowering.FieldPath

variable {place next : Place} {pending begun : Option (List Char)} {c : Char} {cs : List Char}
  {segments : List (List Char)} {fresh : Bool}

/-- The weight of a text, in which dots count half. -/
def weight (cs : List Char) : Nat := cs.length + cs.countP (· != '.')

theorem weight_append (cs ds : List Char) : weight (cs ++ ds) = weight cs + weight ds := by
  simp only [weight, List.length_append, List.countP_append]
  omega

theorem weight_cons_dot : weight ('.' :: cs) = weight cs + 1 := by
  rw [weight, weight, List.length_cons, List.countP_cons_of_neg (by simp)]
  omega

theorem weight_cons (hc : c ≠ '.') : weight (c :: cs) = weight cs + 2 := by
  rw [weight, weight, List.length_cons, List.countP_cons_of_pos (by simpa using hc)]
  omega

theorem lt_weight_cons (c : Char) (cs : List Char) : weight cs < weight (c :: cs) := by
  by_cases hc : c = '.'
  · rw [hc, weight_cons_dot]
    omega
  · rw [weight_cons hc]
    omega

/-- What is held of a segment that is being read, by weight. -/
def burden (pending : Option (List Char)) : Nat := weight (pending.getD [])

theorem burden_grow : burden (grow pending c) = burden pending + weight [c] :=
  weight_append (pending.getD []) [c]

/-- The weight of segments that are each followed by a dot. -/
def cost : List (List Char) → Nat
  | [] => 0
  | s :: rest => weight s + 1 + cost rest

theorem cost_cons (s : List Char) : cost (s :: segments) = weight s + 1 + cost segments := rfl

theorem weight_intercalate (h : segments ≠ []) :
    weight (['.'].intercalate segments) + 1 = cost segments := by
  induction segments with
  | nil => exact absurd rfl h
  | cons s rest ih =>
      cases rest with
      | nil => simp [cost]
      | cons t others =>
          have hrest := ih (List.cons_ne_nil t others)
          rw [List.intercalate_cons_cons, weight_append, weight_append, cost_cons, ← hrest]
          simp [weight]
          omega

theorem cost_emit {kept : Option (List Char)} {r : Except Defect (List (List Char))}
    (h : emit kept r = .ok segments) :
    ∃ others, r = .ok others ∧ segments = kept.toList ++ others := by
  cases r with
  | error defect => cases h
  | ok others => exact ⟨others, rfl, (Except.ok.inj h).symm⟩

theorem cost_append (others : List (List Char)) :
    cost (segments ++ others) = cost segments + cost others := by
  induction segments with
  | nil => exact (Nat.zero_add _).symm
  | cons s rest ih =>
      rw [List.cons_append, cost_cons, cost_cons, ih]
      omega

theorem cost_toList_le (pending : Option (List Char)) :
    cost pending.toList ≤ burden pending + 1 := by
  cases pending <;> simp [cost, burden, weight]

/-- Nothing gets heavier than what has been read. -/
theorem Turns.cost_le {kept begun : Option (List Char)} (h : Turns pending c kept begun) :
    cost kept.toList + burden begun ≤ burden pending + weight [c] := by
  have hone : 1 ≤ weight [c] := by
    by_cases hdot : c = '.' <;> simp [weight, hdot]
  obtain ⟨rfl, rfl⟩ | ⟨rfl, rfl | hkept⟩ := h
  · rw [burden_grow]
    simp [cost]
  · simp [cost, burden, weight]
  · have hnone : burden none = 0 := rfl
    have hsame : burden kept = burden pending := congrArg weight hkept
    have hle := cost_toList_le kept
    omega

theorem cost_le_of_scan_nil (h : scan place pending [] = .ok segments) :
    cost segments ≤ burden pending + 1 := by
  cases place with
  | name fresh =>
      obtain rfl := Except.ok.inj h
      exact cost_toList_le pending
  | quoted quote bracketed => cases bracketed <;> cases h
  | key | afterQuote => cases h

/-- Nothing comes out of a reader heavier than it went in. -/
theorem cost_le_of_scan (h : scan place pending cs = .ok segments) :
    cost segments ≤ burden pending + weight cs + 1 := by
  -- On the length, as a backslash and the character after it are read at once.
  induction hn : cs.length using Nat.strongRecOn generalizing cs place pending segments with
  | ind n ih =>
      rcases cs with _ | ⟨c, rest⟩
      · exact cost_le_of_scan_nil h
      rw [List.length_cons] at hn
      have hweight : weight (c :: rest) = weight [c] + weight rest := weight_append [c] rest
      by_cases hc : c = '\\'
      · subst hc
        rcases rest with _ | ⟨d, rest⟩
        · have hle := cost_le_of_scan_nil (scan_last_backslash.symm.trans h)
          exact Nat.le_trans hle (Nat.succ_le_succ (Nat.le_add_right _ _))
        · rw [scan_escape] at h
          have hle := ih rest.length (by simp at hn; omega) h rfl
          have hsplit : weight (d :: rest) = weight [d] + weight rest := weight_append [d] rest
          rw [burden_grow] at hle
          omega
      · obtain ⟨defect, herror⟩ | ⟨kept, next, begun, hturns, hscan⟩ :=
          exists_scan_cons place pending rest hc
        · rw [herror] at h
          cases h
        · rw [hscan] at h
          obtain ⟨others, hothers, rfl⟩ := cost_emit h
          have hle := ih rest.length (by omega) hothers rfl
          have hburden := hturns.cost_le
          rw [cost_append]
          omega

/-- Can a text be read as it stands, fresh or not, after a segment has been begun or not? Nothing in
it has a meaning, and no segment is missing. -/
def Verbatim (fresh begun : Bool) (cs : List Char) : Prop :=
  PlainFrom fresh cs ∧ ∀ s ∈ if begun then (cs.splitOn '.').tail else cs.splitOn '.', s ≠ []

/-- A name that can be read as it stands after something else. It has no backslash and no bracket,
no quote before its first dot, and no segment is missing after a dot. -/
def IsVerbatim (name : String) : Prop := Verbatim true true name.toList

instance (name : String) : Decidable (IsVerbatim name) :=
  @instDecidableAnd _ _ (inferInstanceAs (Decidable (PlainFrom _ _)))
    (List.decidableBAll _ (name.toList.splitOn '.').tail)

section Verbatim

variable {isBegun : Bool}

theorem verbatim_nil : Verbatim fresh isBegun [] ↔ isBegun = true := by
  cases isBegun <;> simp [Verbatim, PlainFrom]

theorem verbatim_cons_dot :
    Verbatim fresh isBegun ('.' :: cs) ↔ isBegun = true ∧ Verbatim false false cs := by
  have hsplit : ('.' :: cs).splitOn '.' = [] :: cs.splitOn '.' := by
    simp [List.splitOn, List.splitOnP_cons_eq_if_modifyHead]
  rw [Verbatim, Verbatim, plainFrom_cons_dot, hsplit]
  cases isBegun <;> simp

theorem verbatim_cons (hdot : c ≠ '.') : Verbatim fresh isBegun (c :: cs) ↔
    (Place.name fresh).takes c = true ∧ Verbatim fresh true cs := by
  have hsplit : (c :: cs).splitOn '.' = (cs.splitOn '.').modifyHead (c :: ·) := by
    simp [List.splitOn, List.splitOnP_cons_eq_if_modifyHead, hdot]
  have hne : cs.splitOn '.' ≠ [] := List.splitOnP_ne_nil _ _
  obtain ⟨s, rest, hs⟩ := List.exists_cons_of_ne_nil hne
  rw [Verbatim, Verbatim, plainFrom_cons hdot, hsplit, hs]
  cases isBegun <;> simp [and_assoc]

theorem exists_scan_of_verbatim (h : Verbatim fresh pending.isSome cs) :
    ∃ segments, segments ≠ [] ∧ scan (.name fresh) pending cs = .ok segments ∧
      ['.'].intercalate segments = pending.getD [] ++ cs := by
  induction cs generalizing fresh pending with
  | nil =>
      obtain ⟨p, rfl⟩ := Option.isSome_iff_exists.1 (verbatim_nil.1 h)
      exact ⟨[p], by simp, rfl, by simp⟩
  | cons c rest ih =>
      by_cases hdot : c = '.'
      · subst hdot
        obtain ⟨hbegun, hrest⟩ := verbatim_cons_dot.1 h
        obtain ⟨p, rfl⟩ := Option.isSome_iff_exists.1 hbegun
        obtain ⟨segments, hne, hscan, hjoined⟩ := @ih none false hrest
        obtain ⟨s, others, rfl⟩ := List.exists_cons_of_ne_nil hne
        refine ⟨p :: s :: others, List.cons_ne_nil _ _, ?_, ?_⟩
        · rw [scan_dot, hscan]
          rfl
        · rw [List.intercalate_cons_cons, hjoined]
          simp
      · obtain ⟨htakes, hrest⟩ := (verbatim_cons hdot).1 h
        obtain ⟨segments, hne, hscan, hjoined⟩ := @ih (grow pending c) fresh hrest
        refine ⟨segments, hne, ?_, ?_⟩
        · rw [scan_of_takes htakes, hscan]
        · simp [hjoined, grow]

/-- A character that has a meaning where it stands makes what is read lighter. -/
theorem cost_lt_of_scan (hdot : c ≠ '.') (hc : (Place.name fresh).takes c = false)
    (h : scan (.name fresh) pending (c :: cs) = .ok segments) :
    cost segments < burden pending + weight (c :: cs) + 1 := by
  have hnone : burden none = 0 := rfl
  rw [weight_cons hdot]
  have hcases : c = '\\' ∨ c = '[' ∨ c = ']' ∨ fresh = true ∧ (c = '"' ∨ c = '\'') := by
    simp [Place.takes] at hc
    tauto
  rcases hcases with rfl | rfl | rfl | ⟨rfl, hquote⟩
  · rcases cs with _ | ⟨d, rest⟩
    · have hle := cost_le_of_scan_nil (scan_last_backslash.symm.trans h)
      have hsame : burden (some (pending.getD [])) = burden pending := rfl
      omega
    · have hle := cost_le_of_scan (scan_escape.symm.trans h)
      have hsplit : weight (d :: rest) = weight [d] + weight rest := weight_append [d] rest
      rw [burden_grow] at hle
      omega
  · obtain ⟨others, hothers, rfl⟩ := cost_emit (scan_open.symm.trans h)
    have hle := cost_le_of_scan hothers
    have hpending := cost_toList_le pending
    rw [cost_append]
    omega
  · cases fresh <;> simp [scan, Place.opens, Place.bracketed] at h
  · have hopen : scan (.name true) pending (c :: cs) = scan (.quoted c false) none cs := by
      rcases hquote with rfl | rfl <;> simp [scan, Place.opens, Place.bracketed]
    have hle := cost_le_of_scan (hopen.symm.trans h)
    omega

theorem cost_lt_of_not_verbatim (hno : ¬ Verbatim fresh pending.isSome cs)
    (h : scan (.name fresh) pending cs = .ok segments) :
    cost segments < burden pending + weight cs + 1 := by
  induction cs generalizing fresh pending segments with
  | nil =>
      obtain rfl : pending = none := by
        rw [verbatim_nil] at hno
        simpa using hno
      obtain rfl := Except.ok.inj h
      exact Nat.succ_pos _
  | cons c rest ih =>
      by_cases hdot : c = '.'
      · subst hdot
        obtain ⟨others, hothers, rfl⟩ := cost_emit (scan_dot.symm.trans h)
        rw [weight_cons_dot, cost_append]
        rw [verbatim_cons_dot, not_and] at hno
        cases pending with
        | none =>
            have hle := cost_le_of_scan hothers
            have hnone : cost (none : Option (List Char)).toList = 0 := rfl
            omega
        | some p =>
            have hlt := @ih none others false (hno rfl) hothers
            have hle := cost_toList_le (some p)
            have hnone : burden none = 0 := rfl
            omega
      · cases hc : (Place.name fresh).takes c with
        | false => exact cost_lt_of_scan hdot hc h
        | true =>
            rw [verbatim_cons hdot, not_and] at hno
            rw [scan_of_takes hc] at h
            have hlt := @ih (grow pending c) segments fresh (hno hc) h
            have hsplit : weight (c :: rest) = weight [c] + weight rest := weight_append [c] rest
            rw [burden_grow] at hlt
            omega

/-- What has been begun is either kept or lost to a quote, with the quote itself. -/
theorem exists_append_or_cost_lt {begun : List Char}
    (h : scan (.name fresh) (some begun) cs = .ok segments) :
    (∃ t rest, segments = (begun ++ t) :: rest) ∨ cost segments < weight cs := by
  induction hn : cs.length using Nat.strongRecOn generalizing cs fresh begun with
  | ind n ih =>
      rcases cs with _ | ⟨c, rest⟩
      · exact .inl ⟨[], [], by simpa using (Except.ok.inj h).symm⟩
      rw [List.length_cons] at hn
      have hgrow : ∀ {fresh : Bool} {d : Char} {others : List Char}, others.length < n →
          weight others ≤ weight (c :: rest) →
          scan (.name fresh) (some (begun ++ [d])) others = .ok segments →
          (∃ t rest, segments = (begun ++ t) :: rest) ∨ cost segments < weight (c :: rest) := by
        intro fresh d others hshorter hlighter h
        obtain ⟨t, later, rfl⟩ | hlt := ih others.length hshorter h rfl
        · exact .inl ⟨d :: t, later, by simp⟩
        · exact .inr (Nat.lt_of_lt_of_le hlt hlighter)
      have hemit : ∀ {next : Except Defect (List (List Char))},
          emit (some begun) next = .ok segments →
          ∃ t rest, segments = (begun ++ t) :: rest := by
        intro next h
        obtain ⟨others, -, rfl⟩ := cost_emit h
        exact ⟨[], others, by simp⟩
      by_cases htakes : (Place.name fresh).takes c = true
      · rw [scan_of_takes htakes] at h
        exact hgrow (by omega) (Nat.le_of_lt (lt_weight_cons c rest)) h
      have hcases : c = '\\' ∨ c = '.' ∨ c = '[' ∨ c = ']' ∨
          fresh = true ∧ (c = '"' ∨ c = '\'') := by
        simp [Place.takes] at htakes
        tauto
      rcases hcases with rfl | rfl | rfl | rfl | ⟨rfl, hquote⟩
      · rcases rest with _ | ⟨d, rest⟩
        · have hlast := Except.ok.inj (scan_last_backslash.symm.trans h)
          exact .inl ⟨[], [], by simpa using hlast.symm⟩
        · have hlighter : weight rest ≤ weight ('\\' :: d :: rest) :=
            Nat.le_of_lt (Nat.lt_trans (lt_weight_cons d rest) (lt_weight_cons _ _))
          exact hgrow (by simp at hn; omega) hlighter (scan_escape.symm.trans h)
      · exact .inl (hemit (scan_dot.symm.trans h))
      · exact .inl (hemit (scan_open.symm.trans h))
      · cases fresh <;> simp [scan, Place.opens, Place.bracketed] at h
      · have hopen : scan (.name true) (some begun) (c :: rest) =
            scan (.quoted c false) none rest := by
          rcases hquote with rfl | rfl <;> simp [scan, Place.opens, Place.bracketed]
        have hle := cost_le_of_scan (hopen.symm.trans h)
        have hnone : burden none = 0 := rfl
        have hweight : weight (c :: rest) = weight rest + 2 :=
          weight_cons (by rcases hquote with rfl | rfl <;> decide)
        exact .inr (by omega)

end Verbatim

theorem flatten_eq_ok_iff {path name : String} : flatten path = .ok name ↔
    ∃ segments, scan (.name true) none path.toList = .ok segments ∧
      ['.'].intercalate segments = name.toList := by
  rw [flatten, bind_eq_ok_iff]
  constructor
  · rintro ⟨found, hfound, h⟩
    refine ⟨found.map String.toList, segments_eq_ok_iff.1 hfound, ?_⟩
    rw [← Except.ok.inj h, String.toList_intercalate]
    rfl
  · rintro ⟨segments, hscan, hjoined⟩
    have hback : (segments.map String.ofList).map String.toList = segments := by
      simp [Function.comp_def]
    have hname : ".".intercalate (segments.map String.ofList) = name := by
      rw [← String.toList_inj, String.toList_intercalate, hback]
      exact hjoined
    refine ⟨segments.map String.ofList, segments_eq_ok_iff.2 (hback.symm ▸ hscan), ?_⟩
    exact congrArg Except.ok hname

theorem scan_append_of_takes {ds : List Char} (h : ∀ d ∈ ds, place.takes d = true)
    (pending : Option (List Char)) (cs : List Char) :
    scan place pending (ds ++ cs) = scan place (ds.foldl grow pending) cs := by
  induction ds generalizing pending with
  | nil => rfl
  | cons d rest ih =>
      obtain ⟨hd, hrest⟩ := List.forall_mem_cons.1 h
      rw [List.cons_append, scan_of_takes hd, ih hrest, List.foldl_cons]

section Append

variable {start other name : String}

theorem scan_append (hstart : Unmarked start) (hne : start ≠ "") :
    scan (.name true) none (start ++ name).toList =
      scan (.name true) (some start.toList) name.toList := by
  have htakes : ∀ c ∈ start.toList, (Place.name true).takes c = true := by
    intro c hc
    have hplain := hstart c hc
    simp_all [Place.takes]
  rw [String.toList_append, scan_append_of_takes htakes, foldl_grow_none (by simpa using hne)]

/-- After something that has no meaning, a name is read as it stands just if it is verbatim. -/
theorem flatten_append_iff (hstart : Unmarked start) (hne : start ≠ "") :
    flatten (start ++ name) = .ok (start ++ name) ↔ IsVerbatim name := by
  rw [flatten_eq_ok_iff, scan_append hstart hne, String.toList_append]
  constructor
  · rintro ⟨segments, hread, hjoined⟩
    by_contra hno
    have hfalse : ¬ Verbatim true (some start.toList).isSome name.toList := hno
    have hlt : cost segments < weight start.toList + weight name.toList + 1 :=
      cost_lt_of_not_verbatim hfalse hread
    have hsegments : segments ≠ [] := by
      rintro rfl
      simp [hne] at hjoined
    rw [← weight_intercalate hsegments, hjoined, weight_append] at hlt
    exact Nat.lt_irrefl _ hlt
  · intro h
    have hbegun : Verbatim true (some start.toList).isSome name.toList := h
    obtain ⟨segments, -, hread, hjoined⟩ := exists_scan_of_verbatim hbegun
    exact ⟨segments, hread, hjoined⟩

/-- What stands before a name is kept, if the name is still there in the end. -/
theorem isPrefix_of_flatten_append (hstart : Unmarked start) (hne : start ≠ "")
    (h : flatten (start ++ name) = .ok (other ++ name)) :
    start.toList <+: other.toList ++ name.toList := by
  obtain ⟨segments, hread, hjoined⟩ := flatten_eq_ok_iff.1 h
  rw [scan_append hstart hne] at hread
  rw [String.toList_append] at hjoined
  obtain ⟨t, rest, rfl⟩ | hlt := exists_append_or_cost_lt hread
  · refine ⟨['.'].intercalate (t :: rest), hjoined ▸ ?_⟩
    cases rest with
    | nil => simp
    | cons next later => simp [List.intercalate_cons_cons]
  · have hle : weight (['.'].intercalate segments) ≤ cost segments := by
      cases segments with
      | nil => simp [weight]
      | cons s rest =>
          have hweight := weight_intercalate (List.cons_ne_nil s rest)
          omega
    rw [hjoined, weight_append] at hle
    omega

end Append

end ChartLowering.FieldPath
