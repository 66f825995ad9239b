import ChartLowering.Proofs.FieldPath.Suffix
import ChartLowering.Proofs.InvalidData.Treatment
import ChartLowering.Proofs.Json.Literal

/-!
# Places inside of bands

On a continuous scale a binned field, or a time unit, is shown at a place between the column in
which its band starts and the column in which it ends. Only a bin has a column of its own to end in.
-/

namespace ChartLowering

section Numbers

variable {band : Value}

theorem Binary64.isZero_of_compareInt? {x : Binary64} (h : x.compareInt? 0 = some .eq) :
    x.isZero = true := by
  cases x with
  | nan => cases h
  | infinite negative => cases negative <;> cases h
  | finite negative significand exponent =>
      have hequal := Std.compare_eq_iff_eq.1 (Option.some.inj h)
      have hpow : 0 < Nat.pow 2 exponent.toNat := Nat.pow_pos (by decide)
      have hzero : significand = 0 := by
        by_contra hne
        have hpos : 0 < significand * Nat.pow 2 exponent.toNat :=
          Nat.mul_pos (Nat.pos_of_ne_zero hne) hpow
        rw [Int.zero_mul] at hequal
        split at hequal <;> split at hequal <;> omega
      rw [hzero]
      rfl

theorem Value.compareInt?_zero_ne (h : band.truthy = true) :
    band.compareInt? 0 ≠ some .eq := by
  intro heq
  cases band with
  | bool b =>
      rw [truthy] at h
      subst h
      cases heq
  | int i =>
      have hzero : i = 0 := Std.compare_eq_iff_eq.1 (Option.some.inj heq)
      rw [hzero] at h
      cases h
  | float x =>
      rw [truthy, Binary64.isZero_of_compareInt? heq] at h
      cases h
  | null | text | list | set | object | fieldDef => cases heq

theorem Value.isNumber_of_compareInt? {i : Int} {o : Ordering} (h : band.compareInt? i = some o) :
    band.isNumber = true := by
  cases band <;> first | rfl | cases h

end Numbers

namespace FieldPath

/-- A dot is never first, as a backslash stands before it. -/
theorem escaped_ne_dot (cs ds : List Char) : escaped cs ≠ '.' :: ds := by
  intro h
  rcases cs with _ | ⟨c, rest⟩
  · cases h
  by_cases hc : c = '.'
  · rw [hc, escaped_cons_dot] at h
    cases h
  · rw [escaped_cons hc] at h
    exact hc (List.cons.inj h).1

theorem escaped_cons_ne_nil (c : Char) (cs : List Char) : escaped (c :: cs) ≠ [] := by
  by_cases hc : c = '.'
  · rw [hc]
    exact List.cons_ne_nil _ _
  · rw [escaped_cons hc]
    exact List.cons_ne_nil _ _

theorem escaped_inj {cs ds : List Char} (h : escaped cs = escaped ds) : cs = ds := by
  induction cs generalizing ds with
  | nil =>
      rcases ds with _ | ⟨d, others⟩
      · rfl
      · exact absurd h.symm (escaped_cons_ne_nil d others)
  | cons c rest ih =>
      rcases ds with _ | ⟨d, others⟩
      · exact absurd h (escaped_cons_ne_nil c rest)
      by_cases hc : c = '.' <;> by_cases hd : d = '.'
      · subst hc hd
        rw [escaped_cons_dot, escaped_cons_dot] at h
        rw [ih (List.cons.inj (List.cons.inj h).2).2]
      · rw [hc, escaped_cons_dot, escaped_cons hd] at h
        exact absurd (List.cons.inj h).2.symm (escaped_ne_dot others _)
      · rw [hd, escaped_cons_dot, escaped_cons hc] at h
        exact absurd (List.cons.inj h).2 (escaped_ne_dot rest _)
      · rw [escaped_cons hc, escaped_cons hd] at h
        obtain ⟨rfl, hrest⟩ := List.cons.inj h
        rw [ih hrest]

theorem escapeDots_inj {start stop : String} (h : escapeDots start = escapeDots stop) :
    start = stop := by
  have hlist := congrArg String.toList h
  rw [toList_escapeDots, toList_escapeDots] at hlist
  exact String.toList_injective (escaped_inj hlist)

end FieldPath

namespace ValueRef

/-- Is a place inside of a band? -/
def Inside (band : Value) : Prop :=
  band.compareInt? 0 = some .gt ∧ band.compareInt? 1 = some .lt

/-- Is a place in a band, after its start? -/
def InBand (band : Value) : Prop := Inside band ∨ band.compareInt? 1 = some .eq

/-- A reference to a column through a scale. -/
def atColumn (scale : Option String) (name : String) : ValueRef :=
  [("scale", Value.ofOption (scale.map .text)), ("field", .text (FieldPath.escapeDots name))]

/-- A reference to a place between two columns: to the second one itself, or else by an expression
that reads both of them from the datum. -/
inductive Between (c : Context) (band : Value) (start stop : String) : ValueRef → Prop
  | atEnd (h : band.compareInt? 1 = some .eq) :
      Between c band start stop (moved c.offset (atColumn c.scaleName stop))
  | inside {text : String} (h : betweenText c.scaleName (Expression.datum start)
        (Expression.datum stop) band = .ok text) :
      Between c band start stop (moved c.offset [("signal", .text text)])

/-- Is a field shown at a place inside of its band, on a scale that does not list its values? -/
structure Interpolates (c : Context) (v : Value) (fd : FieldDef) (band : Value) : Prop where
  reads : ChannelDef.fieldDef? v = .ok (some fd)
  typed : fd.type.isSome = true
  placed : (if c.band.isNull then bandPosition c.settings c.mark fd else pure c.band) = .ok band
  banded : banded fd band = true
  given : band.truthy = true
  continuous : isDiscrete c.scale = .ok false

variable {c : Context} {v : Value} {fd : FieldDef} {band offset : Value} {ref : ValueRef}
  {scale : Option String} {start stop near far text : String}

theorem Interpolates.midPoint_eq (h : Interpolates c v fd band)
    (default : Except Fault (Option ValueRef)) :
    midPoint c v default = some <$> interpolated c.scaleName fd band c.offset := by
  have hfield : ChannelDef.isFieldDef v = true := by
    by_contra hno
    have hreads := h.reads
    rw [ChannelDef.fieldDef?, if_neg hno] at hreads
    cases hreads
  have hband : ofBand c fd band = interpolated c.scaleName fd band c.offset := by
    rw [ofBand, if_pos h.given, h.continuous]
    rfl
  have hshown : ofShown c v = ofBand c fd band := by
    have hplaced := h.placed
    rw [ofShown, h.reads, ok_bind]
    dsimp only
    rw [if_pos h.typed]
    split at hplaced
    · rename_i hnull
      rw [if_pos hnull, hplaced, ok_bind, if_pos h.banded]
    · rename_i hnull
      rw [if_neg hnull, hplaced, ok_bind, if_pos h.banded]
  rw [midPoint_of_isFieldDef hfield, hshown, hband]

instance (band : Value) : Decidable (Inside band) := inferInstanceAs (Decidable (_ ∧ _))

theorem datum_of_output {suffix : Option String} (h : fd.output suffix = .ok start) :
    fd.datum suffix = .ok (Expression.datum start) := by
  have hflatten : FieldPath.flatten (fd.column suffix) = .ok start := h
  rw [FieldDef.datum, Expression.field, hflatten]
  rfl

theorem reference_of_output {suffix : Option String} (h : fd.output suffix = .ok start) :
    fd.reference suffix = .ok (FieldPath.escapeDots start) :=
  FieldPath.reference_eq_ok_iff.2 ⟨start, h, rfl⟩

/-- The reference to a place between two columns, in terms of their names. -/
theorem interpolated_eq (hstart : fd.output = .ok start) (hstop : fd.output "end" = .ok stop)
    (hnumber : band.isNumber = true) (hgiven : band.compareInt? 0 ≠ some .eq) :
    interpolated scale fd band offset =
      if band.compareInt? 1 = some .eq then
        .ok (moved offset (atColumn scale stop))
      else (fun text ↦ moved offset [("signal", .text text)]) <$>
        if Inside band then
          betweenText scale (Expression.datum start) (Expression.datum stop) band
        else
          betweenText scale (FieldPath.escapeDots start) (FieldPath.escapeDots stop) band := by
  have hinside : (band.compareInt? 0 == some .gt && band.compareInt? 1 == some .lt) = true ↔
      Inside band := by
    simp [Inside]
  rw [interpolated, if_neg (by simp [hnumber])]
  by_cases hend : band.compareInt? 1 = some .eq
  · simp [hend, hgiven, reference_of_output hstart, reference_of_output hstop, ok_bind]
    rfl
  by_cases hin : Inside band
  · simp [hinside, hin, hend, hgiven, datum_of_output hstart, datum_of_output hstop, ok_bind]
  · simp [hinside, hin, hend, hgiven, reference_of_output hstart, reference_of_output hstop,
      ok_bind]

section Text

variable {a b a' b' : String}

theorem betweenText_eq_ok_iff : betweenText scale a b band = .ok text ↔
    ∃ near far, Expression.number band.oneMinus = .ok near ∧ Expression.number band = .ok far ∧
      text = "scale(\"" ++ scaleText scale ++ "\", " ++ near ++ " * " ++ a ++ " + " ++ far ++
        " * " ++ b ++ ")" := by
  rw [betweenText]
  simp only [bind_eq_ok_iff]
  constructor
  · rintro ⟨near, hnear, far, hfar, h⟩
    exact ⟨near, far, hnear, hfar, (Except.ok.inj h).symm⟩
  · rintro ⟨near, far, hnear, hfar, rfl⟩
    exact ⟨near, hnear, far, hfar, rfl⟩

/-- Inside of a band there is always an expression, as only a fraction can lie there. -/
theorem exists_betweenText (h : Inside band) (a b : String) :
    ∃ text, betweenText scale a b band = .ok text := by
  have hfraction : ∃ x, band = .float x := by
    obtain ⟨hpos, hlt⟩ := h
    cases band with
    | bool b =>
        cases b with
        | false => cases hpos
        | true => cases hlt
    | int i =>
        have hzero := Int.compare_eq_gt.1 (Option.some.inj hpos)
        have hone := Int.compare_eq_lt.1 (Option.some.inj hlt)
        omega
    | float x => exact ⟨x, rfl⟩
    | null | text | list | set | object | fieldDef => cases hpos
  have hnumber : ∀ x : Binary64, ∃ text, Expression.number (.float x) = .ok text := by
    intro x
    rw [Expression.number]
    split
    · exact ⟨_, rfl⟩
    · exact ⟨_, rfl⟩
  obtain ⟨x, rfl⟩ := hfraction
  obtain ⟨near, hnear⟩ := hnumber x.oneMinus
  obtain ⟨far, hfar⟩ := hnumber x
  exact ⟨_, betweenText_eq_ok_iff.2 ⟨near, far, hnear, hfar, rfl⟩⟩

/-- The number of quotes in a text. -/
def quotes (s : String) : Nat := s.toList.count '"'

theorem quotes_append (s t : String) : quotes (s ++ t) = quotes s + quotes t := by
  rw [quotes, String.toList_append, List.count_append]
  rfl

theorem count_flatMap_of_forall {f : Char → List Char}
    (h : ∀ c, (f c).count '"' = [c].count '"') (cs : List Char) :
    (cs.flatMap f).count '"' = cs.count '"' := by
  induction cs with
  | nil => rfl
  | cons c rest ih =>
      rw [List.flatMap_cons, List.count_append, h, ih, ← List.count_append]
      rfl

theorem count_literalChar (c : Char) : (Text.literalChar c).count '"' = [c].count '"' := by
  have hhex : ∀ n < 0x20, ('\\' :: 'u' :: Text.hex 4 n).count '"' = 0 := by decide +kernel
  by_cases hc : c ∈ Json.lettered
  · simp only [Json.lettered, List.mem_cons, List.not_mem_nil, or_false] at hc
    rcases hc with rfl | rfl | rfl | rfl | rfl | rfl | rfl <;> rfl
  · simp only [Json.lettered, List.mem_cons, List.not_mem_nil, or_false, not_or] at hc
    have hnone : [c].count '"' = 0 := by simp [hc]
    simp only [Text.literalChar, hc, if_false]
    split
    · rename_i hcontrol
      rw [hhex _ hcontrol, hnone]
    · rfl

theorem quotes_datum (name : String) : quotes (Expression.datum name) = quotes name + 2 := by
  have hliteral : quotes (Text.stringLiteral name) = quotes name + 2 := by
    rw [quotes, Json.toList_stringLiteral, List.count_append, List.count_cons_self,
      count_flatMap_of_forall count_literalChar]
    rfl
  rw [Expression.datum, Expression.access, quotes_append, quotes_append, quotes_append, hliteral]
  simp [quotes]

theorem quotes_escapeDots (name : String) : quotes (FieldPath.escapeDots name) = quotes name := by
  rw [quotes, FieldPath.escapeDots, String.toList_ofList]
  refine count_flatMap_of_forall (fun c ↦ ?_) name.toList
  split
  · rename_i hc
    rw [hc]
    rfl
  · rfl

theorem quotes_of_betweenText (h : betweenText scale a b band = .ok text)
    (h' : betweenText scale a' b' band = .ok text) :
    quotes a + quotes b = quotes a' + quotes b' := by
  obtain ⟨near, far, hnear, hfar, rfl⟩ := betweenText_eq_ok_iff.1 h
  obtain ⟨near', far', hnear', hfar', htext⟩ := betweenText_eq_ok_iff.1 h'
  obtain rfl := Except.ok.inj (hnear.symm.trans hnear')
  obtain rfl := Except.ok.inj (hfar.symm.trans hfar')
  have hquotes := congrArg quotes htext
  simp only [quotes_append] at hquotes
  omega

theorem eq_of_betweenText (h : betweenText scale a b band = .ok text)
    (h' : betweenText scale a b' band = .ok text) : b = b' := by
  obtain ⟨near, far, hnear, hfar, rfl⟩ := betweenText_eq_ok_iff.1 h
  obtain ⟨near', far', hnear', hfar', htext⟩ := betweenText_eq_ok_iff.1 h'
  obtain rfl := Except.ok.inj (hnear.symm.trans hnear')
  obtain rfl := Except.ok.inj (hfar.symm.trans hfar')
  simpa using htext

end Text

theorem datum_inj (h : Expression.datum start = Expression.datum stop) : start = stop := by
  have hlist := congrArg String.toList h
  simp only [Expression.datum, Expression.access, String.toList_append, List.append_assoc,
    List.append_cancel_left_eq] at hlist
  exact (Json.stringLiteral_append_inj hlist).1

theorem get?_moved {key : String} (h : key ≠ "offset") :
    (moved offset ref).get? key = ref.get? key := by
  rw [moved]
  split
  · exact Record.get?_put_of_ne ref offset h
  · rfl

/-- An expression that reads what two columns are called in a reference reads nothing from the
datum. -/
theorem betweenText_escapeDots_ne (h : betweenText scale (FieldPath.escapeDots start)
    (FieldPath.escapeDots (start ++ fd.ending)) band = .ok text) :
    betweenText scale (Expression.datum start) (Expression.datum (start ++ "_end")) band ≠
      .ok text := by
  intro heq
  have hquotes := quotes_of_betweenText h heq
  have hending : quotes fd.ending = 0 ∧ quotes "_end" = 0 := by
    refine ⟨?_, rfl⟩
    rw [FieldDef.ending, FieldPath.junction]
    split
    · split <;> rfl
    · rfl
  simp only [quotes_escapeDots, quotes_datum, quotes_append] at hquotes
  omega

theorem between_signal_iff : Between c band start stop (moved c.offset [("signal", .text text)]) ↔
    betweenText c.scaleName (Expression.datum start) (Expression.datum stop) band = .ok text := by
  constructor
  · intro h
    generalize href : moved c.offset [("signal", .text text)] = ref at h
    have hget : Record.get? ref "signal" = some (.text text) := by
      rw [← href, get?_moved (by decide)]
      rfl
    cases h with
    | atEnd =>
        rw [get?_moved (by decide)] at hget
        cases hget
    | inside h =>
        rw [get?_moved (by decide)] at hget
        obtain rfl := Value.text.inj (Option.some.inj hget)
        exact h
  · exact .inside

theorem between_atColumn_iff {name : String} :
    Between c band start stop (moved c.offset (atColumn c.scaleName name)) ↔
      band.compareInt? 1 = some .eq ∧ name = stop := by
  constructor
  · intro h
    generalize href : moved c.offset (atColumn c.scaleName name) = ref at h
    have hget : Record.get? ref "field" = some (.text (FieldPath.escapeDots name)) := by
      rw [← href, get?_moved (by decide)]
      rfl
    cases h with
    | atEnd hone =>
        rw [get?_moved (by decide)] at hget
        have hname := Value.text.inj (Option.some.inj hget)
        exact ⟨hone, (FieldPath.escapeDots_inj hname).symm⟩
    | inside =>
        rw [get?_moved (by decide)] at hget
        cases hget
  · rintro ⟨hone, rfl⟩
    exact .atEnd hone

theorem exists_between_signal_iff {a b : String} :
    (∃ ref, (fun text ↦ moved c.offset [("signal", .text text)]) <$>
        betweenText c.scaleName a b band = .ok ref ∧ Between c band start stop ref) ↔
      ∃ text, betweenText c.scaleName a b band = .ok text ∧
        betweenText c.scaleName (Expression.datum start) (Expression.datum stop) band =
          .ok text := by
  cases betweenText c.scaleName a b band with
  | error fault =>
      refine iff_of_false ?_ ?_
      · rintro ⟨ref, href, -⟩
        cases href
      · rintro ⟨text, htext, -⟩
        cases htext
  | ok text =>
      constructor
      · rintro ⟨ref, href, hbetween⟩
        obtain rfl := Except.ok.inj href
        exact ⟨text, rfl, between_signal_iff.1 hbetween⟩
      · rintro ⟨other, htext, hbetween⟩
        obtain rfl := Except.ok.inj htext
        exact ⟨_, rfl, between_signal_iff.2 hbetween⟩

theorem not_inBand_of_not_isNumber (h : band.isNumber = false) : ¬ InBand band := by
  have hno : ∀ {i : Int} {o : Ordering}, band.compareInt? i ≠ some o := by
    intro i o hsome
    rw [Value.isNumber_of_compareInt? hsome] at h
    cases h
  rintro (hin | hone)
  · exact hno hin.1
  · exact hno hone

/-- A field is shown between the column in which its band starts and the one named after it in which
the band ends just if it is a bin with such a column, at a place in the band. -/
theorem midPoint_between_iff (h : Interpolates c v fd band) (hstart : fd.output = .ok start)
    (default : Except Fault (Option ValueRef)) :
    (∃ ref, midPoint c v default = .ok (some ref) ∧ start ++ "_end" ≠ start ∧
        Between c band start (start ++ "_end") ref) ↔
      fd.isBinned = true ∧ fd.isCount = false ∧
        (fd.path = "" ∨ FieldPath.endsOpen fd.path.toList = true) ∧ InBand band := by
  have hmid : ∀ ref, midPoint c v default = .ok (some ref) ↔
      interpolated c.scaleName fd band c.offset = .ok ref := by
    intro ref
    rw [h.midPoint_eq]
    cases interpolated c.scaleName fd band c.offset with
    | error fault => exact iff_of_false nofun nofun
    | ok ref' => simp
  have hending : (fd.isBinned = true ∧ fd.isCount = false ∧
      (fd.path = "" ∨ FieldPath.endsOpen fd.path.toList = true) ∧ InBand band) ↔
        start ++ fd.ending = start ++ "_end" ∧ InBand band := by
    rw [String.append_right_inj, FieldDef.ending_eq_iff]
    tauto
  rw [hending]
  have hne : start ++ "_end" ≠ start := by
    simp [← String.toList_inj]
  simp only [hmid, and_iff_right hne]
  cases hnumber : band.isNumber with
  | false =>
      have hfault : interpolated c.scaleName fd band c.offset = .error .wrongKind := by
        simp [interpolated, hnumber]
        rfl
      refine iff_of_false ?_ fun hin ↦ not_inBand_of_not_isNumber hnumber hin.2
      rintro ⟨ref, href, -⟩
      rw [hfault] at href
      cases href
  | true =>
      rw [interpolated_eq hstart (FieldDef.output_end hstart) hnumber
        (Value.compareInt?_zero_ne h.given)]
      by_cases hone : band.compareInt? 1 = some .eq
      · rw [if_pos hone]
        simp [between_atColumn_iff, hone, InBand]
      rw [if_neg hone]
      by_cases hin : Inside band
      · rw [if_pos hin]
        rw [exists_between_signal_iff]
        constructor
        · rintro ⟨text, htext, hbetween⟩
          exact ⟨datum_inj (eq_of_betweenText htext hbetween), .inl hin⟩
        · rintro ⟨hstop, -⟩
          obtain ⟨text, htext⟩ := exists_betweenText hin (Expression.datum start)
            (Expression.datum (start ++ "_end"))
          exact ⟨text, by rw [hstop, htext], htext⟩
      · rw [if_neg hin, exists_between_signal_iff]
        refine iff_of_false ?_ fun h ↦ h.2.elim hin hone
        rintro ⟨text, htext, hbetween⟩
        exact betweenText_escapeDots_ne htext hbetween

/-- A half, the middle of a band. -/
def half : Value := .float (.ofDecimal false 5 (-1))

/-- Points on a scale from left to right. -/
def pointsAlong (scaleType : String) : Context :=
  { channel := "x", scale := some { name := "x", type := .text scaleType }, scaleName := some "x"
    mark := [("type", .text "point")], settings := {} }

/-- Bins of a value, at most ten of them. -/
def tenBins : Value :=
  .object [("field", .text "v"), ("type", .text "quantitative"),
    ("bin", .object [("maxbins", .int 10)])]

def tenBinsDef : FieldDef :=
  { field := some "v", type := some .quantitative, aggregate := none
    bin := some (.with [("maxbins", .int 10)]), timeUnit := none, title := .null, extras := [] }

theorem midPoint_between_tenBins :
    Interpolates (pointsAlong "linear") tenBins tenBinsDef half ∧
      tenBinsDef.output = .ok "bin_maxbins_10_v" ∧
      ∃ ref, midPoint (pointsAlong "linear") tenBins (pure none) = .ok (some ref) ∧
        Between (pointsAlong "linear") half "bin_maxbins_10_v" "bin_maxbins_10_v_end" ref := by
  have hshown : Interpolates (pointsAlong "linear") tenBins tenBinsDef half :=
    { reads := rfl, typed := rfl, placed := rfl, banded := rfl, given := by decide +kernel
      continuous := rfl }
  have houtput : tenBinsDef.output = .ok "bin_maxbins_10_v" := by decide +kernel
  have hbin : tenBinsDef.isBinned = true ∧ tenBinsDef.isCount = false ∧
      (tenBinsDef.path = "" ∨ FieldPath.endsOpen tenBinsDef.path.toList = true) := by
    decide +kernel
  have hhalf : Inside half := by decide +kernel
  obtain ⟨ref, href, -, hbetween⟩ := (midPoint_between_iff hshown houtput (pure none)).2
    ⟨hbin.1, hbin.2.1, hbin.2.2, .inl hhalf⟩
  exact ⟨hshown, houtput, ref, href, hbetween⟩

/-- The middle of a month. -/
def midMonth : Value :=
  .object [("field", .text "date"), ("type", .text "temporal"), ("timeUnit", .text "month"),
    ("bandPosition", half)]

def midMonthDef : FieldDef :=
  { field := some "date", type := some .temporal, aggregate := none, bin := none
    timeUnit := some (.named "month"), title := .null, extras := [("bandPosition", half)] }

/-- A month has no column to end in, so that its middle is its start. -/
theorem not_between_midMonth :
    Interpolates (pointsAlong "time") midMonth midMonthDef half ∧
      midMonthDef.output = .ok "month_date" ∧
      midPoint (pointsAlong "time") midMonth (pure none) = .ok (some [("signal", .text
        "scale(\"x\", 0.5 * datum[\"month_date\"] + 0.5 * datum[\"month_date\"])")]) ∧
      ¬ ∃ ref, midPoint (pointsAlong "time") midMonth (pure none) = .ok (some ref) ∧
        Between (pointsAlong "time") half "month_date" "month_date_end" ref := by
  have hrun : midPoint (pointsAlong "time") midMonth (pure none) = .ok (some [("signal", .text
      "scale(\"x\", 0.5 * datum[\"month_date\"] + 0.5 * datum[\"month_date\"])")]) := by
    decide +kernel
  refine ⟨⟨rfl, rfl, rfl, by decide +kernel, by decide +kernel, rfl⟩, by decide +kernel, hrun, ?_⟩
  rintro ⟨ref, href, hbetween⟩
  obtain rfl := Option.some.inj (Except.ok.inj (hrun.symm.trans href))
  have htext := between_signal_iff.1 hbetween
  revert htext
  decide +kernel

end ValueRef

end ChartLowering
