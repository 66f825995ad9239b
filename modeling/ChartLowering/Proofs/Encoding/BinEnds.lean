import ChartLowering.Proofs.Encoding.Naming
import ChartLowering.Proofs.Encoding.OneByOne

/-!
# The ends of bins

The column in which a bin ends is named in two places: for those that group the rows the suffix is
added to the path, and for the channel that reads it, to the name of the column in which the bin
starts. The two are one column just if the path does not end in a dot or a bracket.
-/

namespace ChartLowering

namespace FieldPath

variable {place : Place} {pending other : Option (List Char)} {cs : List Char}
  {segments : List (List Char)}

/-- Whether a path is accepted does not depend on what has been begun before it. -/
theorem exists_scan (other : Option (List Char)) (h : scan place pending cs = .ok segments) :
    ∃ others, scan place other cs = .ok others := by
  -- On the length, as a backslash and the character after it are read at once.
  induction hn : cs.length using Nat.strongRecOn generalizing cs place pending other segments with
  | ind n ih =>
      rcases cs with _ | ⟨c, rest⟩
      · obtain ⟨⟨fresh, rfl⟩, -⟩ := scan_nil_eq_ok h
        exact ⟨_, rfl⟩
      rw [List.length_cons] at hn
      have hemit : ∀ {kept kept' : Option (List Char)} {next : Place},
          emit kept (scan next none rest) = .ok segments →
          ∃ others, emit kept' (scan next none rest) = .ok others := by
        intro kept kept' next h
        obtain ⟨later, hlater, -⟩ := cost_emit h
        exact ⟨_, by rw [hlater]; rfl⟩
      have hgrow : ∀ {next : Place}, scan next (grow pending c) rest = .ok segments →
          ∃ others, scan next (grow other c) rest = .ok others :=
        fun h ↦ ih rest.length (by omega) _ h rfl
      by_cases hc : c = '\\'
      · subst hc
        rcases rest with _ | ⟨d, rest⟩
        · obtain ⟨⟨fresh, hfresh⟩, -⟩ := scan_nil_eq_ok (scan_last_backslash.symm.trans h)
          rw [scan_last_backslash, hfresh]
          exact ⟨_, rfl⟩
        · rw [List.length_cons] at hn
          rw [scan_escape] at h ⊢
          exact ih rest.length (by omega) _ h rfl
      cases hplace : place.isQuoted with
      | true =>
          obtain ⟨quote, bracketed, rfl⟩ := Place.exists_of_isQuoted hplace
          rw [scan_quoted_cons hc] at h ⊢
          split at h
          · rename_i hquote
            rw [if_pos hquote]
            exact hemit h
          · rename_i hquote
            rw [if_neg hquote]
            exact hgrow h
      | false =>
          rw [scan_cons hplace hc] at h ⊢
          split_ifs at h ⊢
          · exact ⟨_, h⟩
          · exact hemit h
          · exact hemit h
          · exact hemit h
          · exact hgrow h

/-- What is accepted as a path is accepted after a text that has no meaning in one. -/
theorem exists_flatten_append {text path : String} {found : List String} (htext : Unmarked text)
    (hne : text ≠ "") (h : FieldPath.segments path = .ok found) :
    ∃ name, flatten (text ++ path) = .ok name := by
  obtain ⟨others, hothers⟩ := exists_scan (some []) (segments_eq_ok_iff.1 h)
  have hrest : continuation? path = some (String.ofList (['.'].intercalate others)) := by
    rw [continuation?, hothers]
  exact ⟨_, (flatten_append_eq_ok_iff htext hne).2 ⟨_, hrest, rfl⟩⟩

end FieldPath

open FieldPath

namespace FieldDef

variable {fd : FieldDef} {bin : Binning} {found : List String} {start name suffix : String}

/-- Does a text that is added to the path of a field run on with its last segment? -/
def EndsOpen (fd : FieldDef) : Prop := fd.path = "" ∨ endsOpen fd.path.toList = true

theorem exists_output (hbin : fd.bin = some bin) (hasks : bin.asks = true)
    (haccepted : FieldPath.segments fd.path = .ok found) : ∃ start, fd.output = .ok start := by
  cases hcount : fd.isCount with
  | true =>
      have hflatten : flatten Defaults.countField = .ok Defaults.countField := by decide +kernel
      refine ⟨Defaults.countField, ?_⟩
      rw [output, column, hcount, if_pos rfl, hflatten]
  | false =>
      obtain ⟨begun, hbegun, hne, hcolumn⟩ := exists_column_eq hbin hasks hcount
      rw [output, hcolumn]
      exact exists_flatten_append hbegun hne haccepted

section Binned

variable (hbinned : fd.isBinned = true) (h : fd.output = .ok start)

include hbinned h

/-- The end of a bin is named after its start if the path does not end in a dot or a bracket. -/
theorem output_end_iff :
    fd.output "end" = .ok (start ++ "_end") ↔ fd.isCount = false ∧ fd.EndsOpen := by
  rw [output_end h, Except.ok.injEq, String.append_right_inj, ending_eq_iff, and_iff_right hbinned]
  rfl

theorem output_range_ne (hcount : fd.isCount = false) :
    fd.output "range" ≠ .ok (start ++ "_end") := by
  rw [output_suffix hbinned hcount (by decide) (by decide) h, Ne, Except.ok.injEq,
    String.append_right_inj, junction]
  split <;> decide

end Binned

end FieldDef

namespace Lifted

variable {fd : FieldDef} {bin : Binning} {channel countTitle name start title : String}
  {members : Record Value} {l : Lifted} {v : Value}

/-- Without an aggregate, what is lifted from a binned definition are its bins. -/
theorem exists_ofBin (hfound : ChannelDef.fieldDef? v = .ok (some fd))
    (haggregate : givenAggregate? fd = none) (hbinned : fd.isBinned = true)
    (houtput : fd.output = .ok start) (h : ofDef countTitle channel v = .ok l) :
    ∃ bin members, ofBin channel fd bin start members = .ok l := by
  obtain ⟨bin, hbin⟩ : ∃ bin, fd.bin.filter Binning.asks = some bin := by
    rwa [isBinned_eq_isSome, Option.isSome_iff_exists] at hbinned
  rw [ofDef, hfound, ok_bind] at h
  dsimp only at h
  rw [ofFieldDef, haggregate, hbin] at h
  dsimp only at h
  rw [houtput, ok_bind] at h
  obtain ⟨members, -, h⟩ := bind_eq_ok_iff.1 h
  exact ⟨bin, members, h⟩

theorem mem_groupby_of_ofBin (h : ofBin channel fd bin start members = .ok l)
    (hname : name ∈ l.groupby) :
    name = start ∨ fd.output "end" = .ok name ∨ fd.output "range" = .ok name := by
  rw [ofBin] at h
  obtain ⟨ending, hending, h⟩ := bind_eq_ok_iff.1 h
  dsimp only at h
  split at h
  · obtain ⟨range, hrange, h⟩ := bind_eq_ok_iff.1 h
    obtain ⟨ranges, hranges, h⟩ := bind_eq_ok_iff.1 h
    obtain rfl := Except.ok.inj hranges
    obtain rfl := Except.ok.inj h
    simp only [List.cons_append, List.nil_append, List.mem_cons, List.not_mem_nil,
      or_false] at hname
    rcases hname with rfl | rfl | rfl
    exacts [.inl rfl, .inr (.inl hending), .inr (.inr hrange)]
  · obtain ⟨range, hrange, h⟩ := bind_eq_ok_iff.1 h
    obtain rfl := Except.ok.inj hrange
    obtain rfl := Except.ok.inj h
    simp only [List.append_nil, List.mem_cons, List.not_mem_nil, or_false] at hname
    rcases hname with rfl | rfl
    exacts [.inl rfl, .inr (.inl hending)]

/-- The bins of a definition group the rows by the start with the suffix just if the end has that
name. -/
theorem end_mem_groupby_iff (hbinned : fd.isBinned = true) (hcount : fd.isCount = false)
    (houtput : fd.output = .ok start) (h : ofBin channel fd bin start members = .ok l) :
    start ++ "_end" ∈ l.groupby ↔ fd.EndsOpen := by
  have hopen : fd.output "end" = .ok (start ++ "_end") ↔ fd.EndsOpen := by
    rw [FieldDef.output_end_iff hbinned houtput, and_iff_right hcount]
  rw [← hopen]
  constructor
  · intro hmem
    rcases mem_groupby_of_ofBin h hmem with hstart | hend | hrange
    · have hlength := congrArg String.length hstart
      rw [String.length_append] at hlength
      have hsuffix : "_end".length = 4 := rfl
      omega
    · exact hend
    · exact absurd hrange (FieldDef.output_range_ne hbinned houtput hcount)
  · intro hend
    obtain ⟨ending, range, hending, rfl⟩ := exists_of_ofBin h
    obtain rfl := Except.ok.inj (hending.symm.trans hend)
    exact List.mem_append_left _ (List.mem_cons_of_mem _ List.mem_cons_self)

end Lifted

namespace Extraction

variable {e r : Extraction} {encoding : Encoding} {channel countTitle name start : String}
  {lifted : List Lifted} {l : Lifted} {fd : FieldDef} {v w : Value}

/-- Does a definition bring a column to those that group the rows? -/
def Brings (title : String) (d : String × Value) (name : String) : Prop :=
  ∃ l, Lifted.ofDef title d.1 d.2 = .ok l ∧ name ∈ l.groupby

theorem mem_groupby_foldl_add :
    name ∈ (lifted.foldl (fun e l ↦ e.add channel l) e).groupby ↔
      name ∈ e.groupby ∨ ∃ l ∈ lifted, name ∈ l.groupby := by
  induction lifted generalizing e with
  | nil => simp
  | cons l rest ih => rw [List.foldl_cons, ih, add, mem_addColumns_iff, List.exists_mem_cons_iff,
      or_assoc]

/-- The rows are grouped by the columns that the definitions bring. -/
theorem mem_groupby_iff (h : ofEncoding encoding countTitle = .ok r) :
    name ∈ r.groupby ↔ ∃ d ∈ encoding.definitions, Brings (titleFor countTitle) d name := by
  let P (before : Encoding) (e : Extraction) : Prop :=
    name ∈ e.groupby ↔ ∃ d ∈ before.definitions, Brings (titleFor countTitle) d name
  refine induction_before (P := P) ?_ ?_ h
  · exact iff_of_false List.not_mem_nil fun ⟨_, hd, _⟩ ↦ nomatch hd
  intro before channel v after e e' _ he hadd
  obtain ⟨lifted, w, hlifted, -, -, rfl⟩ := exists_of_addChannel hadd
  have hadded : (∃ l ∈ lifted, name ∈ l.groupby) ↔
      ∃ x ∈ v.itemsOrSelf, Brings (titleFor countTitle) (channel, x) name := by
    constructor
    · rintro ⟨l, hl, hname⟩
      obtain ⟨x, hx, hof⟩ := (mem_of_mapM_eq_ok hlifted).1 hl
      exact ⟨x, hx, l, hof, hname⟩
    · rintro ⟨x, hx, l, hof, hname⟩
      exact ⟨l, (mem_of_mapM_eq_ok hlifted).2 ⟨x, hx, hof⟩, hname⟩
  have hgroupby : name ∈ (lifted.foldl (fun e l ↦ e.add channel l) e).groupby ↔
      (∃ d ∈ before.definitions, Brings (titleFor countTitle) d name) ∨
        ∃ x ∈ v.itemsOrSelf, Brings (titleFor countTitle) (channel, x) name := by
    rw [mem_groupby_foldl_add, hadded]
    exact or_congr_left he
  refine hgroupby.trans ?_
  rw [definitions_append_singleton]
  simp [or_and_right, exists_or]

/-- The end of the bins of the only definition on a channel stands on the channel that ends the
range, unless the encoding has a definition there. -/
theorem get?_end_of_ofEncoding (hkeys : encoding.keys.Nodup)
    (h : ofEncoding encoding countTitle = .ok r) (hmem : (channel, v) ∈ encoding)
    (hitems : v.itemsOrSelf = [v]) (hof : Lifted.ofDef (titleFor countTitle) channel v = .ok l)
    (hw : l.secondary = some w) (habsent : channel ++ "2" ∉ encoding.keys) :
    r.encoding.get? (channel ++ "2") = some w := by
  let P (before : Encoding) (e : Extraction) : Prop :=
    (channel, v) ∈ before → e.encoding.get? (channel ++ "2") = some w
  refine induction_before (P := P) (fun hmem ↦ nomatch hmem) ?_ h hmem
  intro before added v' after e e' hsplit he hadd hmem
  have hadded : added ∈ encoding.keys := by
    rw [hsplit, Record.keys, List.map_append]
    exact List.mem_append_right _ List.mem_cons_self
  have hne : channel ++ "2" ≠ added := fun heq ↦ habsent (heq ▸ hadded)
  obtain hmem | hmem := List.mem_append.1 hmem
  · have hother : ¬BringsEnd added v' (channel ++ "2") := by
      intro hbrings
      have hsame : channel = added := (String.append_left_inj "2").1 hbrings.key
      rw [hsplit, Record.keys, List.map_append, List.map_cons, List.nodup_append] at hkeys
      exact hkeys.2.2 channel (List.mem_map_of_mem (f := Prod.fst) hmem) added
        List.mem_cons_self hsame
    rw [(get?_of_addChannel_of_ne hadd hne).2 hother]
    exact he hmem
  · obtain ⟨rfl, rfl⟩ := Prod.mk.inj (List.mem_singleton.1 hmem)
    obtain ⟨lifted, shown, hlifted, -, -, rfl⟩ := exists_of_addChannel hadd
    obtain rfl : lifted = [l] := by
      rw [hitems, List.mapM_cons, List.mapM_nil, hof] at hlifted
      exact (Except.ok.inj hlifted).symm
    dsimp only
    rw [Record.get?_put_of_ne _ _ hne, List.foldl_cons, List.foldl_nil, add, hw]
    exact Record.get?_put_self _ _ _

/-- What an extraction has for the end of the bins of a definition on a position channel, if they
start in a given column: the definition of the end reads the start with the suffix, whatever column
groups the rows. -/
structure HasEnd (encoding : Encoding) (title : String) (r : Extraction) (channel : String)
    (v : Value) (fd : FieldDef) (start : String) : Prop where
  secondary : ∃ l, Lifted.ofDef title channel v = .ok l ∧
    l.secondary = some (.object [("field", .text (start ++ "_end"))])
  stands : encoding.keys.Nodup → (channel, v) ∈ encoding → channel ++ "2" ∉ encoding.keys →
    r.encoding.get? (channel ++ "2") = some (.object [("field", .text (start ++ "_end"))])
  grouped : start ++ "_end" ∈ r.groupby ↔
    fd.EndsOpen ∨
      ∃ d ∈ encoding.definitions, d ≠ (channel, v) ∧ Brings title d (start ++ "_end")

theorem hasEnd_of_ofEncoding (h : ofEncoding encoding countTitle = .ok r)
    (hmem : (channel, v) ∈ encoding.definitions) (haxis : Channel.isXOrY channel = true)
    (hfound : ChannelDef.fieldDef? v = .ok (some fd)) (hbinned : fd.isBinned = true)
    (haggregate : Lifted.givenAggregate? fd = none) (houtput : fd.output = .ok start) :
    HasEnd encoding (titleFor countTitle) r channel v fd start := by
  obtain ⟨l, hof⟩ : ∃ l, Lifted.ofDef (titleFor countTitle) channel v = .ok l := by
    obtain ⟨lifted, hlifted, -⟩ := exists_gathers h
    obtain ⟨l, -, hof⟩ := exists_of_mapM_eq_ok (mapM_eq_ok_iff.2 hlifted) hmem
    exact ⟨l, hof⟩
  obtain ⟨bin, members, hbins⟩ :=
    Lifted.exists_ofBin hfound haggregate hbinned houtput hof
  have hsecondary : l.secondary = some (.object [("field", .text (start ++ "_end"))]) := by
    obtain ⟨ending, range, -, rfl⟩ := Lifted.exists_of_ofBin hbins
    rw [if_pos haxis]
  have hitems : v.itemsOrSelf = [v] := by
    cases v with
    | list items => cases hfound
    | null | bool | int | float | text | set | object | fieldDef => rfl
  refine ⟨⟨l, hof, hsecondary⟩, fun hkeys hplace habsent ↦ ?_, ?_⟩
  · exact get?_end_of_ofEncoding hkeys h hplace hitems hof hsecondary habsent
  have hself : Brings (titleFor countTitle) (channel, v) (start ++ "_end") ↔ fd.EndsOpen := by
    have hcount := isCount_of_givenAggregate? haggregate
    rw [← Lifted.end_mem_groupby_iff hbinned hcount houtput hbins]
    constructor
    · rintro ⟨l', hof', hname⟩
      obtain rfl := Except.ok.inj (hof.symm.trans hof')
      exact hname
    · exact fun hname ↦ ⟨l, hof, hname⟩
  rw [mem_groupby_iff h, ← hself]
  constructor
  · rintro ⟨d, hd, hbrings⟩
    by_cases hsame : d = (channel, v)
    · exact .inl (hsame ▸ hbrings)
    · exact .inr ⟨d, hd, hsame, hbrings⟩
  · rintro (hbrings | ⟨d, hd, -, hbrings⟩)
    exacts [⟨_, hmem, hbrings⟩, ⟨d, hd, hbrings⟩]

/-- The end of a bin has the name of its start with the suffix just if the path of the field does
not end in a dot or a bracket. An extraction names it so in any case where it is read, but not where
it groups the rows. -/
theorem end_named_iff {bin : Binning} {found : List String} (hbin : fd.bin = some bin)
    (hasks : bin.asks = true) (haccepted : segments fd.path = .ok found) :
    ∃ start, fd.output = .ok start ∧
      (fd.output "end" = .ok (start ++ "_end") ↔ fd.isCount = false ∧ fd.EndsOpen) ∧
      ∀ encoding countTitle r channel v, ofEncoding encoding countTitle = .ok r →
        (channel, v) ∈ encoding.definitions → Channel.isXOrY channel = true →
        ChannelDef.fieldDef? v = .ok (some fd) → Lifted.givenAggregate? fd = none →
        HasEnd encoding (titleFor countTitle) r channel v fd start := by
  have hbinned := FieldDef.isBinned_of_asks hbin hasks
  obtain ⟨start, houtput⟩ := FieldDef.exists_output hbin hasks haccepted
  refine ⟨start, houtput, FieldDef.output_end_iff hbinned houtput, ?_⟩
  intro encoding countTitle r channel v h hmem haxis hfound haggregate
  exact hasEnd_of_ofEncoding h hmem haxis hfound hbinned haggregate houtput

/-- The bins of a field, horizontally. -/
def binsOf (path : String) : Value :=
  .object [("field", .text path), ("type", .text "quantitative"), ("bin", .bool true)]

def binDefOf (path : String) : FieldDef :=
  ⟨some path, some .quantitative, none, some (.flag true), none, .null, []⟩

theorem end_named_iff_member : ∃ r, ofEncoding [("x", binsOf "a.b")] "" = .ok r ∧
    (binDefOf "a.b").output "end" = .ok "bin_a.b_end" ∧ "bin_a.b_end" ∈ r.groupby ∧
    r.encoding.get? "x2" = some (.object [("field", .text "bin_a.b_end")]) := by
  have hrun : (do
      let _ ← ofEncoding [("x", binsOf "a.b")] ""
      pure ()) = (.ok () : Except Fault Unit) := by
    decide +kernel
  obtain ⟨r, hr, -⟩ := bind_eq_ok_iff.1 hrun
  have hopen : (binDefOf "a.b").EndsOpen := .inr (by decide)
  have houtput : (binDefOf "a.b").output = .ok "bin_a.b" := by decide +kernel
  have hbin : (binDefOf "a.b").bin = some (.flag true) := rfl
  have haccepted : segments (binDefOf "a.b").path = .ok ["a", "b"] := by decide +kernel
  obtain ⟨start, hstart, hend, hall⟩ := end_named_iff hbin rfl haccepted
  obtain rfl := Except.ok.inj (houtput.symm.trans hstart)
  have hhas := hall _ _ r "x" (binsOf "a.b") hr List.mem_cons_self rfl (by decide +kernel) rfl
  refine ⟨r, hr, hend.2 ⟨rfl, hopen⟩, hhas.grouped.2 (.inl hopen), ?_⟩
  exact hhas.stands (by decide) List.mem_cons_self (by decide)

/-- The bins of an item of a list end in a column that is not the one that is read. -/
theorem not_end_named_item : segments "a[0]" = .ok ["a", "0"] ∧
    (binDefOf "a[0]").output = .ok "bin_a.0" ∧
    (binDefOf "a[0]").output "end" ≠ .ok "bin_a.0_end" ∧
    ∃ r, ofEncoding [("x", binsOf "a[0]")] "" = .ok r ∧
      r.encoding.get? "x2" = some (.object [("field", .text "bin_a.0_end")]) ∧
      "bin_a.0_end" ∉ r.groupby := by
  have hrun : (do
      let r ← ofEncoding [("x", binsOf "a[0]")] ""
      pure (r.groupby, r.encoding.get? "x2")) =
      .ok (["bin_a.0", "bin_a.0._end"], some (.object [("field", .text "bin_a.0_end")])) := by
    decide +kernel
  obtain ⟨r, hr, hrun⟩ := bind_eq_ok_iff.1 hrun
  obtain ⟨hgroupby, hget⟩ := Prod.mk.inj (Except.ok.inj hrun)
  refine ⟨by decide +kernel, by decide +kernel, by decide +kernel, r, hr, hget, ?_⟩
  rw [hgroupby]
  decide

end Extraction

end ChartLowering
