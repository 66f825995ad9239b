import ChartLowering.Proofs.InvalidData.Coverage
import ChartLowering.Proofs.Json.Canonical
import ChartLowering.Proofs.Value.Record

/-!
# What a digest of guards tells

Guards with the same digest guard the same fields by definitions of the same canonical text. The
columns that are tested can differ all the same: the name of a column follows the order in which
the parameters of a bin are given, of which the digest tells nothing.
-/

namespace ChartLowering

namespace FieldDef

theorem clean_of_read {v : Value} {fd : FieldDef} (h : read v = .ok fd) : fd.Clean := by
  cases v with
  | object => exact clean_of_ofMembers h
  | fieldDef => exact clean_of_ofMembers h
  | _ => cases h

theorem clean_of_anyFieldDef? {v : Value} {fd : FieldDef}
    (h : ChannelDef.anyFieldDef? v = .ok (some fd)) : fd.Clean := by
  obtain ⟨found, hfound, h⟩ := bind_eq_ok_iff.1 h
  cases found with
  | some other =>
      obtain rfl := Option.some.inj (Except.ok.inj h)
      rw [ChannelDef.fieldDef?] at hfound
      split at hfound
      · cases hread : read v with
        | error fault => simp [hread, Functor.map, Except.map] at hfound
        | ok fd =>
            obtain rfl : fd = other := by simpa [hread, Functor.map, Except.map] using hfound
            exact clean_of_read hread
      · cases hfound
  | none =>
      simp only [ChannelDef.conditionalFieldDef?] at h
      split at h
      · split at h
        · obtain ⟨members, -, h⟩ := bind_eq_ok_iff.1 h
          obtain ⟨other, hother, h⟩ := bind_eq_ok_iff.1 h
          obtain rfl := Option.some.inj (Except.ok.inj h)
          exact clean_of_ofMembers hother
        · cases h
      · cases h

end FieldDef

namespace Guards

/-- Guards as a model has them: each goes by the field of a definition that was read. -/
structure Proper (guards : Guards) : Prop where
  key : ∀ g ∈ guards, g.1 = g.2.field
  clean : ∀ g ∈ guards, g.2.Clean

theorem proper_ofModel {m : UnitModel} {sources : DataSources} {guards : Guards}
    (h : (ofModel m sources).outcome = .ok guards) : guards.Proper := by
  cases hsources : sources.includesAll with
  | true =>
      rw [ofModel, hsources, if_pos rfl] at h
      obtain rfl := Except.ok.inj h
      exact ⟨by simp, by simp⟩
  | false =>
      rw [outcome_ofModel m hsources] at h
      cases hdemands : m.demands with
      | error fault => simp [hdemands, Functor.map, Except.map] at h
      | ok demands =>
          obtain rfl : ofDemands demands = guards := by
            simpa [hdemands, Functor.map, Except.map] using h
          refine ⟨fun g hg ↦ (mem_ofDemands_iff.1 hg).1, fun g hg ↦ ?_⟩
          obtain ⟨-, before, after, hsplit, -⟩ := mem_ofDemands_iff.1 hg
          have hmem : g.2 ∈ demands := by simp [hsplit]
          obtain ⟨_, _, _, _, _, hdef, -⟩ := (m.mem_demands_iff hdemands).1 hmem
          exact FieldDef.clean_of_anyFieldDef? hdef

/-- The name by which the digest knows a definition. -/
def nameOf (fd : FieldDef) : String := fd.field.getD "None"

/-- The digest tells of a guard unless a later one goes by the same name. -/
def Told (guards : Guards) (fd : FieldDef) : Prop :=
  (fd.field, fd) ∈ guards ∧ (nameOf fd, fd.toValue) ∈ guards.members

theorem nodup_keys_members (guards : Guards) : (Record.keys guards.members).Nodup :=
  Record.nodup_keys_override List.nodup_nil

theorem exists_told {guards : Guards} (hguards : guards.Proper) {key : String} {v : Value}
    (h : (key, v) ∈ guards.members) :
    ∃ fd, guards.Told fd ∧ key = nameOf fd ∧ v = fd.toValue := by
  obtain h' | h' := Record.mem_of_mem_override h
  · cases h'
  · obtain ⟨g, hg, heq⟩ := List.mem_map.1 h'
    obtain ⟨rfl, rfl⟩ := Prod.mk.inj heq
    have hkey := hguards.key g hg
    refine ⟨g.2, ⟨?_, ?_⟩, ?_, rfl⟩
    · rw [← hkey]
      exact hg
    · rw [nameOf, ← hkey]
      exact h
    · rw [nameOf, ← hkey]

/-- The tree of guards as their canonical text spells it. -/
def tree (guards : Guards) : Json.Tree :=
  Json.tree (Value.sorted (.object (Value.storedMembers guards.members)))

theorem canonical_members {guards : Guards} (hguards : guards.Proper) :
    Json.canonical (.object guards.members) =
      .ok (Json.write Json.compact
        (Value.sorted (.object (Value.storedMembers guards.members)))) := by
  refine canonical_fieldDefs fun m hm ↦ ?_
  obtain ⟨fd, -, -, hv⟩ := exists_told hguards hm
  exact ⟨fd.members, hv⟩

theorem digest_eq_of_canonical_eq {guards others : Guards}
    (h : Json.canonical (.object guards.members) = Json.canonical (.object others.members)) :
    guards.digest = others.digest := by
  rw [digest, digest, Json.digest, Json.digest, h]

section Counterparts

variable {guards others : Guards} {fd other : FieldDef}

/-- Guards with the same digest have the same tree, if the digests of the two texts tell them
apart. -/
theorem tree_eq_of_digest_eq (hguards : guards.Proper) (hothers : others.Proper)
    (hdigest : guards.digest = others.digest)
    (hfree : ∀ s t, Json.canonical (.object guards.members) = .ok s →
      Json.canonical (.object others.members) = .ok t →
      Sha256.hexDigest s = Sha256.hexDigest t → s = t) : guards.tree = others.tree := by
  have hsame := canonical_members hguards
  have hother := canonical_members hothers
  rw [digest, digest, Json.digest, Json.digest, hsame, hother] at hdigest
  have htext := Except.ok.inj hdigest
  rw [String.append_right_inj] at htext
  exact Json.Tree.write_eq_iff.1 (hfree _ _ hsame hother htext)

theorem mem_storedMembers_iff {key : String} {w : Value} :
    (key, w) ∈ Value.storedMembers guards.members ↔
      ∃ v, (key, v) ∈ guards.members ∧ w = v.stored := by
  rw [Value.storedMembers_eq_map, List.mem_map]
  constructor
  · rintro ⟨⟨k, v⟩, hv, h⟩
    obtain ⟨rfl, rfl⟩ := Prod.mk.inj h
    exact ⟨v, hv, rfl⟩
  · rintro ⟨v, hv, rfl⟩
    exact ⟨(key, v), hv, rfl⟩

/-- Each guard that a digest tells of has its counterpart among all guards of that digest. -/
theorem exists_counterpart (hothers : others.Proper) (htree : guards.tree = others.tree)
    (h : guards.Told fd) : ∃ other, others.Told other ∧ nameOf fd = nameOf other ∧
      fd.tree = other.tree := by
  obtain ⟨w, hw, heq⟩ :=
    Value.exists_mem_of_tree_eq htree (mem_storedMembers_iff.2 ⟨_, h.2, rfl⟩)
  obtain ⟨v, hv, rfl⟩ := mem_storedMembers_iff.1 hw
  obtain ⟨other, hother, hname, rfl⟩ := exists_told hothers hv
  exact ⟨other, hother, hname, heq⟩

theorem tree_eq_of_told (hothers : others.Proper) (htree : guards.tree = others.tree)
    (h : guards.Told fd) (hother : others.Told other) (hname : nameOf fd = nameOf other) :
    fd.tree = other.tree := by
  obtain ⟨third, hthird, hthirdName, heq⟩ := exists_counterpart hothers htree h
  have hvalue : third.toValue = other.toValue := by
    refine Record.eq_of_mem_of_nodup (nodup_keys_members others) hthird.2 ?_
    rw [← hthirdName, hname]
    exact hother.2
  have hmembers : third.members = other.members := Value.fieldDef.inj hvalue
  rw [heq, FieldDef.tree, FieldDef.tree, FieldDef.stored, FieldDef.stored, hmembers]

end Counterparts

/-- A guard that other guards do not have: the digest does not tell of it, or it derives another
column than theirs of its field. -/
def Unmatched (guards others : Guards) (fd : FieldDef) : Prop :=
  (fd.field, fd) ∈ guards ∧
    ¬ (guards.Told fd ∧ ∃ other, others.Told other ∧ other.field = fd.field ∧
      other.output = fd.output)

theorem datum_eq_of_output_eq {fd other : FieldDef} (h : fd.output = other.output) :
    fd.datum = other.datum := by
  have hflat : FieldPath.flatten (fd.column none) = FieldPath.flatten (other.column none) := h
  rw [FieldDef.datum, FieldDef.datum, Expression.field, Expression.field, hflat]

/-- What one set of tests has the other has too if each guard that is unmatched is made up for. -/
theorem mem_tests_of_matched {guards others : Guards} (hguards : guards.Proper)
    (hothers : others.Proper) (htree : guards.tree = others.tree) {tests tests' : List String}
    (htests : guards.tests.outcome = .ok tests) (htests' : others.tests.outcome = .ok tests')
    (hmade : ∀ fd, Unmatched guards others fd →
      ∃ other, (other.field, other) ∈ others ∧ Alike other fd) {text : String}
    (htext : text ∈ tests) : text ∈ tests' := by
  obtain ⟨⟨field, fd⟩, hfd, htest⟩ := (mem_tests_iff htests).1 htext
  obtain rfl : field = fd.field := hguards.key _ hfd
  obtain ⟨-, ref, hdatum, rfl⟩ := outcome_test_eq_ok_iff.1 htest
  have halike : ∃ other, (other.field, other) ∈ others ∧ Alike other fd := by
    by_cases h : Unmatched guards others fd
    · exact hmade fd h
    · obtain ⟨htold, other, hother, hfield, houtput⟩ := not_not.1 fun hnot ↦ h ⟨hfd, hnot⟩
      have hsame : fd.tree = other.tree :=
        tree_eq_of_told hothers htree htold hother (by rw [nameOf, nameOf, hfield])
      have htype := FieldDef.type_eq_of_tree_eq (hguards.clean _ hfd)
        (hothers.clean _ hother.1) hsame
      refine ⟨other, hother.1, ?_, ref, ?_, hdatum⟩
      · rw [FieldDef.isTemporal, FieldDef.isTemporal, htype]
      · rw [datum_eq_of_output_eq houtput, hdatum]
  obtain ⟨other, hother, htemporal, ref', hdatum', hagain⟩ := halike
  obtain rfl := Except.ok.inj (hdatum.symm.trans hagain)
  obtain ⟨text', hmem, htest'⟩ := exists_test htests' hother
  obtain ⟨-, ref'', hdatum'', rfl⟩ := outcome_test_eq_ok_iff.1 htest'
  obtain rfl := Except.ok.inj (hdatum'.symm.trans hdatum'')
  exact htemporal ▸ hmem

/-- Tests that are found among others come from guards that are tested alike. -/
theorem exists_alike_of_mem_tests {guards others : Guards} (hothers : others.Proper)
    {tests tests' : List String} (htests : guards.tests.outcome = .ok tests)
    (htests' : others.tests.outcome = .ok tests') (hsub : ∀ text ∈ tests, text ∈ tests')
    {fd : FieldDef} (hfd : (fd.field, fd) ∈ guards) :
    ∃ other, (other.field, other) ∈ others ∧ Alike other fd := by
  obtain ⟨text, hmem, htest⟩ := exists_test htests hfd
  obtain ⟨⟨field, other⟩, hother, hagain⟩ := (mem_tests_iff htests').1 (hsub text hmem)
  obtain rfl : field = other.field := hothers.key _ hother
  obtain ⟨-, ref, hdatum, rfl⟩ := outcome_test_eq_ok_iff.1 htest
  obtain ⟨-, ref', hdatum', htext⟩ := outcome_test_eq_ok_iff.1 hagain
  obtain ⟨htemporal, rfl⟩ := passing_inj.1 htext
  exact ⟨other, hother, htemporal.symm, ref, hdatum', hdatum⟩

/-- Each guard that a digest tells of is met by one of the same field and type among all guards of
that digest. Two nodes with the same digest test the same exactly if each guard that is unmatched on
the other side is made up for there by a guard that is tested alike. -/
theorem same_tests_iff_of_digest_eq {m m' : UnitModel} {sources sources' : DataSources}
    {guards others : Guards} {tests tests' : List String}
    (hguards : (ofModel m sources).outcome = .ok guards)
    (hothers : (ofModel m' sources').outcome = .ok others)
    (htests : guards.tests.outcome = .ok tests) (htests' : others.tests.outcome = .ok tests')
    (hfree : ∀ s t, Json.canonical (.object guards.members) = .ok s →
      Json.canonical (.object others.members) = .ok t →
      Sha256.hexDigest s = Sha256.hexDigest t → s = t)
    (hdigest : guards.digest = others.digest) :
    (∀ fd, guards.Told fd →
      ∃ other, others.Told other ∧ other.field = fd.field ∧ other.type = fd.type) ∧
    ((∀ text, text ∈ tests ↔ text ∈ tests') ↔
      (∀ fd, Unmatched guards others fd →
        ∃ other, (other.field, other) ∈ others ∧ Alike other fd) ∧
      ∀ fd, Unmatched others guards fd →
        ∃ other, (other.field, other) ∈ guards ∧ Alike other fd) := by
  have hproper := proper_ofModel hguards
  have hproper' := proper_ofModel hothers
  have htree := tree_eq_of_digest_eq hproper hproper' hdigest hfree
  refine ⟨fun fd hfd ↦ ?_, ?_, ?_⟩
  · obtain ⟨other, hother, -, hsame⟩ := exists_counterpart hproper' htree hfd
    have hclean := hproper.clean _ hfd.1
    have hclean' := hproper'.clean _ hother.1
    exact ⟨other, hother, (FieldDef.field_eq_of_tree_eq hclean hclean' hsame).symm,
      (FieldDef.type_eq_of_tree_eq hclean hclean' hsame).symm⟩
  · intro hsame
    refine ⟨fun fd hfd ↦ ?_, fun fd hfd ↦ ?_⟩
    · exact exists_alike_of_mem_tests hproper' htests htests' (fun text ↦ (hsame text).1) hfd.1
    · exact exists_alike_of_mem_tests hproper htests' htests (fun text ↦ (hsame text).2) hfd.1
  · rintro ⟨hmade, hmade'⟩ text
    exact ⟨mem_tests_of_matched hproper hproper' htree htests htests' hmade,
      mem_tests_of_matched hproper' hproper htree.symm htests' htests hmade'⟩

/-- A unit that bins a field by some parameters. -/
def binnedBy (parameters : Record Value) : UnitModel where
  name := ""
  settings := {}
  mark := [("type", .text "point")]
  encoding :=
    [("x", .object [("field", .text "a"), ("type", .text "quantitative"),
      ("bin", .object parameters)])]
  scales := [("x", ⟨"x", .text "linear", false, none⟩)]

def binSpec (parameters : Record Value) : Record Value :=
  [("mark", .text "point"),
   ("encoding", .object
     [("x", .object [("field", .text "a"), ("type", .text "quantitative"),
       ("bin", .object parameters)])])]

/-- The guard of a field that is binned by some parameters. -/
def binGuard (parameters : Record Value) : Guards :=
  [(some "a", ⟨some "a", some .quantitative, none, some (.with parameters), none, .null, []⟩)]

/-- The same parameters in two orders. -/
def maxbinsFirst : Record Value := [("maxbins", .int 10), ("step", .int 5)]

def stepFirst : Record Value := [("step", .int 5), ("maxbins", .int 10)]

theorem ofModel_maxbinsFirst :
    (ofModel (binnedBy maxbinsFirst) ⟨.exclude, .exclude⟩).outcome =
      .ok (binGuard maxbinsFirst) := by
  decide +kernel

theorem ofModel_stepFirst :
    (ofModel (binnedBy stepFirst) ⟨.exclude, .exclude⟩).outcome = .ok (binGuard stepFirst) := by
  decide +kernel

theorem tests_maxbinsFirst : (binGuard maxbinsFirst).tests.outcome =
    .ok [passing false "datum[\"bin_maxbins_10_step_5_a\"]"] := by
  decide +kernel

theorem tests_stepFirst : (binGuard stepFirst).tests.outcome =
    .ok [passing false "datum[\"bin_step_5_maxbins_10_a\"]"] := by
  decide +kernel

/-- The canonical text of a guarded bin does not tell the order of its parameters. -/
theorem canonical_binGuard :
    Json.canonical (.object (binGuard maxbinsFirst).members) =
      Json.canonical (.object (binGuard stepFirst).members) := by
  have hbin : Value.sorted (Value.stored (.object maxbinsFirst)) =
      Value.sorted (Value.stored (.object stepFirst)) := by
    have hperm : maxbinsFirst.Perm stepFirst := .swap _ _ _
    exact congrArg Value.object (Value.byName_eq_of_perm hperm (by decide))
  have hproper (parameters : Record Value) : (binGuard parameters).Proper :=
    ⟨by simp [binGuard], by simp [binGuard, FieldDef.Clean]⟩
  have hguard (parameters : Record Value) :
      Value.sorted (.object (Value.storedMembers (binGuard parameters).members)) =
        .object (Value.byName [("a", .object (Value.byName [("field", .text "a"),
          ("type", .text "quantitative"),
          ("bin", Value.sorted (Value.stored (.object parameters)))]))]) := rfl
  rw [canonical_members (hproper _), canonical_members (hproper _), hguard, hguard, hbin]

theorem same_tests_iff_of_bin_order :
    (ofModel (binnedBy maxbinsFirst) ⟨.exclude, .exclude⟩).outcome = .ok (binGuard maxbinsFirst) ∧
    (ofModel (binnedBy stepFirst) ⟨.exclude, .exclude⟩).outcome = .ok (binGuard stepFirst) ∧
    (binGuard maxbinsFirst).digest = (binGuard stepFirst).digest ∧
    ((∀ text, text ∈ [passing false "datum[\"bin_maxbins_10_step_5_a\"]"] ↔
        text ∈ [passing false "datum[\"bin_step_5_maxbins_10_a\"]"]) ↔
      (∀ fd, Unmatched (binGuard maxbinsFirst) (binGuard stepFirst) fd →
        ∃ other, (other.field, other) ∈ binGuard stepFirst ∧ Alike other fd) ∧
      ∀ fd, Unmatched (binGuard stepFirst) (binGuard maxbinsFirst) fd →
        ∃ other, (other.field, other) ∈ binGuard maxbinsFirst ∧ Alike other fd) := by
  have hdigest := digest_eq_of_canonical_eq canonical_binGuard
  refine ⟨ofModel_maxbinsFirst, ofModel_stepFirst, hdigest, ?_⟩
  refine (same_tests_iff_of_digest_eq ofModel_maxbinsFirst ofModel_stepFirst tests_maxbinsFirst
    tests_stepFirst ?_ hdigest).2
  intro s t hs ht _
  rw [canonical_binGuard] at hs
  exact Except.ok.inj (hs.symm.trans ht)

/-- A digest does not tell in which order the parameters of a bin are given, but the name of the
column that is tested does. -/
theorem not_same_tests_of_bin_order :
    (UnitModel.ofSpec (binSpec maxbinsFirst)).outcome = .ok (binnedBy maxbinsFirst) ∧
    (UnitModel.ofSpec (binSpec stepFirst)).outcome = .ok (binnedBy stepFirst) ∧
    ∃ guards others tests tests',
      (ofModel (binnedBy maxbinsFirst) ⟨.exclude, .exclude⟩).outcome = .ok guards ∧
      (ofModel (binnedBy stepFirst) ⟨.exclude, .exclude⟩).outcome = .ok others ∧
      Json.canonical (.object guards.members) = Json.canonical (.object others.members) ∧
      guards.digest = others.digest ∧
      guards.tests.outcome = .ok tests ∧ others.tests.outcome = .ok tests' ∧
      ¬ ∀ text, text ∈ tests ↔ text ∈ tests' := by
  refine ⟨by decide +kernel, by decide +kernel, _, _, _, _, ofModel_maxbinsFirst,
    ofModel_stepFirst, canonical_binGuard, digest_eq_of_canonical_eq canonical_binGuard,
    tests_maxbinsFirst, tests_stepFirst, ?_⟩
  intro hsame
  have hmem := (hsame _).1 List.mem_cons_self
  rw [List.mem_singleton] at hmem
  exact absurd (passing_inj.1 hmem).2 (by decide)

end Guards

end ChartLowering
