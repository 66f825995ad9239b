import ChartLowering.Encode.Guide
import ChartLowering.Proofs.Report
import ChartLowering.Proofs.Value.Record

/-!
# The first reference that holds

The renderer reads the references of an entry from top to bottom and takes the first one whose test
holds, or that has none. For a definition with conditions this is the reference of the first
condition that holds, then the one for invalid values, and then that of the definition itself.
-/

namespace ChartLowering.Encode

/-- The references of an entry, from top to bottom. -/
def refsOf (drawn : String) (entry : Record Value) : List ValueRef :=
  (entry.value drawn).itemsOrSelf.filterMap Value.members?

/-- What is taken of references, without its test, where it is known which tests hold. -/
def firstMatch (truth : Value → Bool) : List ValueRef → Option ValueRef
  | [] => none
  | ref :: rest =>
      match ref.get? "test" with
      | none => some ref
      | some test => if truth test then some (ref.erase "test") else firstMatch truth rest

/-- A condition with a test in its written form. -/
structure Clause where
  test : String
  ref : ValueRef

def Clause.written (k : Clause) : ValueRef := ("test", .text k.test) :: k.ref

/-- What a condition is to come to: nothing if it is about a parameter, else its test with the
reference that it stands for. -/
inductive Reads (main : Value → Except Fault (Option ValueRef)) : Value → Option Clause → Prop
  | parameter {members : Record Value} (hparam : members.has "param" = true) :
      Reads main (.object members) none
  | tested {members : Record Value} {predicate : Value} {test : String} {ref : Option ValueRef}
      (hparam : members.has "param" = false) (hgiven : members.get? "test" = some predicate)
      (htest : Predicate.text predicate = .ok test) (href : main (.object members) = .ok ref) :
      Reads main (.object members) (some ⟨test, ref.getD []⟩)

/-- Are the references that `main` gives records without a test? -/
def Testless (main : Value → Except Fault (Option ValueRef)) : Prop :=
  ∀ v ref, main v = .ok (some ref) → ref.has "test" = false ∧ ref.keys.Nodup

/-- The conditions that a definition with these members gives. -/
def given (members : Record Value) : List Value :=
  if (members.value "condition").isNull then [] else (members.value "condition").itemsOrSelf

/-- What is told of a condition about a parameter. -/
def dropped (drawn : String) : Notice :=
  ⟨.warning, .condition, .selectionCondition (.text drawn)⟩

variable {truth : Value → Bool} {drawn : String} {main : Value → Except Fault (Option ValueRef)}
  {members : Record Value} {refs more : List ValueRef} {ref : ValueRef}
  {invalid own : Option ValueRef}
  {clauses : List Clause} {conditions : List Value} {found : List (Option Clause)}

section Reading

theorem firstMatch_append : firstMatch truth (refs ++ more) =
    (firstMatch truth refs).or (firstMatch truth more) := by
  induction refs with
  | nil => rfl
  | cons ref rest ih =>
      rw [List.cons_append, firstMatch, firstMatch]
      split
      · rfl
      · split
        · rfl
        · exact ih

theorem firstMatch_written (h : ∀ k ∈ clauses, k.ref.has "test" = false) :
    firstMatch truth (clauses.map Clause.written) =
      (clauses.find? fun k ↦ truth (.text k.test)).map Clause.ref := by
  induction clauses with
  | nil => rfl
  | cons k rest ih =>
      obtain ⟨hk, hrest⟩ := List.forall_mem_cons.1 h
      have hget : Record.get? k.written "test" = some (.text k.test) := rfl
      have herase : Record.erase k.written "test" = k.ref := by
        rw [Clause.written, Record.erase_cons, if_pos rfl, Record.erase_eq_self hk]
      rw [List.map_cons, firstMatch, hget, List.find?_cons]
      dsimp only
      rw [herase]
      cases truth (.text k.test) with
      | true => rfl
      | false => exact ih hrest

theorem firstMatch_invalid (h : ∀ ref ∈ invalid, ref.has "test" = true) :
    firstMatch truth invalid.toList =
      (invalid.filter fun ref ↦ truth (ref.value "test")).map (·.erase "test") := by
  cases invalid with
  | none => rfl
  | some ref =>
      obtain ⟨test, htest⟩ := Option.isSome_iff_exists.1
        ((Record.has_eq_isSome ref "test").symm.trans (h ref rfl))
      rw [Option.toList_some, firstMatch, htest, Option.filter_some, Record.value_of_get? htest]
      dsimp only
      split <;> rfl

theorem firstMatch_own (h : ∀ ref ∈ own, ref.has "test" = false) :
    firstMatch truth own.toList = own := by
  cases own with
  | none => rfl
  | some ref =>
      have hnone : ref.get? "test" = none := by
        simpa [Record.has_eq_isSome] using h ref rfl
      rw [Option.toList_some, firstMatch, hnone]

end Reading

section Entries

theorem entry_cases (drawn : String) (refs : List ValueRef) :
    refs = [] ∧ entry drawn refs = [] ∨
      (∃ ref, refs = [ref] ∧ isTested ref = false ∧ entry drawn refs = [(drawn, .object ref)]) ∨
      refs ≠ [] ∧ entry drawn refs = [(drawn, .list (refs.map .object))] := by
  match refs with
  | [] => exact .inl ⟨rfl, rfl⟩
  | [ref] =>
      cases htested : isTested ref with
      | true => exact .inr (.inr ⟨nofun, by rw [entry, htested]; rfl⟩)
      | false => exact .inr (.inl ⟨ref, rfl, htested, by rw [entry, htested]; rfl⟩)
  | a :: b :: rest => exact .inr (.inr ⟨nofun, rfl⟩)

theorem value_cell (drawn : String) (v : Value) : Record.value [(drawn, v)] drawn = v := by
  rw [Record.value, Record.get?_cons, if_pos rfl]
  rfl

/-- An entry shows its references as they are, whatever its form. -/
theorem refsOf_entry (drawn : String) (refs : List ValueRef) :
    refsOf drawn (entry drawn refs) = refs := by
  obtain ⟨rfl, hentry⟩ | ⟨ref, rfl, -, hentry⟩ | ⟨-, hentry⟩ := entry_cases drawn refs <;>
    rw [refsOf, hentry]
  · rfl
  · rw [value_cell]
    rfl
  · rw [value_cell, Value.itemsOrSelf, List.filterMap_map]
    exact List.filterMap_some

theorem entry_eq_nil_iff : entry drawn refs = [] ↔ refs = [] := by
  obtain ⟨rfl, hentry⟩ | ⟨ref, rfl, -, hentry⟩ | ⟨hne, hentry⟩ := entry_cases drawn refs <;>
    rw [hentry]
  · simp
  · simp
  · simpa using hne

theorem eq_map_of_entry {items : List Value} (h : (entry drawn refs).value drawn = .list items) :
    items = refs.map .object := by
  obtain ⟨rfl, hentry⟩ | ⟨ref, rfl, -, hentry⟩ | ⟨-, hentry⟩ := entry_cases drawn refs <;>
    rw [hentry] at h
  · cases h
  · rw [value_cell] at h
    cases h
  · rw [value_cell] at h
    exact (Value.list.inj h).symm

/-- Behind references with a test, only the last one of a list can have none. -/
theorem hasMember_of_mem_dropLast (hrefs : ∀ ref ∈ refs, ref.has "test" = true) {v : Value}
    (hv : v ∈ ((refs ++ own.toList).map Value.object).dropLast) : v.hasMember "test" = true := by
  rw [← List.map_dropLast, List.mem_map] at hv
  obtain ⟨ref, href, rfl⟩ := hv
  cases own with
  | none =>
      rw [Option.toList_none, List.append_nil] at href
      exact hrefs ref (List.dropLast_subset refs href)
  | some last =>
      rw [Option.toList_some, List.dropLast_concat] at href
      exact hrefs ref href

end Entries

section Conditions

theorem conditions_object (members : Record Value) :
    Encode.conditions (.object members) = .ok (given members) := by
  rw [Encode.conditions, ChannelDef.isConditional, given]
  cases hnull : (members.value "condition").isNull with
  | true => rfl
  | false =>
      have hget : members.get? "condition" = some (members.value "condition") := by
        refine Record.get?_of_value rfl fun h ↦ ?_
        rw [h] at hnull
        cases hnull
      have hrequire : (Value.object members).require "condition" =
          .ok (members.value "condition") := by
        rw [Value.require, Record.require, hget]
        rfl
      rw [Bool.not_false, if_pos rfl, hrequire]
      rfl

theorem testless_getD (hmain : Testless main) {v : Value} {ref : Option ValueRef}
    (h : main v = .ok ref) :
    Record.has (ref.getD []) "test" = false ∧ (Record.keys (ref.getD [])).Nodup := by
  cases ref with
  | none => exact ⟨rfl, List.nodup_nil⟩
  | some ref => exact hmain v ref h

theorem override_test {test : Value} (hno : ref.has "test" = false) (hkeys : ref.keys.Nodup) :
    Record.override [("test", test)] ref = ("test", test) :: ref := by
  refine Record.override_eq_append (List.nodup_cons.2 ⟨fun hmem ↦ ?_, hkeys⟩)
  obtain ⟨m, hm, hkey⟩ := List.mem_map.1 hmem
  rw [Record.has, List.any_eq_false] at hno
  exact hno m hm (by simpa using hkey)

theorem ofCondition_of_reads (hmain : Testless main) {c : Value} {k : Option Clause}
    (h : Reads main c k) :
    ofCondition drawn main c =
      ⟨if k.isNone then [dropped drawn] else [], .ok (k.map Clause.written)⟩ := by
  cases h with
  | @parameter members hparam =>
      have hmentions : (Value.object members).mentions "param" = .ok true :=
        congrArg Except.ok hparam
      rw [ofCondition, hmentions]
      rfl
  | @tested members predicate test ref hparam hgiven htest href =>
      have hmentions : (Value.object members).mentions "param" = .ok false :=
        congrArg Except.ok hparam
      have hrequire : (Value.object members).require "test" = .ok predicate := by
        rw [Value.require, Record.require, hgiven]
        rfl
      obtain ⟨hno, hkeys⟩ := testless_getD hmain href
      rw [ofCondition, hmentions, href, hrequire, Report.lift_ok, Report.lift_ok, Report.lift_ok]
      simp only [pure_bind, Bool.false_eq_true, if_false, htest, Report.lift_ok]
      rw [override_test hno hkeys]
      rfl

theorem mapM_ofCondition (hmain : Testless main) (h : List.Forall₂ (Reads main) conditions found) :
    conditions.mapM (ofCondition drawn main) =
      ⟨List.replicate (found.countP (·.isNone)) (dropped drawn),
        .ok (found.map (Option.map Clause.written))⟩ := by
  induction h with
  | nil => rfl
  | @cons c k conditions found hc _ ih =>
      rw [List.mapM_cons, ofCondition_of_reads hmain hc, Report.bind_of_ok _ rfl, ih,
        Report.bind_of_ok _ rfl, List.countP_cons]
      cases k with
      | none => exact Report.ext (by simp [List.replicate_succ]) rfl
      | some k => exact Report.ext (by simp) rfl

theorem testless_of_mem (hmain : Testless main) (h : List.Forall₂ (Reads main) conditions found)
    {k : Clause} (hk : some k ∈ found) : k.ref.has "test" = false := by
  induction h with
  | nil => cases hk
  | cons hc _ ih =>
      obtain rfl | hk := List.mem_cons.1 hk
      · cases hc with
        | tested hparam hgiven htest href => exact (testless_getD hmain href).1
      · exact ih hk

/-- Whatever conditions a definition has, its entry shows for each truth of the tests the reference
of the first condition that holds, or else the one for invalid values if its test holds, or else
that of the definition. Conditions about parameters are told of and skipped. In a list only the last
reference can be without a test, and there is no entry exactly if there is nothing to show. -/
theorem wrapped_first_match (hmain : Testless main)
    (hfound : List.Forall₂ (Reads main) (given members) found)
    (hown : main (.object members) = .ok own) (hinvalid : ∀ ref ∈ invalid, ref.has "test" = true)
    (drawn : String) :
    ∃ entry, wrapped drawn (.object members) main invalid =
        ⟨List.replicate (found.countP (·.isNone)) (dropped drawn), .ok entry⟩ ∧
      (∀ truth : Value → Bool, firstMatch truth (refsOf drawn entry) =
        (((found.filterMap id).find? fun k ↦ truth (.text k.test)).map Clause.ref).or
          (((invalid.filter fun ref ↦ truth (ref.value "test")).map (·.erase "test")).or own)) ∧
      (∀ items, entry.value drawn = .list items →
        ∀ v ∈ items.dropLast, v.hasMember "test" = true) ∧
      (entry = [] ↔ found.filterMap id = [] ∧ invalid = none ∧ own = none) := by
  have hfilter : (found.map (Option.map Clause.written)).filterMap id =
      (found.filterMap id).map Clause.written := by
    rw [List.filterMap_map, List.map_filterMap]
    rfl
  refine ⟨entry drawn ((found.filterMap id).map Clause.written ++ invalid.toList ++ own.toList),
    ?_, fun truth ↦ ?_, fun items hitems v hv ↦ ?_, ?_⟩
  · rw [wrapped, conditions_object, Report.lift_ok, pure_bind, mapM_ofCondition hmain hfound,
      Report.bind_of_ok _ rfl, hown, Report.lift_ok, pure_bind, hfilter]
    exact Report.ext (List.append_nil _) rfl
  · rw [refsOf_entry, List.append_assoc, firstMatch_append, firstMatch_append,
      firstMatch_written fun k hk ↦ ?_, firstMatch_invalid hinvalid,
      firstMatch_own fun ref href ↦ ?_]
    · exact (hmain _ ref (hown.trans (congrArg Except.ok href))).1
    · obtain ⟨-, hk, rfl⟩ := List.mem_filterMap.1 hk
      exact testless_of_mem hmain hfound hk
  · rw [eq_map_of_entry hitems] at hv
    refine hasMember_of_mem_dropLast (fun ref href ↦ ?_) hv
    obtain href | href := List.mem_append.1 href
    · obtain ⟨k, -, rfl⟩ := List.mem_map.1 href
      rfl
    · exact hinvalid ref (Option.mem_toList.1 href)
  · rw [entry_eq_nil_iff]
    simp

end Conditions

theorem testless_literalRef : Testless literalRef := by
  intro v ref h
  obtain ⟨w, -, rfl⟩ := Option.map_eq_some_iff.1 (Except.ok.inj h)
  rw [ValueRef.ofValue]
  split <;> exact ⟨rfl, List.nodup_singleton _⟩

/-- Two tests, the second one without a value, and a parameter between them. -/
def mixed : Record Value :=
  [("condition", .list
     [.object [("test", .text "datum.a > 2"), ("value", .text "red")],
      .object [("param", .text "brush"), ("value", .text "gold")],
      .object [("test", .object [("field", .text "a"), ("lt", .int 0)])]]),
   ("value", .text "grey")]

def invalidRef : ValueRef := [("test", .text "!isValid(datum.a)"), ("value", .int 0)]

theorem wrapped_first_match_mixed :
    ∃ entry, wrapped "fill" (.object mixed) literalRef (some invalidRef) =
        ⟨[dropped "fill"], .ok entry⟩ ∧
      ∀ truth : Value → Bool, firstMatch truth (refsOf "fill" entry) =
        if truth (.text "datum.a > 2") then some [("value", .text "red")]
        else if truth (.text "datum[\"a\"]<0") then some []
        else if truth (.text "!isValid(datum.a)") then some [("value", .int 0)]
        else some [("value", .text "grey")] := by
  have htest : Predicate.text (.object [("field", .text "a"), ("lt", .int 0)]) =
      .ok "datum[\"a\"]<0" := by
    decide +kernel
  have hfound : List.Forall₂ (Reads literalRef) (given mixed)
      [some ⟨"datum.a > 2", [("value", .text "red")]⟩, none, some ⟨"datum[\"a\"]<0", []⟩] :=
    .cons (@Reads.tested _ _ _ _ (some [("value", .text "red")]) rfl rfl rfl rfl)
      (.cons (.parameter rfl) (.cons (@Reads.tested _ _ _ _ none rfl rfl htest rfl) .nil))
  have hinvalid : ∀ ref ∈ some invalidRef, ref.has "test" = true := by
    rintro ref ⟨⟩
    rfl
  obtain ⟨entry, hentry, hshown, -⟩ :=
    wrapped_first_match testless_literalRef hfound rfl hinvalid "fill"
  refine ⟨entry, hentry, fun truth ↦ (hshown truth).trans ?_⟩
  have hvalue : invalidRef.value "test" = .text "!isValid(datum.a)" := rfl
  rw [Option.filter_some, hvalue]
  simp only [List.filterMap_cons, List.filterMap_nil, id_eq, List.find?_cons, List.find?_nil]
  cases truth (.text "datum.a > 2") <;> cases truth (.text "datum[\"a\"]<0") <;>
    cases truth (.text "!isValid(datum.a)") <;> rfl

end ChartLowering.Encode
