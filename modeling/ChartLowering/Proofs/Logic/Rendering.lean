import ChartLowering.Proofs.FieldPath.Spelling
import ChartLowering.Proofs.Logic.Tests

/-!
# What the texts of predicates are read as

Constants, tests of fields and combinations spell the terms that they stand for. An operand of a
combination stands between parentheses, so that no operator of it binds outside of them.
-/

namespace ChartLowering.Predicate

open Logic

section Constants

theorem spells_items {ss : List String} {ts : List Term}
    (h : List.Forall₂ (fun s t ↦ Spells (.term 1 t) s) ss ts) :
    Spells (.items ts) (", ".intercalate ss) := by
  induction h with
  | nil => exact spells_none
  | @cons s t ss ts hs hrest ih =>
      cases hrest with
      | nil =>
          rw [String.intercalate_singleton]
          exact hs.last
      | cons _ _ =>
          rw [String.intercalate_cons_cons]
          exact hs.more ih

theorem opens_nat (n : ℕ) : Opens (toString n) := by
  obtain ⟨c, cs, hchars, hc⟩ := exists_digit n
  refine ⟨c, cs, ?_, notMem_of_isAlphanum (isAlphanum_of_isDigit hc) rfl⟩
  rw [toList_nat, hchars]

theorem isWord_null : IsWord "null" := ⟨⟨'n', _, rfl, by decide⟩, rfl⟩

theorem isWord_true : IsWord "true" := ⟨⟨'t', _, rfl, by decide⟩, rfl⟩

theorem isWord_false : IsWord "false" := ⟨⟨'f', _, rfl, by decide⟩, rfl⟩

mutual

theorem literal_value : ∀ c : Constant, ∃ s, Expression.literal c.value = .ok s ∧ Opens s ∧
    Spells (.term 11 c.term) s
  | .null => ⟨"null", rfl, isWord_null.opens, spells_name isWord_null⟩
  | .bool true => ⟨"true", rfl, isWord_true.opens, spells_name isWord_true⟩
  | .bool false => ⟨"false", rfl, isWord_false.opens, spells_name isWord_false⟩
  | .int (.ofNat n) => ⟨toString n, rfl, opens_nat n, _, cuts_nat n, .number _⟩
  | .int (.negSucc n) => ⟨"-" ++ toString (n + 1), rfl, Opens.append ⟨'-', _, rfl, by decide⟩ _, _,
      cuts_minus (n + 1), .signed .minus (.number _)⟩
  | .text s => ⟨Text.stringLiteral s, rfl,
      ⟨'"', _, by rw [Json.toList_stringLiteral]; rfl, by decide⟩, spells_text s⟩
  | .list items => by
      obtain ⟨ss, hliterals, hspells⟩ := literals_values items
      refine ⟨"[" ++ ", ".intercalate ss ++ "]", ?_, ?_, (spells_items hspells).list⟩
      · rw [Constant.value, Expression.literal, hliterals]
        rfl
      · exact (Opens.append ⟨'[', _, rfl, by decide⟩ _).append _

theorem literals_values : ∀ cs : List Constant, ∃ ss,
    Expression.literals (Constant.values cs) = .ok ss ∧
      List.Forall₂ (fun s t ↦ Spells (.term 1 t) s) ss (Constant.terms cs)
  | [] => ⟨[], rfl, .nil⟩
  | c :: rest => by
      obtain ⟨s, hliteral, -, hspells⟩ := literal_value c
      obtain ⟨ss, hliterals, hrest⟩ := literals_values rest
      refine ⟨s :: ss, ?_, .cons (hspells.mono (by decide)) hrest⟩
      rw [Constant.values, Expression.literals, hliteral, ok_bind, hliterals]
      rfl

end

end Constants

section Fields

variable {column : String} {members : Record Value} {test : FieldTest}

theorem cuts_comparison (c : Comparison) : Cuts Fresh c.text [c.sign.lexeme] := by
  intro rest hrest
  have hnot (d : Char) (hd : d ∈ ['=', '<', '>', '+']) (cs : List Char) : rest ≠ d :: cs := by
    rintro rfl
    exact hrest d rfl hd
  have hless : Expression.token? ('<' :: rest) = some (.operator .less, rest) := by
    show Expression.symbol? _ = _
    rw [Expression.symbol?]
    · exact hnot '=' (by decide)
    · exact hnot '<' (by decide)
  have hgreater : Expression.token? ('>' :: rest) = some (.operator .greater, rest) := by
    show Expression.symbol? _ = _
    rw [Expression.symbol?]
    · exact hnot '=' (by decide)
    · exact hnot '>' (by decide)
  cases c with
  | equal => exact lexemes?_of_lexeme '=' ('=' :: '=' :: rest) rfl rfl (by simp; omega)
  | less => exact lexemes?_of_token (by decide) hless le_rfl
  | atMost => exact @lexemes?_of_token '<' ('=' :: rest) _ _ (by decide) rfl (by simp)
  | greater => exact lexemes?_of_token (by decide) hgreater le_rfl
  | atLeast => exact @lexemes?_of_token '>' ('=' :: rest) _ _ (by decide) rfl (by simp)

theorem spells_compare (column : String) (c : Comparison) {s : String} {t : Term}
    (hopens : Opens s) (h : Spells (.term 11 t) s) :
    Spells (.term 1 (.binary c.sign (.column column) t))
      (Expression.datum column ++ c.text ++ s) := by
  obtain ⟨ls, hcuts, hderives⟩ := h
  have hleft := (cuts_datum column).then (cuts_comparison c)
  have hall := hleft.append hcuts fun rest _ ↦ hopens.fresh rest
  rw [List.append_assoc] at hall
  exact ⟨_, hall, .binary (by cases c <;> decide) (.column column)
    (hderives.mono (Nat.succ_le_succ c.sign.level_le))⟩

theorem spells_call {f s : String} {t : Term} {level : ℕ} (hf : IsWord f)
    (h : Spells (.term 1 t) s) : Spells (.term level (.call f [t])) (f ++ "(" ++ s ++ ")") :=
  h.last.call hf

theorem isWord_isValid : IsWord "isValid" := ⟨⟨'i', _, rfl, by decide⟩, rfl⟩

theorem isWord_isFinite : IsWord "isFinite" := ⟨⟨'i', _, rfl, by decide⟩, rfl⟩

theorem isWord_inrange : IsWord "inrange" := ⟨⟨'i', _, rfl, by decide⟩, rfl⟩

theorem isWord_indexof : IsWord "indexof" := ⟨⟨'i', _, rfl, by decide⟩, rfl⟩

theorem opens_datum (column : String) : Opens (Expression.datum column) :=
  ((Opens.append ⟨'d', _, rfl, by decide⟩ "[").append _).append "]"

theorem spells_validity (column : String) (valid : Bool) :
    Spells (.term 1 (FieldTest.term ⟨column, .validity valid⟩))
      (Expression.validity (Expression.datum column) valid) := by
  have hvalid (level : ℕ) : Spells (.term level (.call "isValid" [.column column]))
      ("isValid" ++ "(" ++ Expression.datum column ++ ")") :=
    spells_call isWord_isValid (spells_column column)
  have hfinite (level : ℕ) : Spells
      (.term level (.call "isFinite" [.signed .plus (.column column)]))
      ("isFinite" ++ "(" ++ ("+" ++ Expression.datum column) ++ ")") :=
    spells_call isWord_isFinite ((spells_column column).plus (opens_datum column))
  have hopens {f : String} (hf : IsWord f) (s : String) : Opens (f ++ "(" ++ s ++ ")") :=
    ((hf.opens.append _).append s).append _
  cases valid with
  | true =>
      have htext : Expression.validity (Expression.datum column) true =
          "isValid" ++ "(" ++ Expression.datum column ++ ")" ++
            (Infix.operator .and).text ++
              ("isFinite" ++ "(" ++ ("+" ++ Expression.datum column) ++ ")") := by
        simp [Expression.validity, Expression.isFinite, Infix.text, Expression.Operator.text,
          ← String.toList_inj]
      rw [htext]
      exact (hvalid _).binary _ (by decide) (hfinite _)
  | false =>
      have htext : Expression.validity (Expression.datum column) false =
          "!" ++ ("isValid" ++ "(" ++ Expression.datum column ++ ")") ++
            (Infix.operator .or).text ++
              ("!" ++ ("isFinite" ++ "(" ++ ("+" ++ Expression.datum column) ++ ")")) := by
        simp [Expression.validity, Expression.isNotFinite, Infix.text, Expression.Operator.text,
          ← String.toList_inj]
      rw [htext]
      exact ((hvalid 11).not (hopens isWord_isValid _)).binary _ (by decide)
        ((hfinite 11).not (hopens isWord_isFinite _))

theorem spells_inrange (column : String) {s s' : String} {t t' : Term}
    (h : Spells (.term 1 t) s) (h' : Spells (.term 1 t') s') :
    Spells (.term 1 (.call "inrange" [.column column, .list [t, t']]))
      ("inrange(" ++ Expression.datum column ++ ", [" ++ s ++ ", " ++ s' ++ "])") := by
  have hbounds : Spells (.items [.list [t, t']]) ("[" ++ (s ++ ", " ++ s') ++ "]") :=
    (h.more h'.last).list.last
  have htext : "inrange(" ++ Expression.datum column ++ ", [" ++ s ++ ", " ++ s' ++ "])" =
      "inrange" ++ "(" ++ (Expression.datum column ++ ", " ++ ("[" ++ (s ++ ", " ++ s') ++ "]")) ++
        ")" := by
    simp [← String.toList_inj]
  rw [htext]
  exact ((spells_column column).more hbounds).call isWord_inrange

theorem spells_range (column : String) (lower upper : Constant) {bounds : Value}
    (hbounds : bounds.elements = .ok [lower.value, upper.value]) :
    ∃ s, rangeText (Expression.datum column) bounds = .ok s ∧
      Spells (.term 1 (FieldTest.term ⟨column, .within lower upper⟩)) s := by
  obtain ⟨s, hs, -, hlower⟩ := literal_value lower
  obtain ⟨s', hs', -, hupper⟩ := literal_value upper
  rw [rangeText, hbounds, ok_bind]
  cases lower with
  | null =>
      cases upper with
      | null => exact ⟨"true", rfl, spells_name isWord_true⟩
      | _ =>
          refine ⟨_, ?_, (spells_column column).binary (.operator .atMost) (by decide)
            (hupper.mono (by decide))⟩
          show (do pure (_ ++ (← Expression.literal _))) = _
          rw [hs']
          rfl
  | _ =>
      cases upper with
      | null =>
          refine ⟨_, ?_, (spells_column column).binary (.operator .atLeast) (by decide)
            (hlower.mono (by decide))⟩
          show (do pure (_ ++ (← Expression.literal _))) = _
          rw [hs]
          rfl
      | _ =>
          refine ⟨_, ?_, spells_inrange column (hlower.mono (by decide)) (hupper.mono (by decide))⟩
          show (do
            let lower ← Expression.literal _
            let upper ← Expression.literal _
            pure ("inrange(" ++ _ ++ ", [" ++ lower ++ ", " ++ upper ++ "])")) = _
          rw [hs, ok_bind, hs']
          rfl

theorem spells_choice (column : String) (constants : List Constant) {choices : Value}
    (hitems : choiceItems choices = .ok (Constant.values constants)) :
    ∃ s, choiceText (Expression.datum column) choices = .ok s ∧
      Spells (.term 1 (FieldTest.term ⟨column, .among constants⟩)) s := by
  obtain ⟨ss, hliterals, hspells⟩ := literals_values constants
  have hlist : Expression.literal (.list (Constant.values constants)) =
      .ok ("[" ++ ", ".intercalate ss ++ "]") := by
    rw [Expression.literal, hliterals]
    rfl
  refine ⟨"indexof(" ++ ("[" ++ ", ".intercalate ss ++ "]") ++ ", " ++
    Expression.datum column ++ ") !== -1", ?_, ?_⟩
  · rw [choiceText, hitems, ok_bind, hlist]
    rfl
  · have hitems : Spells (.items [.list (Constant.terms constants), .column column])
        ("[" ++ ", ".intercalate ss ++ "]" ++ ", " ++ Expression.datum column) :=
      (spells_items hspells).list.more (spells_column column).last
    have hminus : Spells (.term 6 (.signed .minus (.number ⟨1, 0⟩))) "-1" :=
      ⟨_, cuts_minus 1, .signed .minus (.number _)⟩
    have htext : "indexof(" ++ ("[" ++ ", ".intercalate ss ++ "]") ++ ", " ++
        Expression.datum column ++ ") !== -1" =
        "indexof" ++ "(" ++ ("[" ++ ", ".intercalate ss ++ "]" ++ ", " ++
          Expression.datum column) ++ ")" ++ Infix.notEqual.text ++ "-1" := by
      simp [Infix.text, ← String.toList_inj]
    rw [htext]
    exact (hitems.call isWord_indexof).binary .notEqual (by decide) hminus

theorem spells_field (h : IsField members test) :
    ∃ s, fieldText members = .ok s ∧ Spells (.term 1 test.term) s := by
  obtain ⟨v, hget, hpath⟩ := h.path
  have hrequire : members.require "field" = .ok v := by rw [Record.require, hget]; rfl
  have hcolumn : Expression.field v.shown "datum" = .ok (Expression.datum test.column) := by
    rw [Expression.field, hpath]
    rfl
  obtain ⟨column, check⟩ := test
  rw [fieldText, h.timeUnit, if_neg Bool.false_ne_true, hrequire, ok_bind, hcolumn]
  simp only [ok_bind]
  cases h.check with
  | compare c constant hkey hvalue =>
      obtain ⟨s, hs, hopens, hspells⟩ := literal_value constant
      refine ⟨_, ?_, spells_compare column c hopens hspells⟩
      rw [hkey]
      dsimp only
      rw [hvalue, hs]
      rfl
  | within lower upper hcompared hkey hbounds =>
      rw [hcompared, hkey, if_pos rfl]
      exact spells_range column lower upper hbounds
  | among constants hcompared hranged hitems =>
      have hchosen : (choices members).isNull = false := by
        cases hnull : choices members with
        | null =>
            rw [hnull] at hitems
            cases hitems
        | _ => rfl
      rw [hcompared, hranged, if_neg Bool.false_ne_true, hchosen, if_neg Bool.false_ne_true]
      exact spells_choice column constants hitems
  | validity hcompared hranged hchosen hkey =>
      rw [hcompared, hranged, if_neg Bool.false_ne_true, hchosen, if_pos rfl, hkey, if_pos rfl]
      exact ⟨_, rfl, spells_validity column _⟩

end Fields

section Combinations

variable {members : Record Value} {key : String} {v : Value} {c : Connective} {s : String}
  {ss : List String} {f : Formula} {fs : List Formula}

def operandTexts (v : Value) : Except Fault (List String) := texts v.itemsOrSelf

theorem operands_cons (key k : String) (v : Value) (rest : Record Value) :
    operands key ((k, v) :: rest) =
      if k == key then some (operandTexts v) else operands key rest := by
  cases v <;> rw [operands] <;> simp [operandTexts, Value.itemsOrSelf, texts]

theorem operands_eq (key : String) (members : Record Value) :
    operands key members = (Record.get? members key).map operandTexts := by
  induction members with
  | nil => rfl
  | cons m rest ih =>
      rw [operands_cons, Record.get?_cons, ih]
      simp only [beq_iff_eq, eq_comm (a := key)]
      split <;> rfl

theorem operand_eq (key : String) (members : Record Value) :
    operand key members = (Record.get? members key).map text := by
  induction members with
  | nil => rfl
  | cons m rest ih =>
      rw [operand, Record.get?_cons, ih]
      simp only [beq_iff_eq, eq_comm (a := key)]
      split <;> rfl

theorem get?_of_has_eq_false (h : members.has key = false) : members.get? key = none := by
  rwa [Record.has_eq_isSome, Option.isSome_eq_false_iff, Option.isNone_iff_eq_none] at h

theorem text_object (members : Record Value) : text (.object members) =
    match members.get? "and" with
    | some v => joined " && " <$> operandTexts v
    | none =>
        match members.get? "or" with
        | some v => joined " || " <$> operandTexts v
        | none =>
            match members.get? "not" with
            | some v => (fun s ↦ "!(" ++ s ++ ")") <$> text v
            | none =>
                if members.has "field" then fieldText members
                else throw (.spec (.predicate (.object members))) := by
  rw [text, operands_eq, operands_eq, operand_eq]
  cases members.get? "and" with
  | some v => exact bind_pure_comp _ _
  | none =>
      cases members.get? "or" with
      | some v => exact bind_pure_comp _ _
      | none =>
          cases members.get? "not" with
          | some v => exact bind_pure_comp _ _
          | none => rfl

theorem text_field (hcomposed : ∀ key ∈ compositions, members.has key = false)
    (hfield : members.has "field" = true) : text (.object members) = fieldText members := by
  have hnone (key : String) (hkey : key ∈ compositions) : members.get? key = none :=
    get?_of_has_eq_false (hcomposed key hkey)
  rw [text_object, hnone "and" (by decide), hnone "or" (by decide), hnone "not" (by decide)]
  exact if_pos hfield

theorem text_joined (h : Composes members c.key v) :
    text (.object members) = joined c.sign.text <$> operandTexts v := by
  have hget := h.get?
  rw [text_object]
  cases c with
  | and =>
      rw [Connective.key] at hget
      rw [hget]
      rfl
  | or =>
      rw [Connective.key] at hget
      rw [get?_of_has_eq_false (h.before "and" (by decide)), hget]
      rfl

theorem text_negation (h : Composes members "not" v) :
    text (.object members) = (fun s ↦ "!(" ++ s ++ ")") <$> text v := by
  rw [text_object, get?_of_has_eq_false (h.before "and" (by decide)),
    get?_of_has_eq_false (h.before "or" (by decide)), h.get?]

theorem intercalate_eq_foldl (operator s : String) (ss : List String) :
    operator.intercalate (s :: ss) = ss.foldl (fun text s ↦ text ++ operator ++ s) s := by
  induction ss generalizing s with
  | nil => exact String.intercalate_singleton
  | cons s' ss ih =>
      rw [List.foldl_cons, ← ih]
      cases ss <;> simp [String.append_assoc]

/-- Operands between parentheses are taken in one after the other. -/
theorem spells_foldl (h : Spells (.term c.sign.level f.term) s)
    (hs : List.Forall₂ (fun s f ↦ Spells (.term 1 (Formula.term f)) s) ss fs) :
    Spells (.term c.sign.level (fs.foldl (.joined c) f).term)
      ((ss.map fun s ↦ "(" ++ s ++ ")").foldl (fun text s ↦ text ++ c.sign.text ++ s) s) := by
  induction hs generalizing f s with
  | nil => exact h
  | cons hfirst _ ih => exact ih (h.binary c.sign le_rfl hfirst.brackets)

theorem spells_joined (c : Connective)
    (hs : List.Forall₂ (fun s f ↦ Spells (.term 1 (Formula.term f)) s) (s :: ss) (f :: fs)) :
    Spells (.term 1 (fs.foldl (.joined c) f).term) (joined c.sign.text (s :: ss)) := by
  obtain ⟨hfirst, hrest⟩ := List.forall₂_cons.1 hs
  rw [joined, List.map_cons, intercalate_eq_foldl]
  exact (spells_foldl hfirst.brackets hrest).mono (by cases c <;> decide)

mutual

/-- A predicate is written as an expression that combines its tests in the same way. -/
theorem Denotes.spells : ∀ {v : Value} {t : Test}, Denotes v t →
    ∃ s, text v = .ok s ∧ Spells (.term 1 t.formula.term) s
  | _, _, @Denotes.field members _ h => by
      obtain ⟨s, hs, hspells⟩ := spells_field h
      obtain ⟨v, hget, -⟩ := h.path
      have hfield : members.has "field" = true := by rw [Record.has_eq_isSome, hget]; rfl
      exact ⟨s, (text_field h.composed hfield).trans hs, hspells⟩
  | _, _, .joined hkey h => by
      obtain ⟨ss, hss, hspells⟩ := h.spells
      rw [text_joined hkey, operandTexts, hss]
      cases hspells with
      | cons hfirst hrest =>
          refine ⟨_, rfl, ?_⟩
          rw [Test.formula]
          exact spells_joined _ (.cons hfirst hrest)
  | _, _, .negation hkey h => by
      obtain ⟨s, hs, hspells⟩ := h.spells
      refine ⟨"!" ++ ("(" ++ s ++ ")"), ?_, ?_⟩
      · rw [text_negation hkey, hs]
        simp [← String.toList_inj]
      · exact hspells.brackets.not ((Opens.append ⟨'(', _, rfl, by decide⟩ _).append _)

theorem DenoteAll.spells : ∀ {vs : List Value} {ts : List Test}, DenoteAll vs ts →
    ∃ ss, texts vs = .ok ss ∧
      List.Forall₂ (fun s f ↦ Spells (.term 1 (Formula.term f)) s) ss (Test.formulas ts)
  | _, _, .nil => ⟨[], rfl, .nil⟩
  | _, _, .cons h hs => by
      obtain ⟨s, hs', hspells⟩ := h.spells
      obtain ⟨ss, hss, hrest⟩ := hs.spells
      refine ⟨s :: ss, ?_, .cons hspells hrest⟩
      rw [texts, hs', ok_bind, hss]
      rfl

end

/-- The text of a predicate is read as a combination of what the texts of its tests are read as, and
is true just if the predicate is, whatever is true of the tests. The text of a single test is read
as what stands for it. -/
theorem text_keeps_logic {v : Value} {t : Test} (h : Denotes v t) :
    ∃ s, text v = .ok s ∧ read? s = some t.formula.term ∧
      (∀ given : FieldTest → Bool, t.formula.holds given = t.holds given) ∧
      ∀ given : Term → Bool,
        t.formula.term.holds given = t.holds fun test ↦ test.term.holds given := by
  obtain ⟨s, hs, hspells⟩ := h.spells
  refine ⟨s, hs, hspells.read?_eq, fun given ↦ Test.holds_formula given t, fun given ↦ ?_⟩
  rw [Formula.holds_term, Test.holds_formula]

/-- A test that is written with an operator outside of parentheses, on a column with more of them in
its name. -/
def unlikely : Record Value := [("valid", .bool false), ("field", .text "a) || !(b")]

def upTo : Record Value := [("field", .text "x"), ("range", .list [.null, .int (-3)])]

/-- A choice whose constants have quotes and parentheses in them. -/
def chosen : Record Value :=
  [("oneOf", .list [.text "\") && (\"", .list [], .bool true]), ("field", .text "x")]

def named : Record Value := [("field", .text "y"), ("equal", .text " === ")]

/-- A predicate with all of these, and with an operand by itself. -/
def nested : Value :=
  .object [("and", .list [.object [("not", .object unlikely)],
    .object [("or", .list [.object upTo, .object chosen])], .object [("or", .object named)]])]

def unlikelyTest : FieldTest := ⟨"a) || !(b", .validity false⟩

def upToTest : FieldTest := ⟨"x", .within .null (.int (-3))⟩

def chosenTest : FieldTest := ⟨"x", .among [.text "\") && (\"", .list [], .bool true]⟩

def namedTest : FieldTest := ⟨"y", .compare .equal (.text " === ")⟩

def nestedTest : Test :=
  .joined .and (.negation (.field unlikelyTest))
    [.joined .or (.field upToTest) [.field chosenTest], .joined .or (.field namedTest) []]

theorem text_keeps_logic_nested : Denotes nested nestedTest ∧
    ∃ s, text nested = .ok s ∧ read? s = some nestedTest.formula.term ∧
      (∀ given : FieldTest → Bool, nestedTest.formula.holds given = nestedTest.holds given) ∧
      ∀ given : Term → Bool, nestedTest.formula.term.holds given =
        nestedTest.holds fun test ↦ test.term.holds given := by
  have hunlikely : IsField unlikely unlikelyTest :=
    ⟨by decide, by decide, ⟨_, rfl, by decide +kernel⟩,
      .validity (by decide) (by decide) (by decide) (by decide)⟩
  have hupTo : IsField upTo upToTest :=
    ⟨by decide, by decide, ⟨_, rfl, by decide +kernel⟩, .within _ _ (by decide) (by decide) rfl⟩
  have hchosen : IsField chosen chosenTest :=
    ⟨by decide, by decide, ⟨_, rfl, by decide +kernel⟩, .among _ (by decide) (by decide) rfl⟩
  have hnamed : IsField named namedTest :=
    ⟨by decide, by decide, ⟨_, rfl, by decide +kernel⟩, .compare _ _ rfl rfl⟩
  have hnot : Denotes (.object [("not", .object unlikely)]) (.negation (.field unlikelyTest)) :=
    .negation ⟨by decide, rfl⟩ (.field hunlikely)
  have hor : Denotes (.object [("or", .list [.object upTo, .object chosen])])
      (.joined .or (.field upToTest) [.field chosenTest]) :=
    .joined ⟨by decide, rfl⟩ (.cons (.field hupTo) (.cons (.field hchosen) .nil))
  have hsingle : Denotes (.object [("or", .object named)]) (.joined .or (.field namedTest) []) :=
    .joined ⟨by decide, rfl⟩ (.cons (.field hnamed) .nil)
  have hall : Denotes nested nestedTest :=
    .joined ⟨by decide, rfl⟩ (.cons hnot (.cons hor (.cons hsingle .nil)))
  exact ⟨hall, text_keeps_logic hall⟩

example : text nested = .ok
    ("(!(!isValid(datum[\"a) || !(b\"]) || !isFinite(+datum[\"a) || !(b\"])))" ++
    " && ((datum[\"x\"] <= -3)" ++
    " || (indexof([\"\\\") && (\\\"\", [], true], datum[\"x\"]) !== -1))" ++
    " && ((datum[\"y\"]===\" === \"))") := by
  decide +kernel

end Combinations

end ChartLowering.Predicate
