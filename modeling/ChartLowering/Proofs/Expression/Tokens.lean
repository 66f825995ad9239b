import ChartLowering.Proofs.Expression.Grammar
import ChartLowering.Proofs.Json.Literal
import ChartLowering.Proofs.Number.Numeral

/-!
# Texts that spell trees

The pieces that expressions are put together from are cut into the same tokens whatever stands after
them. So a text spells a tree if its pieces do, and is read as the tree that it spells.
-/

namespace ChartLowering.Expression

/-- An operator between blanks. -/
def Operator.text : Operator → String
  | or => " || "
  | and => " && "
  | less => " < "
  | greater => " > "
  | atMost => " <= "
  | atLeast => " >= "
  | plus => " + "
  | minus => " - "
  | times => " * "

section Cutting

/-- A text is cut into these tokens, whatever stands after it. -/
def Cuts (s : String) (ts : List Token) : Prop :=
  ∀ rest, tokens? (s.toList ++ rest) = (tokens? rest).map (ts ++ ·)

variable {s s' : String} {ts ts' : List Token}

theorem tokens?_nil : tokens? [] = some [] := by
  rw [tokens?]
  rfl

theorem Cuts.tokens?_eq (h : Cuts s ts) : tokens? s.toList = some ts := by
  have hend := h []
  rwa [tokens?_nil, List.append_nil, Option.map_some, List.append_nil] at hend

theorem Cuts.append (h : Cuts s ts) (h' : Cuts s' ts') : Cuts (s ++ s') (ts ++ ts') := by
  intro rest
  rw [String.toList_append, List.append_assoc, h, h', Option.map_map]
  congr 1
  funext us
  exact (List.append_assoc ts ts' us).symm

theorem tokens?_blank (cs : List Char) : tokens? (' ' :: cs) = tokens? cs := by
  have hskip : Json.skipBlank (' ' :: cs) = Json.skipBlank cs := rfl
  rw [tokens?, tokens?, hskip]

/-- A token at the very beginning. -/
theorem tokens?_of_token (c : Char) (cs : List Char) {rest : List Char} {t : Token}
    (hstart : Json.skipBlank (c :: cs) = c :: cs) (h : token? (c :: cs) = some (t, rest))
    (hshorter : rest.length ≤ cs.length) :
    tokens? (c :: cs) = (tokens? rest).map (t :: ·) := by
  have hlt : rest.length < (c :: cs).length := Nat.lt_succ_of_le hshorter
  rw [tokens?, hstart, if_neg (List.cons_ne_nil _ _)]
  simp only [h, if_pos hlt]

theorem cuts_opening : Cuts "(" [.opening] := fun rest ↦
  tokens?_of_token _ rest rfl rfl le_rfl

theorem cuts_closing : Cuts ")" [.closing] := fun rest ↦
  tokens?_of_token _ rest rfl rfl le_rfl

theorem cuts_operator (o : Operator) : Cuts o.text [.operator o] := by
  intro rest
  -- An operator of two characters takes both, and one of a single character the blank after it.
  have hstep (c : Char) (cs : List Char)
      (htoken : token? (c :: cs) = some (.operator o, ' ' :: rest))
      (hstart : Json.skipBlank (c :: cs) = c :: cs) (hshorter : rest.length + 1 ≤ cs.length) :
      tokens? (' ' :: c :: cs) = (tokens? rest).map ([.operator o] ++ ·) := by
    rw [tokens?_blank, tokens?_of_token _ _ hstart htoken hshorter, tokens?_blank]
    rfl
  cases o with
  | or => exact hstep '|' ('|' :: ' ' :: rest) rfl rfl (Nat.le_succ _)
  | and => exact hstep '&' ('&' :: ' ' :: rest) rfl rfl (Nat.le_succ _)
  | less => exact hstep '<' (' ' :: rest) rfl rfl le_rfl
  | greater => exact hstep '>' (' ' :: rest) rfl rfl le_rfl
  | atMost => exact hstep '<' ('=' :: ' ' :: rest) rfl rfl (Nat.le_succ _)
  | atLeast => exact hstep '>' ('=' :: ' ' :: rest) rfl rfl (Nat.le_succ _)
  | plus => exact hstep '+' (' ' :: rest) rfl rfl le_rfl
  | minus => exact hstep '-' (' ' :: rest) rfl rfl le_rfl
  | times => exact hstep '*' (' ' :: rest) rfl rfl le_rfl

/-- The blank in front of an operator ends a numeral. -/
theorem IsNumeral.cuts {cs : List Char} {d : Decimal} (h : IsNumeral cs d) (o : Operator) :
    Cuts (String.ofList cs ++ o.text) [.number d, .operator o] := by
  intro rest
  obtain ⟨c, others, rfl, hc⟩ := h.head
  obtain ⟨tail, htail⟩ : ∃ tail, o.text.toList = ' ' :: tail := by cases o <;> exact ⟨_, rfl⟩
  have hread := h.reads (tail ++ rest)
  have hquote : c ≠ '"' := by
    rintro rfl
    exact absurd hc (by decide)
  have htoken : token? (c :: (others ++ ' ' :: (tail ++ rest))) =
      some (.number d, ' ' :: (tail ++ rest)) := by
    rw [token?, if_neg hquote, if_pos hc, ← List.cons_append, hread]
    rfl
  have hstart : Json.skipBlank (c :: (others ++ ' ' :: (tail ++ rest))) =
      c :: (others ++ ' ' :: (tail ++ rest)) := by
    apply List.dropWhile_cons_of_neg
    -- No blank is a digit.
    simp only [Bool.or_eq_true, beq_iff_eq]
    rintro (((rfl | rfl) | rfl) | rfl) <;> exact absurd hc (by decide)
  have hshorter : (' ' :: (tail ++ rest)).length ≤ (others ++ ' ' :: (tail ++ rest)).length := by
    rw [List.length_append]
    omega
  have hoperator := cuts_operator o rest
  rw [htail] at hoperator
  rw [String.toList_append, String.toList_ofList, htail, List.append_assoc]
  show tokens? (c :: (others ++ ' ' :: (tail ++ rest))) = _
  rw [tokens?_of_token _ _ hstart htoken hshorter]
  rw [List.cons_append] at hoperator
  rw [hoperator, Option.map_map]
  rfl

/-- A minus sign is an operator of its own in front of a digit. -/
theorem tokens?_minus {c : Char} (hc : c.isDigit = true) (cs : List Char) :
    tokens? ('-' :: c :: cs) = (tokens? (c :: cs)).map (.operator .minus :: ·) := by
  have hsymbol : symbol? ('-' :: c :: cs) = some (.operator .minus, c :: cs) := by
    rw [symbol?]
    intro other h
    rw [(List.cons.inj h).1] at hc
    exact absurd hc (by decide)
  exact tokens?_of_token _ _ rfl hsymbol le_rfl

theorem IsNumeral.cuts_signed {cs : List Char} {d : Decimal} (h : IsNumeral cs d) (negative : Bool)
    (o : Operator) : Cuts (Binary64.signText negative ++ String.ofList cs ++ o.text)
      ((if negative then [.operator .minus] else []) ++ [.number d, .operator o]) := by
  have hcuts := h.cuts o
  cases negative with
  | false =>
      have htext : Binary64.signText false ++ String.ofList cs ++ o.text =
          String.ofList cs ++ o.text := congrArg (· ++ o.text) String.empty_append
      exact htext ▸ hcuts
  | true =>
      intro rest
      obtain ⟨c, others, rfl, hc⟩ := h.head
      have hrest := hcuts rest
      rw [String.toList_append, String.toList_ofList] at hrest
      rw [String.append_assoc, String.toList_append, String.toList_append, String.toList_ofList]
      refine (tokens?_minus hc (others ++ o.text.toList ++ rest)).trans ?_
      have hsame : c :: (others ++ o.text.toList ++ rest) =
          c :: others ++ o.text.toList ++ rest := rfl
      rw [hsame, hrest, Option.map_map]
      rfl

theorem cuts_datum : Cuts "datum[" [.word "datum", .openBracket] := by
  intro rest
  have hword : token? ('d' :: 'a' :: 't' :: 'u' :: 'm' :: '[' :: rest) =
      some (.word "datum", '[' :: rest) := rfl
  show tokens? ('d' :: 'a' :: 't' :: 'u' :: 'm' :: '[' :: rest) = _
  rw [tokens?_of_token _ _ rfl hword (by simp), tokens?_of_token _ rest rfl rfl le_rfl,
    Option.map_map]
  rfl

theorem cuts_closeBracket : Cuts "]" [.closeBracket] := fun rest ↦
  tokens?_of_token _ rest rfl rfl le_rfl

theorem token?_stringLiteral (s : String) (rest : List Char) :
    token? ((Text.stringLiteral s).toList ++ rest) = some (.text s, rest) := by
  rw [Json.toList_stringLiteral, List.cons_append, List.cons_append, List.append_assoc, token?,
    if_pos rfl]
  show (Json.readString (s.toList.flatMap Text.literalChar ++ '"' :: rest)).map _ = _
  rw [Json.readString_literal, Option.map_some]
  simp only [String.ofList_toList]

theorem cuts_stringLiteral (s : String) : Cuts (Text.stringLiteral s) [.text s] := by
  intro rest
  have htoken := token?_stringLiteral s rest
  have hshorter : rest.length ≤ (s.toList.flatMap Text.literalChar ++ '"' :: rest).length := by
    simp only [List.length_append, List.length_cons]
    omega
  rw [Json.toList_stringLiteral, List.cons_append, List.cons_append, List.append_assoc] at htoken ⊢
  exact tokens?_of_token _ _ rfl htoken hshorter

/-- Whatever the name of a column, the access to it is cut into four tokens. -/
theorem cuts_access (name : String) : Cuts (access name "datum")
    [.word "datum", .openBracket, .text name, .closeBracket] :=
  (cuts_datum.append (cuts_stringLiteral name)).append cuts_closeBracket

end Cutting

section Spelling

/-- A text whose tokens are derived as a tree. -/
def Spells (level : Nat) (s : String) (t : Tree) : Prop :=
  ∃ ts, Cuts s ts ∧ Derives level ts t

variable {level : Nat} {s s' : String} {t l r : Tree}

theorem Spells.mono {least : Nat} (h : Spells level s t) (hle : least ≤ level) :
    Spells least s t := by
  obtain ⟨ts, hcuts, hderives⟩ := h
  exact ⟨ts, hcuts, hderives.mono hle⟩

theorem Spells.read?_eq (h : Spells 1 s t) : read? s = some t := by
  obtain ⟨ts, hcuts, hderives⟩ := h
  rw [read?, hcuts.tokens?_eq, Option.bind_some, hderives.expression_eq]

theorem spells_column (name : String) : Spells level (access name "datum") (.column name) :=
  ⟨_, cuts_access name, .column name⟩

theorem Spells.brackets (h : Spells 1 s t) : Spells level ("(" ++ s ++ ")") t := by
  obtain ⟨ts, hcuts, hderives⟩ := h
  exact ⟨_, (cuts_opening.append hcuts).append cuts_closing, .brackets hderives⟩

theorem Spells.binary (o : Operator) (ho : level ≤ o.precedence) (hl : Spells o.precedence s l)
    (hr : Spells (o.precedence + 1) s' r) : Spells level (s ++ o.text ++ s') (.binary o l r) := by
  obtain ⟨ls, hcutsl, hl⟩ := hl
  obtain ⟨rs, hcutsr, hr⟩ := hr
  have hcuts := (hcutsl.append (cuts_operator o)).append hcutsr
  rw [List.append_assoc] at hcuts
  exact ⟨_, hcuts, .binary ho hl hr⟩

/-- The tree of a number after its sign. -/
def signedTree (negative : Bool) (d : Decimal) : Tree :=
  if negative then .negate (.number d) else .number d

theorem derives_signedTree (negative : Bool) (d : Decimal) :
    Derives level ((if negative then [.operator .minus] else []) ++ [.number d])
      (signedTree negative d) := by
  cases negative with
  | false => exact .number d
  | true => exact .negate (.number d)

/-- A number in front of an operator. -/
theorem IsNumeral.spells {cs : List Char} {d : Decimal} (h : IsNumeral cs d) (negative : Bool)
    (o : Operator) (ho : level ≤ o.precedence) (hr : Spells (o.precedence + 1) s r) :
    Spells level (Binary64.signText negative ++ String.ofList cs ++ o.text ++ s)
      (.binary o (signedTree negative d) r) := by
  obtain ⟨rs, hcuts, hr⟩ := hr
  refine ⟨_, ?_, .binary ho (derives_signedTree negative d) hr⟩
  have hall := (h.cuts_signed negative o).append hcuts
  simpa using hall

end Spelling

end ChartLowering.Expression
