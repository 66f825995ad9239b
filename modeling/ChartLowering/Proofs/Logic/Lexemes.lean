import ChartLowering.Proofs.Expression.Tokens
import ChartLowering.Proofs.Logic.Grammar

/-!
# Texts that spell terms

How a piece of a test is cut depends on what stands after it: a word or a numeral has to end, and a
sign must not be the beginning of a longer one. A text spells a phrase if it is cut into lexemes
that derive the phrase, and is read as the term that it spells.
-/

namespace ChartLowering.Logic

open Expression (Token Operator)

section Cutting

/-- A text is cut into these lexemes, if what stands after it is as it should be. -/
def Cuts (next : List Char → Prop) (s : String) (ls : List Lexeme) : Prop :=
  ∀ rest, next rest → lexemes? (s.toList ++ rest) = (lexemes? rest).map (ls ++ ·)

def Anything : List Char → Prop := fun _ ↦ True

/-- What ends a word and a numeral. -/
def Bounded (rest : List Char) : Prop := ∀ c ∈ rest.head?, c ∈ [')', ']', ',', ' ']

/-- What makes no sign longer than it is. -/
def Fresh (rest : List Char) : Prop := ∀ c ∈ rest.head?, c ∉ ['=', '<', '>', '+']

variable {next next' : List Char → Prop} {s s' : String} {ls ls' : List Lexeme}

theorem lexemes?_nil : lexemes? [] = some [] := by
  rw [lexemes?]
  rfl

theorem Cuts.lexemes?_eq (h : Cuts Bounded s ls) : lexemes? s.toList = some ls := by
  have hend := h [] (by simp [Bounded])
  rwa [lexemes?_nil, List.append_nil, Option.map_some, List.append_nil] at hend

theorem Cuts.append (h : Cuts next s ls) (h' : Cuts next' s' ls')
    (hnext : ∀ rest, next' rest → next (s'.toList ++ rest)) : Cuts next' (s ++ s') (ls ++ ls') := by
  intro rest hrest
  rw [String.toList_append, List.append_assoc, h _ (hnext rest hrest), h' rest hrest,
    Option.map_map]
  congr 1
  funext ms
  exact (List.append_assoc ls ls' ms).symm

theorem Cuts.then (h : Cuts Anything s ls) (h' : Cuts next s' ls') :
    Cuts next (s ++ s') (ls ++ ls') :=
  h.append h' fun _ _ ↦ trivial

theorem Cuts.weaken (h : Cuts next s ls) (hnext : ∀ rest, next' rest → next rest) :
    Cuts next' s ls := fun rest hrest ↦ h rest (hnext rest hrest)

theorem lexemes?_blank (cs : List Char) : lexemes? (' ' :: cs) = lexemes? cs := by
  have hskip : Json.skipBlank (' ' :: cs) = Json.skipBlank cs := rfl
  rw [lexemes?, lexemes?, hskip]

theorem lexemes?_of_lexeme (c : Char) (cs : List Char) {rest : List Char} {l : Lexeme}
    (hstart : Json.skipBlank (c :: cs) = c :: cs) (h : lexeme? (c :: cs) = some (l, rest))
    (hshorter : rest.length ≤ cs.length) :
    lexemes? (c :: cs) = (lexemes? rest).map (l :: ·) := by
  have hlt : rest.length < (c :: cs).length := Nat.lt_succ_of_le hshorter
  rw [lexemes?, hstart, if_neg (List.cons_ne_nil _ _)]
  simp only [h, if_pos hlt]

/-- The characters with which no token of arithmetic begins, blanks among them. -/
def marks : List Char := ['=', '!', ',', ' ', '\t', '\n', '\r']

theorem lexemes?_of_token {c : Char} {cs rest : List Char} {t : Token} (hc : c ∉ marks)
    (h : Expression.token? (c :: cs) = some (t, rest)) (hshorter : rest.length ≤ cs.length) :
    lexemes? (c :: cs) = (lexemes? rest).map (.token t :: ·) := by
  simp only [marks, List.mem_cons, List.not_mem_nil, or_false, not_or] at hc
  have hstart : Json.skipBlank (c :: cs) = c :: cs := by
    apply List.dropWhile_cons_of_neg
    simp [hc]
  have hlexeme : lexeme? (c :: cs) = some (.token t, rest) := by
    rw [lexeme?.eq_def]
    split
    · exact (hc.1 (List.cons.inj ‹_›).1).elim
    · exact (hc.2.1 (List.cons.inj ‹_›).1).elim
    · exact (hc.2.1 (List.cons.inj ‹_›).1).elim
    · exact (hc.2.1 (List.cons.inj ‹_›).1).elim
    · exact (hc.2.2.1 (List.cons.inj ‹_›).1).elim
    · rw [h]
      rfl
  exact lexemes?_of_lexeme c cs hstart hlexeme hshorter

theorem cuts_opening : Cuts Anything "(" [.token .opening] := fun _ _ ↦
  lexemes?_of_token (by decide) rfl le_rfl

theorem cuts_closing : Cuts Anything ")" [.token .closing] := fun _ _ ↦
  lexemes?_of_token (by decide) rfl le_rfl

theorem cuts_openBracket : Cuts Anything "[" [.token .openBracket] := fun _ _ ↦
  lexemes?_of_token (by decide) rfl le_rfl

theorem cuts_closeBracket : Cuts Anything "]" [.token .closeBracket] := fun _ _ ↦
  lexemes?_of_token (by decide) rfl le_rfl

theorem cuts_comma : Cuts Anything ", " [.comma] := by
  intro rest _
  show lexemes? (',' :: ' ' :: rest) = _
  rw [lexemes?_of_lexeme ',' (' ' :: rest) rfl rfl le_rfl, lexemes?_blank]
  rfl

def Infix.text : Infix → String
  | operator o => o.text
  | equal => " === "
  | notEqual => " !== "

theorem cuts_between (o : Infix) : Cuts Anything o.text [o.lexeme] := by
  intro rest _
  have hstep (c : Char) (cs : List Char)
      (hlexeme : lexeme? (c :: cs) = some (o.lexeme, ' ' :: rest))
      (hstart : Json.skipBlank (c :: cs) = c :: cs) (hshorter : rest.length + 1 ≤ cs.length) :
      lexemes? (' ' :: c :: cs) = (lexemes? rest).map ([o.lexeme] ++ ·) := by
    rw [lexemes?_blank, lexemes?_of_lexeme _ _ hstart hlexeme hshorter, lexemes?_blank]
    rfl
  cases o with
  | equal => exact hstep '=' ('=' :: '=' :: ' ' :: rest) rfl rfl (by simp)
  | notEqual => exact hstep '!' ('=' :: '=' :: ' ' :: rest) rfl rfl (by simp)
  | operator o =>
      cases o with
      | or => exact hstep '|' ('|' :: ' ' :: rest) rfl rfl (Nat.le_succ _)
      | and => exact hstep '&' ('&' :: ' ' :: rest) rfl rfl (Nat.le_succ _)
      | less => exact hstep '<' (' ' :: rest) rfl rfl le_rfl
      | greater => exact hstep '>' (' ' :: rest) rfl rfl le_rfl
      | atMost => exact hstep '<' ('=' :: ' ' :: rest) rfl rfl (Nat.le_succ _)
      | atLeast => exact hstep '>' ('=' :: ' ' :: rest) rfl rfl (Nat.le_succ _)
      | plus => exact hstep '+' (' ' :: rest) rfl rfl le_rfl
      | minus => exact hstep '-' (' ' :: rest) rfl rfl le_rfl
      | times => exact hstep '*' (' ' :: rest) rfl rfl le_rfl

theorem cuts_not : Cuts Fresh "!" [.not] := by
  intro rest hrest
  have hlexeme : lexeme? ('!' :: rest) = some (.not, rest) := by
    rw [lexeme?]
    · rintro cs rfl
      exact hrest '=' rfl (by decide)
    · rintro cs rfl
      exact hrest '=' rfl (by decide)
  exact lexemes?_of_lexeme _ rest rfl hlexeme le_rfl

theorem cuts_plus : Cuts Fresh "+" [.token (.operator .plus)] := by
  intro rest hrest
  have htoken : Expression.token? ('+' :: rest) = some (.operator .plus, rest) := by
    show Expression.symbol? ('+' :: rest) = _
    rw [Expression.symbol?]
    rintro cs rfl
    exact hrest '+' rfl (by decide)
  exact lexemes?_of_token (by decide) htoken le_rfl

theorem notMem_of_isAlphanum {c : Char} {cs : List Char} (hc : c.isAlphanum = true)
    (hcs : cs.all (fun d ↦ !d.isAlphanum) = true) : c ∉ cs := by
  intro hmem
  have hother := List.all_eq_true.1 hcs c hmem
  rw [hc] at hother
  cases hother

theorem isAlphanum_of_isDigit {c : Char} (hc : c.isDigit = true) : c.isAlphanum = true := by
  rw [Char.isAlphanum, hc, Bool.or_true]

/-- A word has a letter in front, and all others are letters or digits. -/
structure IsWord (s : String) : Prop where
  head : ∃ c cs, s.toList = c :: cs ∧ c.isAlpha = true ∧ c.isDigit = false
  all : s.toList.all Char.isAlphanum = true

theorem cuts_word (h : IsWord s) :
    Cuts (fun rest ↦ ∀ c ∈ rest.head?, c.isAlphanum = false) s [.token (.word s)] := by
  intro rest hrest
  obtain ⟨c, cs, hchars, hletter, hdigit⟩ := h.head
  have hall := h.all
  rw [hchars, List.all_eq_true] at hall
  have hletters := hall c List.mem_cons_self
  have hquote : c ≠ '"' := by
    rintro rfl
    exact absurd hletters (by decide)
  have hends : rest.takeWhile Char.isAlphanum = [] ∧ rest.dropWhile Char.isAlphanum = rest := by
    cases rest with
    | nil => exact ⟨rfl, rfl⟩
    | cons d rest =>
        have hd : ¬ d.isAlphanum = true := by simp [hrest d rfl]
        exact ⟨List.takeWhile_cons_of_neg hd, List.dropWhile_cons_of_neg hd⟩
  have htoken : Expression.token? (c :: (cs ++ rest)) = some (.word s, rest) := by
    rw [Expression.token?, if_neg hquote, hdigit, if_neg Bool.false_ne_true, if_pos hletter,
      ← List.cons_append, List.takeWhile_append_of_pos hall, List.dropWhile_append_of_pos hall,
      hends.1, hends.2, List.append_nil, ← hchars, String.ofList_toList]
  rw [hchars]
  exact lexemes?_of_token (notMem_of_isAlphanum hletters rfl) htoken (by simp)

theorem cuts_function (h : IsWord s) :
    Cuts Anything (s ++ "(") [.token (.word s), .token .opening] := by
  refine (cuts_word h).append cuts_opening fun rest _ c hc ↦ ?_
  obtain rfl := Option.some.inj hc
  rfl

theorem cuts_constant (h : IsWord s) : Cuts Bounded s [.token (.word s)] := by
  refine (cuts_word h).weaken fun rest hrest c hc ↦ ?_
  have hall : [')', ']', ',', ' '].all (fun d ↦ !d.isAlphanum) = true := rfl
  exact Bool.eq_false_of_not_eq_true' (List.all_eq_true.1 hall c (hrest c hc))

theorem cuts_text (text : String) :
    Cuts Anything (Text.stringLiteral text) [.token (.text text)] := by
  intro rest _
  have htoken := Expression.token?_stringLiteral text rest
  rw [Json.toList_stringLiteral, List.cons_append, List.cons_append] at htoken ⊢
  refine lexemes?_of_token (by decide) htoken ?_
  simp only [List.length_append]
  omega

/-- Whatever the name of a column, the access to it is cut into four lexemes. -/
theorem cuts_datum (name : String) : Cuts Anything (Expression.datum name)
    [.token (.word "datum"), .token .openBracket, .token (.text name), .token .closeBracket] := by
  have hword : IsWord "datum" := ⟨⟨'d', _, rfl, by decide⟩, rfl⟩
  have hrow : Cuts Anything ("datum" ++ "[") [.token (.word "datum"), .token .openBracket] := by
    refine (cuts_word hword).append cuts_openBracket fun rest _ c hc ↦ ?_
    obtain rfl := Option.some.inj hc
    rfl
  exact (hrow.then (cuts_text name)).then cuts_closeBracket

theorem Bounded.ends {rest : List Char} (h : Bounded rest) : Json.Ends rest := by
  intro c hc
  have hall : [')', ']', ',', ' '].all (fun d ↦ !isBare d) = true := rfl
  exact Bool.eq_false_of_not_eq_true' (List.all_eq_true.1 hall c (h c hc))

theorem readDecimal?_toDigits (n : ℕ) {rest : List Char} (hrest : Bounded rest) :
    Expression.readDecimal? (Nat.toDigits 10 n ++ rest) = some (⟨n, 0⟩, rest) := by
  have hdigits := Expression.readDigits_append_of_ends (Expression.allDigits_toDigits n) hrest.ends
  rw [Expression.readDecimal?, hdigits]
  simp only [if_neg (Expression.not_padded_toDigits n),
    Expression.readFraction_of_ends hrest.ends, Expression.readExponent_of_ends hrest.ends,
    List.append_nil, Expression.natOf_toDigits]
  rfl

theorem exists_digit (n : ℕ) : ∃ c cs, Nat.toDigits 10 n = c :: cs ∧ c.isDigit = true := by
  obtain ⟨c, cs, hchars⟩ := List.exists_cons_of_ne_nil (Nat.toDigits_ne_nil (n := n) (b := 10))
  exact ⟨c, cs, hchars, Expression.allDigits_toDigits n c (hchars ▸ List.mem_cons_self)⟩

theorem cuts_nat (n : ℕ) : Cuts Bounded (toString n) [.token (.number ⟨n, 0⟩)] := by
  intro rest hrest
  have hread := readDecimal?_toDigits n hrest
  obtain ⟨c, cs, hchars, hc⟩ := exists_digit n
  have hdigit := isAlphanum_of_isDigit hc
  have hquote : c ≠ '"' := by
    rintro rfl
    exact absurd hdigit (by decide)
  rw [toList_nat, hchars, List.cons_append]
  rw [hchars, List.cons_append] at hread
  have htoken : Expression.token? (c :: (cs ++ rest)) = some (.number ⟨n, 0⟩, rest) := by
    rw [Expression.token?, if_neg hquote, if_pos hc, hread]
    rfl
  exact lexemes?_of_token (notMem_of_isAlphanum hdigit rfl) htoken (by simp)

theorem cuts_minus (n : ℕ) : Cuts Bounded ("-" ++ toString n)
    [.token (.operator .minus), .token (.number ⟨n, 0⟩)] := by
  intro rest hrest
  have hnumber := cuts_nat n rest hrest
  obtain ⟨c, cs, hchars, hc⟩ := exists_digit n
  rw [toList_nat, hchars] at hnumber
  rw [String.toList_append, toList_nat, hchars]
  have htoken : Expression.token? ('-' :: c :: (cs ++ rest)) =
      some (.operator .minus, c :: (cs ++ rest)) := by
    show Expression.symbol? _ = _
    rw [Expression.symbol?]
    intro other h
    rw [(List.cons.inj h).1] at hc
    exact absurd hc (by decide)
  show lexemes? ('-' :: c :: (cs ++ rest)) = _
  rw [lexemes?_of_token (by decide) htoken le_rfl, ← List.cons_append, hnumber, Option.map_map]
  rfl

end Cutting

section Spelling

def Spells (p : Phrase) (s : String) : Prop := ∃ ls, Cuts Bounded s ls ∧ Derives p ls

def Opens (s : String) : Prop := ∃ c cs, s.toList = c :: cs ∧ c ∉ ['=', '<', '>', '+']

variable {level : ℕ} {s s' f : String} {t u l r : Term} {ts us : List Term}

theorem Opens.fresh (h : Opens s) (rest : List Char) : Fresh (s.toList ++ rest) := by
  obtain ⟨c, cs, hchars, hc⟩ := h
  intro d hd
  rw [hchars] at hd
  exact Option.some.inj hd ▸ hc

theorem Opens.append (h : Opens s) (s' : String) : Opens (s ++ s') := by
  obtain ⟨c, cs, hchars, hc⟩ := h
  exact ⟨c, cs ++ s'.toList, by rw [String.toList_append, hchars]; rfl, hc⟩

theorem IsWord.opens (h : IsWord s) : Opens s := by
  obtain ⟨c, cs, hchars, -⟩ := h.head
  have hall := h.all
  rw [hchars, List.all_eq_true] at hall
  exact ⟨c, cs, hchars, notMem_of_isAlphanum (hall c List.mem_cons_self) rfl⟩

theorem bounded_append {c : Char} {cs : List Char} (h : s.toList = c :: cs)
    (hc : c ∈ [')', ']', ',', ' ']) (rest : List Char) : Bounded (s.toList ++ rest) := by
  intro d hd
  rw [h] at hd
  exact Option.some.inj hd ▸ hc

theorem Cuts.bounded {ls : List Lexeme} (h : Cuts Anything s ls) : Cuts Bounded s ls :=
  h.weaken fun _ _ ↦ trivial

theorem Spells.mono {least : ℕ} (h : Spells (.term level t) s) (hle : least ≤ level) :
    Spells (.term least t) s := by
  obtain ⟨ls, hcuts, hderives⟩ := h
  exact ⟨ls, hcuts, hderives.mono hle⟩

theorem Spells.read?_eq (h : Spells (.term 1 t) s) : read? s = some t := by
  obtain ⟨ls, hcuts, hderives⟩ := h
  rw [read?, hcuts.lexemes?_eq, Option.bind_some, hderives.expression_eq]

theorem spells_column (name : String) :
    Spells (.term level (.column name)) (Expression.datum name) :=
  ⟨_, (cuts_datum name).bounded, .column name⟩

theorem spells_name (h : IsWord s) : Spells (.term level (.name s)) s :=
  ⟨_, cuts_constant h, .name s⟩

theorem spells_text (text : String) : Spells (.term level (.text text)) (Text.stringLiteral text) :=
  ⟨_, (cuts_text text).bounded, .text text⟩

theorem Spells.brackets (h : Spells (.term 1 t) s) : Spells (.term level t) ("(" ++ s ++ ")") := by
  obtain ⟨ls, hcuts, hderives⟩ := h
  have hclosed := (cuts_opening.then hcuts).append cuts_closing
    fun rest _ ↦ bounded_append rfl (by decide) rest
  exact ⟨_, hclosed.bounded, .brackets hderives⟩

theorem Spells.list (h : Spells (.items ts) s) :
    Spells (.term level (.list ts)) ("[" ++ s ++ "]") := by
  obtain ⟨ls, hcuts, hderives⟩ := h
  have hclosed := (cuts_openBracket.then hcuts).append cuts_closeBracket
    fun rest _ ↦ bounded_append rfl (by decide) rest
  exact ⟨_, hclosed.bounded, .list hderives⟩

theorem Spells.call (hf : IsWord f) (h : Spells (.items ts) s) :
    Spells (.term level (.call f ts)) (f ++ "(" ++ s ++ ")") := by
  obtain ⟨ls, hcuts, hderives⟩ := h
  have hclosed := ((cuts_function hf).then hcuts).append cuts_closing
    fun rest _ ↦ bounded_append rfl (by decide) rest
  exact ⟨_, hclosed.bounded, .call f hderives⟩

theorem spells_none : Spells (.items []) "" :=
  ⟨[], fun rest _ ↦ (Option.map_id' (x := lexemes? rest)).symm, .none⟩

theorem Spells.last (h : Spells (.term 1 t) s) : Spells (.items [t]) s := by
  obtain ⟨ls, hcuts, hderives⟩ := h
  exact ⟨ls, hcuts, .last hderives⟩

theorem Spells.more (h : Spells (.term 1 t) s) (hs : Spells (.items (u :: us)) s') :
    Spells (.items (t :: u :: us)) (s ++ ", " ++ s') := by
  obtain ⟨ls, hcuts, hderives⟩ := h
  obtain ⟨ms, hcuts', hderives'⟩ := hs
  have hcomma := hcuts.append cuts_comma fun rest _ ↦ bounded_append rfl (by decide) rest
  have hall := hcomma.then hcuts'
  rw [List.append_assoc] at hall
  exact ⟨_, hall, .more hderives hderives'⟩

theorem Spells.binary (o : Infix) (ho : level ≤ o.level) (hl : Spells (.term o.level l) s)
    (hr : Spells (.term (o.level + 1) r) s') :
    Spells (.term level (.binary o l r)) (s ++ o.text ++ s') := by
  obtain ⟨ls, hcuts, hderives⟩ := hl
  obtain ⟨rs, hcuts', hderives'⟩ := hr
  obtain ⟨cs, htext⟩ : ∃ cs, o.text.toList = ' ' :: cs := by
    cases o with
    | operator o => cases o <;> exact ⟨_, rfl⟩
    | _ => exact ⟨_, rfl⟩
  have hbetween := hcuts.append (cuts_between o) fun rest _ ↦ bounded_append htext (by decide) rest
  have hall := hbetween.then hcuts'
  rw [List.append_assoc] at hall
  exact ⟨_, hall, .binary ho hderives hderives'⟩

theorem Spells.not (h : Spells (.term 11 t) s) (hs : Opens s) :
    Spells (.term level (.signed .not t)) ("!" ++ s) := by
  obtain ⟨ls, hcuts, hderives⟩ := h
  exact ⟨_, cuts_not.append hcuts fun rest _ ↦ hs.fresh rest, .signed .not hderives⟩

theorem Spells.plus (h : Spells (.term 11 t) s) (hs : Opens s) :
    Spells (.term level (.signed .plus t)) ("+" ++ s) := by
  obtain ⟨ls, hcuts, hderives⟩ := h
  exact ⟨_, cuts_plus.append hcuts fun rest _ ↦ hs.fresh rest, .signed .plus hderives⟩

end Spelling

end ChartLowering.Logic
