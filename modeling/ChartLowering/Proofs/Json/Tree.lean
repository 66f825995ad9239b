import ChartLowering.Proofs.Json.Literal
import ChartLowering.Proofs.Json.Words

/-!
# The tree that a JSON text spells

The compact text of a value spells a tree of bare words, strings, lists and objects. A tree is told
by its text, also with something after it as long as that does not go on with a bare word. So values
have the same text exactly if they have the same tree.
-/

namespace ChartLowering.Json

/-- A text of bare characters, at least one. -/
structure Word where
  text : String
  bare : IsBare text
  ne_empty : text ≠ ""

inductive Tree where
  | word (w : Word)
  | text (s : String)
  | list (items : List Tree)
  | object (members : List (String × Tree))

namespace Word

@[ext] theorem ext {w v : Word} (h : w.text = v.text) : w = v := by
  cases w
  cases v
  congr

def null : Word := ⟨"null", by decide, by decide⟩

def bool (b : Bool) : Word :=
  ⟨if b then "true" else "false", by cases b <;> decide, by cases b <;> decide⟩

def int (i : Int) : Word := ⟨toString i, IsBare.int i, int_ne_empty i⟩

def float (x : Binary64) : Word := ⟨floatText x, IsBare.floatText x, floatText_ne_empty x⟩

end Word

mutual

/-- The tree of a value. Sets are lists in it and checked field definitions are objects. -/
def tree : Value → Tree
  | .null => .word .null
  | .bool b => .word (.bool b)
  | .int i => .word (.int i)
  | .float x => .word (.float x)
  | .text s => .text s
  | .list items => .list (treeItems items)
  | .set items => .list (treeItems items)
  | .object members => .object (treeMembers members)
  | .fieldDef members => .object (treeMembers members)
termination_by structural v => v

def treeItems : List Value → List Tree
  | [] => []
  | v :: rest => tree v :: treeItems rest
termination_by structural items => items

def treeMembers : List (String × Value) → List (String × Tree)
  | [] => []
  | (key, v) :: rest => (key, tree v) :: treeMembers rest
termination_by structural members => members

end

namespace Tree

mutual

/-- The characters of a tree, without blanks. -/
def chars : Tree → List Char
  | word w => w.text.toList
  | text s => (Text.stringLiteral s).toList
  | list [] => ['[', ']']
  | list (t :: rest) => '[' :: chars t ++ charsItems rest
  | object [] => ['{', '}']
  | object ((key, t) :: rest) =>
      '{' :: (Text.stringLiteral key).toList ++ ':' :: chars t ++ charsMembers rest

/-- Further items of a list, up to its end. -/
def charsItems : List Tree → List Char
  | [] => [']']
  | t :: rest => ',' :: chars t ++ charsItems rest

def charsMembers : List (String × Tree) → List Char
  | [] => ['}']
  | (key, t) :: rest =>
      ',' :: (Text.stringLiteral key).toList ++ ':' :: chars t ++ charsMembers rest

end

end Tree

section Spelling

theorem toList_intercalate_comma (s : String) (rest : List String) :
    (",".intercalate (s :: rest)).toList =
      s.toList ++ rest.flatMap fun t ↦ ',' :: t.toList := by
  induction rest generalizing s with
  | nil => simp
  | cons t rest ih =>
      rw [String.intercalate_cons_cons, String.toList_append, String.toList_append, ih,
        List.flatMap_cons]
      simp

mutual

/-- The compact text of a value spells its tree. -/
theorem toList_write : ∀ v : Value, (write compact v).toList = (tree v).chars
  | .null => rfl
  | .bool true => rfl
  | .bool false => rfl
  | .int _ => rfl
  | .float _ => rfl
  | .text _ => rfl
  | .list items => toList_writeItems items
  | .set items => toList_writeItems items
  | .object members => toList_writeMembers members
  | .fieldDef members => toList_writeMembers members

theorem toList_writeItems : ∀ items : List Value,
    ("[" ++ ",".intercalate (writeItems compact items) ++ "]").toList =
      (Tree.list (treeItems items)).chars
  | [] => rfl
  | v :: rest => by
      rw [String.toList_append, String.toList_append, writeItems, toList_intercalate_comma,
        toList_write v, treeItems, Tree.chars, ← charsItems_eq rest]
      simp

theorem charsItems_eq : ∀ items : List Value,
    ((writeItems compact items).flatMap fun s ↦ ',' :: s.toList) ++ [']'] =
      Tree.charsItems (treeItems items)
  | [] => rfl
  | v :: rest => by
      rw [writeItems, List.flatMap_cons, toList_write v, treeItems, Tree.charsItems,
        ← charsItems_eq rest, List.append_assoc]

theorem toList_writeMembers : ∀ members : List (String × Value),
    ("\x7b" ++ ",".intercalate (writeMembers compact members) ++ "\x7d").toList =
      (Tree.object (treeMembers members)).chars
  | [] => rfl
  | (key, v) :: rest => by
      rw [String.toList_append, String.toList_append, writeMembers, toList_intercalate_comma,
        String.toList_append, String.toList_append, toList_write v, treeMembers, Tree.chars,
        ← charsMembers_eq rest]
      simp [compact]

theorem charsMembers_eq : ∀ members : List (String × Value),
    ((writeMembers compact members).flatMap fun s ↦ ',' :: s.toList) ++ ['}'] =
      Tree.charsMembers (treeMembers members)
  | [] => rfl
  | (key, v) :: rest => by
      rw [writeMembers, List.flatMap_cons, String.toList_append, String.toList_append,
        toList_write v, treeMembers, Tree.charsMembers, ← charsMembers_eq rest]
      simp [compact]

end

end Spelling

section Unambiguous

theorem Word.append_inj {w v : Word} {rest other : List Char} (hrest : Ends rest)
    (hother : Ends other) (h : w.text.toList ++ rest = v.text.toList ++ other) :
    w = v ∧ rest = other := by
  have hspan (w : Word) {rest : List Char} (hrest : Ends rest) :
      (w.text.toList ++ rest).takeWhile isBare = w.text.toList := by
    rw [List.takeWhile_append_of_pos w.bare]
    cases rest with
    | nil => simp
    | cons c rest => simp [hrest c rfl]
  have hword := congrArg (List.takeWhile isBare) h
  rw [hspan w hrest, hspan v hother] at hword
  exact ⟨Word.ext (String.toList_injective hword), List.append_cancel_left (hword ▸ h)⟩

namespace Tree

/-- The character that opens a tree, unless it is a bare word. -/
def opening? : Tree → Option Char
  | word _ => none
  | text _ => some '"'
  | list _ => some '['
  | object _ => some '{'

theorem head?_chars (t : Tree) (rest : List Char) :
    (t.chars ++ rest).head?.filter (fun c ↦ !isBare c) = t.opening? := by
  cases t with
  | word w =>
      cases hw : w.text.toList with
      | nil => exact absurd (String.toList_eq_nil_iff.1 hw) w.ne_empty
      | cons c cs =>
          have hbare := w.bare c (by simp [hw])
          simp [chars, hw, opening?, hbare]
  | text s =>
      rw [chars, toList_stringLiteral]
      rfl
  | list items => cases items <;> rfl
  | object members =>
      cases members with
      | nil => rfl
      | cons m rest => rfl

theorem chars_append_ne (t : Tree) (rest other : List Char) : t.chars ++ rest ≠ ']' :: other := by
  intro h
  have hopening := head?_chars t rest
  rw [h] at hopening
  cases t <;> simp [opening?, isBare] at hopening

theorem ends_charsItems (items : List Tree) (rest : List Char) :
    Ends (charsItems items ++ rest) := by
  intro c hc
  cases items <;> simp [charsItems] at hc <;> subst hc <;> decide

theorem ends_charsMembers (members : List (String × Tree)) (rest : List Char) :
    Ends (charsMembers members ++ rest) := by
  intro c hc
  cases members <;> simp [charsMembers] at hc <;> subst hc <;> decide

theorem opening?_eq_of_chars {t u : Tree} {rest other : List Char}
    (h : t.chars ++ rest = u.chars ++ other) : t.opening? = u.opening? := by
  rw [← head?_chars t rest, ← head?_chars u other, h]

mutual

/-- A tree is told by its characters, whatever comes after it. -/
theorem chars_append_inj : ∀ (t u : Tree) {rest other : List Char}, Ends rest → Ends other →
    t.chars ++ rest = u.chars ++ other → t = u ∧ rest = other
  | word w, u, _, _, hrest, hother, h => by
      cases u with
      | word v =>
          obtain ⟨rfl, hend⟩ := Word.append_inj hrest hother h
          exact ⟨rfl, hend⟩
      | text | list | object => cases opening?_eq_of_chars h
  | text s, u, _, _, _, _, h => by
      cases u with
      | text s' =>
          obtain ⟨rfl, hend⟩ := stringLiteral_append_inj h
          exact ⟨rfl, hend⟩
      | word | list | object => cases opening?_eq_of_chars h
  | list [], u, _, _, _, _, h => by
      cases u with
      | list items =>
          cases items with
          | nil => exact ⟨rfl, by simpa [chars] using h⟩
          | cons u us =>
              simp only [chars, List.cons_append, List.append_assoc, List.cons.injEq, true_and] at h
              exact (chars_append_ne u _ _ h.symm).elim
      | word | text | object => cases opening?_eq_of_chars h
  | list (t :: ts), u, rest, other, _, _, h => by
      cases u with
      | list items =>
          cases items with
          | nil =>
              simp only [chars, List.cons_append, List.append_assoc, List.cons.injEq, true_and] at h
              exact (chars_append_ne t _ _ h).elim
          | cons u us =>
              simp only [chars, List.cons_append, List.append_assoc, List.cons.injEq, true_and] at h
              obtain ⟨rfl, hmore⟩ :=
                chars_append_inj t u (ends_charsItems ts rest) (ends_charsItems us other) h
              obtain ⟨rfl, hend⟩ := charsItems_append_inj ts us hmore
              exact ⟨rfl, hend⟩
      | word | text | object => cases opening?_eq_of_chars h
  | object [], u, _, _, _, _, h => by
      cases u with
      | object members =>
          cases members with
          | nil => exact ⟨rfl, by simpa [chars] using h⟩
          | cons m ms => simp [chars, toList_stringLiteral] at h
      | word | text | list => cases opening?_eq_of_chars h
  | object ((key, t) :: ms), u, rest, other, _, _, h => by
      cases u with
      | object members =>
          cases members with
          | nil => simp [chars, toList_stringLiteral] at h
          | cons n ns =>
              obtain ⟨key', u⟩ := n
              simp only [chars, List.cons_append, List.append_assoc, List.cons.injEq, true_and] at h
              obtain ⟨rfl, hvalue⟩ := stringLiteral_append_inj h
              obtain ⟨rfl, hmore⟩ := chars_append_inj t u (ends_charsMembers ms rest)
                (ends_charsMembers ns other) (List.cons.inj hvalue).2
              obtain ⟨rfl, hend⟩ := charsMembers_append_inj ms ns hmore
              exact ⟨rfl, hend⟩
      | word | text | list => cases opening?_eq_of_chars h
termination_by structural t => t

theorem charsItems_append_inj : ∀ (ts us : List Tree) {rest other : List Char},
    charsItems ts ++ rest = charsItems us ++ other → ts = us ∧ rest = other
  | [], us, _, _, h => by
      cases us with
      | nil => exact ⟨rfl, by simpa [charsItems] using h⟩
      | cons u us => simp [charsItems] at h
  | t :: ts, us, rest, other, h => by
      cases us with
      | nil => simp [charsItems] at h
      | cons u us =>
          simp only [charsItems, List.cons_append, List.append_assoc, List.cons.injEq, true_and]
            at h
          obtain ⟨rfl, hmore⟩ :=
            chars_append_inj t u (ends_charsItems ts rest) (ends_charsItems us other) h
          obtain ⟨rfl, hend⟩ := charsItems_append_inj ts us hmore
          exact ⟨rfl, hend⟩
termination_by structural ts => ts

theorem charsMembers_append_inj : ∀ (ms ns : List (String × Tree)) {rest other : List Char},
    charsMembers ms ++ rest = charsMembers ns ++ other → ms = ns ∧ rest = other
  | [], ns, _, _, h => by
      cases ns with
      | nil => exact ⟨rfl, by simpa [charsMembers] using h⟩
      | cons n ns => simp [charsMembers] at h
  | (key, t) :: ms, ns, rest, other, h => by
      cases ns with
      | nil => simp [charsMembers] at h
      | cons n ns =>
          obtain ⟨key', u⟩ := n
          simp only [charsMembers, List.cons_append, List.append_assoc, List.cons.injEq, true_and]
            at h
          obtain ⟨rfl, hvalue⟩ := stringLiteral_append_inj h
          obtain ⟨rfl, hmore⟩ := chars_append_inj t u (ends_charsMembers ms rest)
            (ends_charsMembers ns other) (List.cons.inj hvalue).2
          obtain ⟨rfl, hend⟩ := charsMembers_append_inj ms ns hmore
          exact ⟨rfl, hend⟩
termination_by structural ms => ms

end

/-- Values have the same compact text exactly if they have the same tree. -/
theorem write_eq_iff {v w : Value} : write compact v = write compact w ↔ tree v = tree w := by
  rw [← String.toList_inj, toList_write, toList_write]
  refine ⟨fun h ↦ ?_, fun h ↦ h ▸ rfl⟩
  have hends : Ends [] := fun c hc ↦ by cases hc
  exact (chars_append_inj _ _ hends hends (by rw [h])).1

end Tree

end Unambiguous

end ChartLowering.Json
