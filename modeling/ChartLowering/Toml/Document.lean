import ChartLowering.Toml.Value

/-!
# TOML documents

A document is a row of statements. They are read first, and then the tables are built from them.
-/

namespace ChartLowering.Toml

inductive Statement where
  | pair (key : List String) (value : Value)
  | table (key : List String)
  | item (key : List String)

/-- One statement, without the end of its line. -/
def readStatement (cs : List Char) : Found Statement :=
  let length := cs.length + 1
  match cs with
  | '[' :: '[' :: rest =>
      match readKey length (skipSpace rest) with
      | some (key, ']' :: ']' :: rest) => some (.item key, rest)
      | _ => none
  | '[' :: rest =>
      match readKey length (skipSpace rest) with
      | some (key, ']' :: rest) => some (.table key, rest)
      | _ => none
  | cs =>
      match readKey length cs with
      | some (key, '=' :: rest) =>
          (readValue length (skipSpace rest)).map fun (value, rest) ↦ (.pair key value, rest)
      | _ => none

/-- The statements of a document, within a bound on their number. -/
def readStatements : Nat → List Char → Option (List Statement)
  | 0, _ => none
  | fuel + 1, cs =>
      match skipSpace cs with
      | [] => some []
      | '\n' :: rest => readStatements fuel rest
      | '#' :: rest =>
          match skipComment ('#' :: rest) with
          | some rest => readStatements fuel rest
          | none => none
      | cs =>
          match readStatement cs with
          | none => none
          | some (statement, rest) =>
              match skipComment (skipSpace rest) with
              | some [] => some [statement]
              | some ('\n' :: rest) => (readStatements fuel rest).map (statement :: ·)
              | _ => none

/-- The tables built so far. A key is `declared` once a header, or dotted keys under an earlier
header, have named it; `pending` are those that dotted keys have named under the present header.
Nothing can be added at or below a `closed` key. -/
structure Document where
  root : Record Value
  header : List String
  declared : List (List String)
  pending : List (List String)
  closed : List (List String)

namespace Document

def empty : Document := ⟨[], [], [], [], []⟩

def isClosed (d : Document) (key : List String) : Bool :=
  d.closed.any fun c ↦ c.isPrefixOf key

/-- Changes the table at a key, which is made if it is not there. A list stands for its last
item. -/
def update (change : Record Value → Option (Record Value)) :
    List String → Record Value → Option (Record Value)
  | [], table => change table
  | key :: rest, table =>
      match table.get? key with
      | none => (update change rest []).map fun inner ↦ table.put key (.object inner)
      | some (.object inner) =>
          (update change rest inner).map fun inner ↦ table.put key (.object inner)
      | some (.list items) =>
          match items.getLast? with
          | some (.object inner) =>
              (update change rest inner).map fun inner ↦
                table.put key (.list (items.dropLast ++ [.object inner]))
          | _ => none
      | some _ => none

def addItem (key : String) (table : Record Value) : Option (Record Value) :=
  match table.get? key with
  | none => some (table.put key (.list [.object []]))
  | some (.list items) => some (table.put key (.list (items ++ [.object []])))
  | some _ => none

/-- The keys above a key, from the longest on. -/
def above (header : List String) : List String → List (List String)
  | [] => []
  | [_] => []
  | key :: rest => (header ++ [key]) :: above (header ++ [key]) rest

def addPair (d : Document) (key : List String) (value : Value) : Option Document := do
  let full := d.header ++ key
  let parents := above d.header key
  if parents.any d.declared.contains then none
  else if d.isClosed full.dropLast then none
  else
    let last ← key.getLast?
    let root ← update (fun table ↦ if table.has last then none else some (table.put last value))
      full.dropLast d.root
    some
      { d with
        root
        pending := parents ++ d.pending
        closed := if value.isList || value.isObject then full :: d.closed else d.closed }

def addTable (d : Document) (key : List String) : Option Document := do
  let declared := d.pending ++ d.declared
  if declared.contains key || d.isClosed key then none
  else
    let root ← update some key d.root
    some { d with root, header := key, declared := key :: declared, pending := [] }

/-- Begins a further item of a list of tables. What was said of its last item no longer counts. -/
def addToList (d : Document) (key : List String) : Option Document := do
  let declared := d.pending ++ d.declared
  if d.isClosed key then none
  else
    let last ← key.getLast?
    let root ← update (addItem last) key.dropLast d.root
    some
      { root
        header := key
        declared := key :: declared.filter fun k ↦ !key.isPrefixOf k
        pending := []
        closed := d.closed.filter fun k ↦ !key.isPrefixOf k }

def add (d : Document) : Statement → Option Document
  | .pair key value => d.addPair key value
  | .table key => d.addTable key
  | .item key => d.addToList key

end Document

/-- Line breaks of two characters as those of one. -/
def joinBreaks : List Char → List Char
  | '\r' :: '\n' :: rest => '\n' :: joinBreaks rest
  | c :: rest => c :: joinBreaks rest
  | [] => []

def read? (s : String) : Option (Record Value) := do
  let cs := joinBreaks s.toList
  let statements ← readStatements (cs.length + 1) cs
  let document ← statements.foldlM Document.add Document.empty
  pure document.root

end ChartLowering.Toml
