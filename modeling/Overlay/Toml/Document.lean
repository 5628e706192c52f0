import Overlay.Toml.Scan

/-!
# TOML documents

Values with their nesting, and documents: lines with a key and its value, headers that open a
table, and the entries that they build up.
-/

namespace Overlay.Toml

/-- The items of an array up to its bracket, which has been opened. A comma may follow the last
item, and comments and line ends may stand between items. -/
def arrayItems (item : Scan Value) : Nat → Scan (List Value)
  | 0, _ => none
  | fuel + 1, cs =>
    match skipLines (cs.length + 1) cs with
    | ']' :: rest => some ([], rest)
    | cs => do
      let (v, rest) ← item cs
      match skipLines (rest.length + 1) rest with
      | ',' :: rest => (arrayItems item fuel rest).map fun r => (v :: r.1, r.2)
      | ']' :: rest => some ([v], rest)
      | _ => none

/-- A key and its value. -/
def keyValue (item : Scan Value) (cs : List Char) : Option ((List String × Value) × List Char) := do
  let (path, rest) ← key cs
  let rest ← expect '=' rest
  let (v, rest) ← item (skipSpaces rest)
  some ((path, v), rest)

/-- The keys and values of a table up to its closing brace, of which at least one must come. No
comma follows the last one. -/
def tablePairs (item : Scan Value) : Nat → Scan (List (List String × Value))
  | 0, _ => none
  | fuel + 1, cs => do
    let (pair, rest) ← keyValue item cs
    match skipSpaces rest with
    | ',' :: rest => (tablePairs item fuel rest).map fun r => (pair :: r.1, r.2)
    | '}' :: rest => some ([pair], rest)
    | _ => none

/-- The table of some keys and values. -/
def closedTable (pairs : List (List String × Value)) : Option Value :=
  (pairs.foldlM (fun (t : TableKind × Entries) p => addDotted p.1 p.2 t.1 t.2)
    (.closed, [])).map fun t => .table .closed t.2

/-- A value that nests at most `depth` levels. -/
def value : Nat → Scan Value
  | depth, cs =>
    match cs with
    | '"' :: _ => (string cs).map fun r => (.text r.1, r.2)
    | '\'' :: _ => (string cs).map fun r => (.text r.1, r.2)
    | 't' :: 'r' :: 'u' :: 'e' :: rest => some (.boolean true, rest)
    | 'f' :: 'a' :: 'l' :: 's' :: 'e' :: rest => some (.boolean false, rest)
    | 'i' :: _ => float cs
    | 'n' :: _ => float cs
    | '[' :: rest =>
      match depth with
      | 0 => none
      | depth + 1 => (arrayItems (value depth) (rest.length + 1) rest).map fun r => (.array r.1, r.2)
    | '{' :: rest =>
      match depth with
      | 0 => none
      | depth + 1 =>
        match skipSpaces rest with
        | '}' :: rest => some (.table .closed [], rest)
        | _ => do
          let (pairs, rest) ← tablePairs (value depth) (rest.length + 1) rest
          let table ← closedTable pairs
          some (table, rest)
    | c :: _ => if c = '+' ∨ c = '-' ∨ c.isDigit then numberOrDate cs else none
    | [] => none

/-- One statement of a document. -/
inductive Statement where
  /-- A key and its value, in the table that is open. -/
  | assign (path : List String) (v : Value)
  /-- A header. -/
  | header (path : List String)
  /-- A header of an array of tables. -/
  | nextHeader (path : List String)

/-- A statement, up to where its line may end. -/
def statement : Scan Statement
  | '[' :: '[' :: cs => do
    let (path, rest) ← key cs
    let rest ← expect ']' rest
    let rest ← expect ']' rest
    some (.nextHeader path, rest)
  | '[' :: cs => do
    let (path, rest) ← key cs
    let rest ← expect ']' rest
    some (.header path, rest)
  | cs => do
    let ((path, v), rest) ← keyValue (value (depthLimit - 1)) cs
    some (.assign path v, rest)

/-- The statements of a document. -/
def statements : Nat → List Char → Option (List Statement)
  | 0, _ => none
  | fuel + 1, cs =>
    match skipSpaces cs with
    | [] => some []
    | cs =>
      match finishLine cs with
      | some rest => statements fuel rest
      | none => do
        let (s, rest) ← statement cs
        let rest ← finishLine rest
        (statements fuel rest).map (s :: ·)

/-- The entries of a document and the header of the table that is open. -/
structure Building where
  /-- The entries so far. -/
  entries : Entries
  /-- The path of the open table. -/
  current : List String

/-- Take in one statement. -/
def Building.add (b : Building) : Statement → Option Building
  | .assign path v =>
    (changeAt .implied (addDotted path v) b.current .header b.entries).map fun t =>
      { b with entries := t.2 }
  | .header path => (openTable path .header b.entries).map fun t => ⟨t.2, path⟩
  | .nextHeader path => (openNext path .header b.entries).map fun t => ⟨t.2, path⟩

/-- A text without the byte order mark that it may start with. -/
def dropByteOrderMark : List Char → List Char
  | c :: cs => if c.toNat = 0xFEFF then cs else c :: cs
  | [] => []

/-- The entries of a document, if it is one. -/
def parse (text : String) : Option Entries :=
  let cs := dropByteOrderMark text.toList
  match statements (cs.length + 1) cs with
  | none => none
  | some ss => (ss.foldlM Building.add ⟨[], []⟩).map (·.entries)

end Overlay.Toml
