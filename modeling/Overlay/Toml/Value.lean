/-!
# TOML values

The values of a TOML document and the rules for placing one at a dotted path. A table remembers
how it came to be, because that decides who may add to it: a table written in braces is closed, a
table that has a header takes no dotted keys from outside, and a table that only a longer path
mentioned may still get its header.
-/

namespace Overlay.Toml

/-- How a table came to be. -/
inductive TableKind where
  /-- Written in braces: nothing can be added. -/
  | closed
  /-- Named by a header of its own, or the document itself. -/
  | header
  /-- Named only by the header of a table below it. -/
  | implied
  /-- Named by a dotted key. -/
  | dotted
  deriving DecidableEq, Repr

/-- A value of a document. -/
inductive Value where
  /-- A string. -/
  | text (s : String)
  /-- An integer. -/
  | integer (n : Int)
  /-- A floating-point number, as it is written. -/
  | float (written : String)
  /-- A truth value. -/
  | boolean (b : Bool)
  /-- A date, a time or both, as it is written. -/
  | date (written : String)
  /-- An array. -/
  | array (items : List Value)
  /-- A table. -/
  | table (kind : TableKind) (entries : List (String × Value))
  /-- An array whose tables each have a header, latest first. -/
  | tables (latestFirst : List Value)

/-- Keys with their values. -/
abbrev Entries := List (String × Value)

/-- The value of a key. -/
def Entries.find? (es : Entries) (key : String) : Option Value := es.lookup key

/-- Give a key a value, in place of the one it has. -/
def Entries.put (es : Entries) (key : String) (v : Value) : Entries :=
  match es with
  | [] => [(key, v)]
  | e :: es => if e.1 = key then (key, v) :: es else e :: Entries.put es key v

/-- A change of a table, which may be refused. -/
abbrev Change := TableKind → Entries → Option (TableKind × Entries)

/-- Change the table that a path leads to. Missing tables on the way are made, of the kind that
`made` says. Dotted keys (`made` is `dotted`) do not lead into a table that has a header, and
nothing leads into a closed table or a value. Of an array of tables the path takes the latest. -/
def changeAt (made : TableKind) (change : Change) : List String → Change
  | [], kind, es => change kind es
  | key :: path, kind, es =>
    match es.find? key with
    | none =>
      (changeAt made change path made []).map fun t => (kind, es.put key (.table t.1 t.2))
    | some (.table k inner) =>
      if k = .closed ∨ (made = .dotted ∧ k = .header) then none
      else (changeAt made change path k inner).map fun t => (kind, es.put key (.table t.1 t.2))
    | some (.tables (.table k inner :: older)) =>
      (changeAt made change path k inner).map fun t =>
        (kind, es.put key (.tables (.table t.1 t.2 :: older)))
    | some _ => none

/-- Give a new key a value. -/
def addNew (key : String) (v : Value) : Change := fun kind es =>
  match es.find? key with
  | none => some (kind, es.put key v)
  | some _ => none

/-- Give the key at the end of a dotted path a value. The key must be new, and the tables that the
path leads through must all come from dotted keys. -/
def addDotted (path : List String) (v : Value) : Change :=
  match path.getLast? with
  | none => fun _ _ => none
  | some key =>
    changeAt .dotted (fun kind es =>
      if path.dropLast = [] ∨ kind = .dotted then addNew key v kind es else none) path.dropLast

/-- Open the table of a header. It must be new or only implied so far. -/
def openTable (path : List String) : Change :=
  match path.getLast? with
  | none => fun _ _ => none
  | some key =>
    changeAt .implied (fun kind es =>
      match es.find? key with
      | none => some (kind, es.put key (.table .header []))
      | some (.table .implied inner) => some (kind, es.put key (.table .header inner))
      | some _ => none) path.dropLast

/-- Open the next table of an array of tables. -/
def openNext (path : List String) : Change :=
  match path.getLast? with
  | none => fun _ _ => none
  | some key =>
    changeAt .implied (fun kind es =>
      match es.find? key with
      | none => some (kind, es.put key (.tables [.table .header []]))
      | some (.tables ts) => some (kind, es.put key (.tables (.table .header [] :: ts)))
      | some _ => none) path.dropLast

end Overlay.Toml
