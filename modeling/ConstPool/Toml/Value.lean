/-!
# TOML documents

The values of a TOML document, and the rules by which its lines build up tables. How a table came
about decides what may still be added to it: a table with a header is complete once the next
header begins, a table that only stands on the way to another may get a header of its own, a table
made by dotted keys may get further dotted keys, and an inline table is closed.

* `Toml.Table.update?`: changes the table at the end of a path.
* `Toml.Table.assign?`: puts a value at a dotted key.
* `Toml.Table.openHeader?`, `Toml.Table.openItem?`: what a header does.
-/

namespace ConstPool.Toml

/-- How a table came about. -/
inductive Origin where
  /-- It is written between braces. -/
  | inline
  /-- It has a header, or is the document. -/
  | header
  /-- It stands on the way to a table with a header. -/
  | implied
  /-- It stands on the way within a dotted key. -/
  | dotted
  deriving DecidableEq, Repr

/-- A value of a document. Of floats and times only the kind matters here. -/
inductive Value where
  | string (s : String)
  | integer (n : Int)
  | float
  | boolean (b : Bool)
  | time
  | array (items : List Value)
  | table (origin : Origin) (entries : List (String × Value))
  /-- The tables whose headers stand in double brackets: the last one, and those before it, the
  newest first. -/
  | tables (last : List (String × Value)) (before : List (List (String × Value)))

/-- A table with its origin. Its keys differ from each other; the newest comes first. -/
structure Table where
  origin : Origin
  entries : List (String × Value)

namespace Table

/-- A table without entries. -/
def empty (origin : Origin) : Table := ⟨origin, []⟩

/-- The value at a key. -/
def get? (t : Table) (key : String) : Option Value := t.entries.lookup key

/-- The table with a value at a key that it does not have. -/
def add (t : Table) (key : String) (value : Value) : Table :=
  { t with entries := (key, value) :: t.entries }

/-- The entries with another value at a key. -/
def replaceEntry (key : String) (value : Value) : List (String × Value) → List (String × Value)
  | [] => []
  | (k, v) :: rest =>
    if k = key then (key, value) :: rest else (k, v) :: replaceEntry key value rest

/-- The table with another value at a key that it has. -/
def replace (t : Table) (key : String) (value : Value) : Table :=
  { t with entries := replaceEntry key value t.entries }

/-- Changes the table at the end of a path, and makes the tables on the way that are missing.
Dotted keys must not pass through a table that has a header. The path may lead through the last
of the tables in double brackets. -/
def update? (dotted : Bool) (change : Table → Option Table) : List String → Table → Option Table
  | [], t => change t
  | key :: path, t =>
    match t.get? key with
    | none => do
      let sub ← update? dotted change path (.empty (if dotted then .dotted else .implied))
      return t.add key (.table sub.origin sub.entries)
    | some (.table origin entries) =>
      if origin = .inline ∨ (dotted = true ∧ origin = .header) then none
      else do
        let sub ← update? dotted change path ⟨origin, entries⟩
        return t.replace key (.table sub.origin sub.entries)
    | some (.tables last before) => do
      let sub ← update? dotted change path ⟨.header, last⟩
      return t.replace key (.tables sub.entries before)
    | some _ => none

/-- Puts a value at a new key. -/
def define? (key : String) (value : Value) (t : Table) : Option Table :=
  match t.get? key with
  | none => some (t.add key value)
  | some _ => none

/-- Puts a value at a dotted key, given as the parts before the last and the last. Behind a dot
only a table that dotted keys have made can get an entry. -/
def assign? (path : List String) (key : String) (value : Value) (t : Table) : Option Table :=
  t.update? true (fun sub =>
    if path.isEmpty ∨ sub.origin = .dotted then sub.define? key value else none) path

/-- A header in single brackets: the table is new, or stood on the way to another so far. -/
def openHeader? (path : List String) (key : String) (t : Table) : Option Table :=
  t.update? false (fun sub =>
    match sub.get? key with
    | none => some (sub.add key (.table .header []))
    | some (.table .implied entries) => some (sub.replace key (.table .header entries))
    | some _ => none) path

/-- A header in double brackets: one more table at the key. -/
def openItem? (path : List String) (key : String) (t : Table) : Option Table :=
  t.update? false (fun sub =>
    match sub.get? key with
    | none => some (sub.add key (.tables [] []))
    | some (.tables last before) => some (sub.replace key (.tables [] (last :: before)))
    | some _ => none) path

end Table

end ConstPool.Toml
