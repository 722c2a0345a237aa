import ConstPool.Toml.Token

/-!
# Reading TOML documents

`Toml.parse?` reads a document: a list of lines, each of which is empty, opens a table by its
header, or puts a value at a key of the table that was opened last.

What a header or a key may still add to the document depends on how the tables on its path came
about (`Toml.Origin`). The first line that cannot be read makes the whole document unreadable, so
there is no document with a part left out.
-/

namespace ConstPool.Toml

open Reader

/-! ### Values -/

/-- The items of an array after its opening bracket, after those that are there in reverse. A
comma may follow the last item. At most so many items. -/
def arrayItems (item : Reader Value) : Nat → List Value → Reader (List Value)
  | 0, _ => failure
  | bound + 1, done => do
    gaps
    match ← peek with
    | some ']' => do
      symbol ']'
      return done.reverse
    | _ => do
      let v ← item
      gaps
      match ← satisfy fun c => c == ',' || c == ']' with
      | ',' => arrayItems item bound (v :: done)
      | _ => return (v :: done).reverse

/-- A key and its value. -/
def keyValue (value : Reader Value) : Reader (List String × Value) := do
  let key ← dottedKey
  symbol '='
  spaces
  let v ← value
  return (key, v)

/-- Puts a value at the key whose parts are given. -/
def assignAll? (key : List String) (value : Value) (t : Table) : Option Table :=
  match key.getLast? with
  | some last => t.assign? key.dropLast last value
  | none => none

/-- The entries of an inline table after its opening brace. At most so many. -/
def inlineEntries (value : Reader Value) : Nat → Table → Reader Table
  | 0, _ => failure
  | bound + 1, t => do
    let (key, v) ← keyValue value
    spaces
    match assignAll? key v t with
    | none => failure
    | some t =>
      match ← satisfy fun c => c == ',' || c == '\x7d' with
      | ',' => inlineEntries value bound t
      | _ => return t

/-- A value, given a reader for the values inside an array or an inline table, if one may stand
here. The number bounds how many values it holds. -/
def valueAround (bound : Nat) (inner : Option (Reader Value)) : Reader Value := do
  match ← peek with
  | some '"' => return .string (← anyString)
  | some '\'' => return .string (← anyString)
  | some '[' => do
    symbol '['
    match inner with
    | none => failure
    | some item => return .array (← arrayItems item bound [])
  | some '\x7b' => do
    symbol '\x7b'
    spaces
    match inner, ← peek with
    | none, _ => failure
    | some _, some '\x7d' => do
      symbol '\x7d'
      return .table .inline []
    | some item, _ => do
      let t ← inlineEntries item bound (.empty .inline)
      return .table .inline t.entries
  | some 't' => do
    word "true"
    return .boolean true
  | some 'f' => do
    word "false"
    return .boolean false
  | _ =>
    (do
      time
      return .time) <|> (do
      float
      return .float) <|> (do
      return .integer (← integer))

/-- A value; the numbers bound how many values each array and inline table holds, and how deep they
are nested. -/
def value (bound : Nat) : (depth : Nat) → Reader Value
  | 0 => valueAround bound none
  | depth + 1 => valueAround bound (some (value bound depth))

/-! ### Lines -/

/-- The document so far, and the path of the table that was opened last. -/
structure Progress where
  document : Table
  current : List String

/-- The document before its first line. -/
def Progress.start : Progress := ⟨.empty .header, []⟩

/-- A header: the path in single or double brackets. -/
def header (p : Progress) : Reader Progress := do
  symbol '['
  let doubled := (← attempt (symbol '[')).isSome
  let key ← dottedKey
  symbol ']'
  if doubled then symbol ']'
  lineRest
  match key.getLast? with
  | none => failure
  | some last =>
    let opened :=
      if doubled then p.document.openItem? key.dropLast last
      else p.document.openHeader? key.dropLast last
    match opened with
    | some document => return ⟨document, key⟩
    | none => failure

/-- A value at a key of the current table. -/
def entry (bound : Nat) (p : Progress) : Reader Progress := do
  let (key, v) ← keyValue (value bound maxNesting)
  lineRest
  match p.document.update? false (assignAll? key v) p.current with
  | some document => return { p with document }
  | none => failure

/-- One line. The number bounds how many values its value holds. -/
def line (bound : Nat) (p : Progress) : Reader Progress := do
  spaces
  match ← peek with
  | none => return p
  | some '#' => do
    lineRest
    return p
  | some '\n' => do
    newline
    return p
  | some '\r' => do
    newline
    return p
  | some '[' => header p
  | some _ => entry bound p

/-- Lines up to the end of the text, at most so many. No value holds more values than the text has
characters. -/
def lines (bound : Nat) : Nat → Progress → List Char → Option Progress
  | _, p, [] => some p
  | 0, _, _ => none
  | count + 1, p, cs =>
    match line bound p cs with
    | some (p, rest) => lines bound count p rest
    | none => none

/-- Reads a document. A mark of the byte order may stand before it. -/
def parse? (text : String) : Option Table :=
  let cs :=
    match text.toList with
    | '\ufeff' :: rest => rest
    | cs => cs
  let bound := cs.length + 1
  (lines bound bound .start cs).map Progress.document

end ConstPool.Toml
