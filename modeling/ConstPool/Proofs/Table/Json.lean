import ConstPool.Number.Integer
import ConstPool.Proofs.Text.Json
import ConstPool.Table.Json

/-!
# Reading tables from their JSON texts

A reader for tables, entry by entry, and for all that stands in them. What is written is read back,
so a table can be told from its text, and so can every scalar, part, content and entry: no two of a
kind have the same text.

The writer puts the members of an entry in a fixed order and without blanks. Kinds are told by the
names of members: a scalar in place by one, a slot by another, and a double by its bits. The reader
goes the other way, from characters to a JSON value and from there to the table, and it is used for
nothing but the proof: that it reads back what was written says that nothing is lost in the text.
That the texts of strings are read back, with whatever is escaped in them, is proved for JSON texts
in general.

* `Table.ofJson?`: the table that a JSON value stands for.
* `Table.ofText?`: the table that a text stands for.
* `Table.text_determines`: tables and their parts are told by their texts.
-/

namespace ConstPool

/-! ### Reading -/

/-- A natural number. -/
def Json.toNat? : Json → Option Nat
  | .number n => if 0 ≤ n then some n.toNat else none
  | _ => none

/-- A text. -/
def Json.toText? : Json → Option String
  | .string s => some s
  | _ => none

/-- A pair of parts that are read on their own. -/
def Json.toPair? {α β : Type} (first : Json → Option α) (second : Json → Option β) :
    Json → Option (α × β)
  | .array [a, b] => do return (← first a, ← second b)
  | _ => none

/-- A scalar from its written form. -/
def Scalar.ofJson? : Json → Option Scalar
  | .string "Null" => some .null
  | .object [("Bool", .bool b)] => some (.bool b)
  | .object [("Int", .number n)] => (Integer.narrow? n).map .int
  | .object [("Double", bits)] => do
    let bits ← bits.toNat?
    if bits < UInt64.size then some (.double ⟨.ofNat bits⟩) else none
  | _ => none

/-- A part of an entry from its written form. -/
def TablePart.ofJson? : Json → Option TablePart
  | .object [("imm", s)] => (Scalar.ofJson? s).map .scalar
  | .object [("entry", slot)] => slot.toNat?.map .entry
  | _ => none

/-- The content of an entry from its written form. -/
def TableValue.ofJson? : Json → Option TableValue
  | .object [("kind", .string "scalar"), ("value", s)] => (Scalar.ofJson? s).map .scalar
  | .object [("kind", .string "str"), ("value", .string content)] => some (.shape (.text content))
  | .object [("kind", .string "list"), ("items", .array items)] => do
    return .shape (.list (← items.mapM TablePart.ofJson?).toArray)
  | .object [("kind", .string "map"), ("entries", .array entries)] => do
    return .shape (.map (← entries.mapM (Json.toPair? TablePart.ofJson? TablePart.ofJson?)))
  | .object [("kind", .string "object"), ("class", .string className),
      ("fields", .array fields)] => do
    return .shape (.object className (← fields.mapM (Json.toPair? Json.toText? TablePart.ofJson?)))
  | .object [("kind", .string "type"), ("name", .string name), ("args", .array args)] => do
    return .shape (.type name (← args.mapM Json.toNat?))
  | _ => none

/-- An entry from its written form. -/
def TableEntry.ofJson? : Json → Option TableEntry
  | .object [("slot", slot), ("source", source), ("value", value)] => do
    return ⟨← slot.toNat?, ⟨← source.toNat?⟩, ← TableValue.ofJson? value⟩
  | _ => none

/-- A table from its written form. -/
def Table.ofJson? : Json → Option Table
  | .object [("entries", .array entries)] => do return ⟨← entries.mapM TableEntry.ofJson?⟩
  | _ => none

/-- The table that a text stands for. -/
def Table.ofText? (text : String) : Option Table := (Json.ofText? text).bind Table.ofJson?

/-! ### What is written is read back -/

/-- A list is read back if each of its elements is. -/
theorem mapM_map_eq_some {α β : Type} {read : β → Option α} {write : α → β}
    (h : ∀ a, read (write a) = some a) (as : List α) : (as.map write).mapM read = some as := by
  induction as with
  | nil => rfl
  | cons a as ih =>
    rw [List.map_cons, List.mapM_cons, h, ih]
    rfl

/-- A count is read back. -/
@[simp] theorem Json.toNat?_ofNat (n : Nat) : (Json.ofNat n).toNat? = some n := by
  show (if (0 : Int) ≤ n then some (n : Int).toNat else none) = some n
  rw [if_pos (Int.natCast_nonneg n), Int.toNat_natCast]

/-- A text is read back. -/
@[simp] theorem Json.toText?_string (s : String) : (Json.string s).toText? = some s := rfl

/-- A pair is read back if each of its members is. -/
theorem Json.toPair?_pair {α β : Type} {first : Json → Option α} {second : Json → Option β}
    {a b : Json} {x : α} {y : β} (ha : first a = some x) (hb : second b = some y) :
    Json.toPair? first second (.pair a b) = some (x, y) := by
  rw [Json.pair, Json.toPair?, ha, hb]
  rfl

/-- A scalar is read back, to the bits of a double. -/
theorem Scalar.ofJson?_toJson (s : Scalar) : ofJson? s.toJson = some s := by
  cases s with
  | null => rfl
  | bool b => rfl
  | int n =>
    show (Integer.narrow? n.toInt).map Scalar.int = _
    rw [Integer.narrow?_eq_some_iff.2 rfl, Option.map_some]
  | double d =>
    show (if d.bits.toNat < UInt64.size then some (Scalar.double ⟨.ofNat d.bits.toNat⟩)
      else none) = _
    rw [if_pos d.bits.toNat_lt_size, UInt64.ofNat_toNat]

/-- A part is read back: a scalar in place or a slot. -/
theorem TablePart.ofJson?_toJson (p : TablePart) : ofJson? p.toJson = some p := by
  cases p with
  | scalar s =>
    show (Scalar.ofJson? s.toJson).map TablePart.scalar = _
    rw [Scalar.ofJson?_toJson, Option.map_some]
  | entry slot => rfl

/-- A value is read back, part by part. -/
theorem TableValue.ofJson?_toJson (v : TableValue) : ofJson? v.toJson = some v := by
  cases v with
  | scalar s =>
    show (Scalar.ofJson? s.toJson).map TableValue.scalar = _
    rw [Scalar.ofJson?_toJson, Option.map_some]
  | shape layer =>
    cases layer with
    | text content => rfl
    | list items =>
      show ((items.toList.map TablePart.toJson).mapM TablePart.ofJson?).bind
        (fun parts => some (TableValue.shape (.list parts.toArray))) = _
      rw [mapM_map_eq_some TablePart.ofJson?_toJson, Option.bind_some, Array.toArray_toList]
    | map entries =>
      show ((entries.map fun e => Json.pair e.1.toJson e.2.toJson).mapM
        (Json.toPair? TablePart.ofJson? TablePart.ofJson?)).bind
          (fun entries => some (TableValue.shape (.map entries))) = _
      rw [mapM_map_eq_some fun e => Json.toPair?_pair (TablePart.ofJson?_toJson e.1)
        (TablePart.ofJson?_toJson e.2), Option.bind_some]
    | object className fields =>
      show ((fields.map fun e => Json.pair (.string e.1) e.2.toJson).mapM
        (Json.toPair? Json.toText? TablePart.ofJson?)).bind
          (fun fields => some (TableValue.shape (.object className fields))) = _
      rw [mapM_map_eq_some fun e => Json.toPair?_pair (Json.toText?_string e.1)
        (TablePart.ofJson?_toJson e.2), Option.bind_some]
    | type name args =>
      show ((args.map Json.ofNat).mapM Json.toNat?).bind
        (fun args => some (TableValue.shape (.type name args))) = _
      rw [mapM_map_eq_some Json.toNat?_ofNat, Option.bind_some]

/-- An entry is read back with its slot. -/
theorem TableEntry.ofJson?_toJson (e : TableEntry) : ofJson? e.toJson = some e := by
  show (Json.toNat? (.ofNat e.slot)).bind (fun slot => (Json.toNat? (.ofNat e.source.index)).bind
    fun source => (TableValue.ofJson? e.value.toJson).bind
      fun value => some (⟨slot, ⟨source⟩, value⟩ : TableEntry)) = _
  rw [Json.toNat?_ofNat, Json.toNat?_ofNat, TableValue.ofJson?_toJson]
  rfl

/-- A whole table is read back. -/
theorem Table.ofJson?_toJson (t : Table) : ofJson? t.toJson = some t := by
  show ((t.entries.map TableEntry.toJson).mapM TableEntry.ofJson?).bind
    (fun entries => some (⟨entries⟩ : Table)) = _
  rw [mapM_map_eq_some TableEntry.ofJson?_toJson, Option.bind_some]

/-! ### Texts -/

/-- What a text was written from is read back from the text. -/
theorem bind_ofText?_compact {α : Type} {read : Json → Option α} {write : α → Json}
    (h : ∀ a, read (write a) = some a) (a : α) :
    (Json.ofText? (write a).compact).bind read = some a := by
  rw [Json.ofText?_compact, Option.bind_some, h]

/-- What is read back is told by its text. -/
theorem injective_compact {α : Type} {read : Json → Option α} {write : α → Json}
    (h : ∀ a, read (write a) = some a) : Function.Injective fun a => (write a).compact := by
  intro a b heq
  have hread := bind_ofText?_compact h a
  rw [show (write a).compact = (write b).compact from heq, bind_ofText?_compact h b] at hread
  exact (Option.some.inj hread).symm

/-- A table is told by its text: it is read back from the text, so different tables have different
texts. The same holds of all that stands in a table. Hence a scalar in place is never mistaken for
the position of an entry, and the content of an entry never for another kind of content. -/
theorem Table.text_determines :
    (∀ t : Table, ofText? t.toJson.compact = some t) ∧
      (∀ t u : Table, t.toJson.compact = u.toJson.compact ↔ t = u) ∧
      (∀ e f : TableEntry, e.toJson.compact = f.toJson.compact ↔ e = f) ∧
      (∀ v w : TableValue, v.toJson.compact = w.toJson.compact ↔ v = w) ∧
      (∀ p q : TablePart, p.toJson.compact = q.toJson.compact ↔ p = q) ∧
      (∀ s r : Scalar, s.toJson.compact = r.toJson.compact ↔ s = r) ∧
      (∀ s slot, (TablePart.scalar s).toJson.compact ≠ (TablePart.entry slot).toJson.compact) ∧
      ∀ s layer,
        (TableValue.scalar s).toJson.compact ≠ (TableValue.shape layer).toJson.compact := by
  have hparts := injective_compact TablePart.ofJson?_toJson
  have hvalues := injective_compact TableValue.ofJson?_toJson
  refine ⟨bind_ofText?_compact ofJson?_toJson,
    fun _ _ => (injective_compact ofJson?_toJson).eq_iff,
    fun _ _ => (injective_compact TableEntry.ofJson?_toJson).eq_iff, fun _ _ => hvalues.eq_iff,
    fun _ _ => hparts.eq_iff, fun _ _ => (injective_compact Scalar.ofJson?_toJson).eq_iff,
    fun s slot heq => ?_, fun s layer heq => ?_⟩
  · cases hparts heq
  · cases hvalues heq

end ConstPool
