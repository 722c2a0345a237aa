import ConstPool.Table.Basic
import ConstPool.Text.Json

/-!
# Tables and values as JSON

The written form of a table of constants, and that of single pooled values. A scalar is written
with its kind, and a double by its bits, so that every constant can be told from every other.
-/

namespace ConstPool

/-- A scalar as JSON. -/
def Scalar.toJson : Scalar → Json
  | .null => .string "Null"
  | .bool b => .tagged "Bool" (.bool b)
  | .int n => .tagged "Int" (.number n.toInt)
  | .double d => .tagged "Double" (.ofNat d.bits.toNat)

/-- A pair as JSON: an array of two. -/
def Json.pair (a b : Json) : Json := .array [a, b]

/-! ### Tables -/

/-- A part of an entry as JSON. -/
def TablePart.toJson : TablePart → Json
  | .scalar s => .tagged "imm" s.toJson
  | .entry slot => .tagged "entry" (.ofNat slot)

/-- The content of an entry as JSON. The member `kind` tells the shapes apart. -/
def TableValue.toJson : TableValue → Json
  | .scalar s => .object [("kind", .string "scalar"), ("value", s.toJson)]
  | .shape (.text content) => .object [("kind", .string "str"), ("value", .string content)]
  | .shape (.list items) =>
    .object [("kind", .string "list"), ("items", .array (items.toList.map TablePart.toJson))]
  | .shape (.map entries) =>
    .object [("kind", .string "map"),
      ("entries", .array (entries.map fun e => .pair e.1.toJson e.2.toJson))]
  | .shape (.object className fields) =>
    .object [("kind", .string "object"), ("class", .string className),
      ("fields", .array (fields.map fun e => .pair (.string e.1) e.2.toJson))]
  | .shape (.type name args) =>
    .object [("kind", .string "type"), ("name", .string name),
      ("args", .array (args.map Json.ofNat))]

/-- An entry as JSON. -/
def TableEntry.toJson (e : TableEntry) : Json :=
  .object [("slot", .ofNat e.slot), ("source", .ofNat e.source.index), ("value", e.value.toJson)]

/-- A table as JSON. -/
def Table.toJson (t : Table) : Json :=
  .object [("entries", .array (t.entries.map TableEntry.toJson))]

/-! ### Values -/

/-- An atom as JSON. -/
def Atom.toJson : Atom → Json
  | .scalar s => .tagged "Imm" s.toJson
  | .ref id => .tagged "Ref" (.ofNat id.index)

/-- A pooled value as JSON. -/
def Value.toJson : Value → Json
  | .scalar s => .tagged "Imm" s.toJson
  | .shape (.text content) => .tagged "Str" (.string content)
  | .shape (.list items) => .tagged "List" (.array (items.toList.map Atom.toJson))
  | .shape (.map entries) =>
    .tagged "Map" (.array (entries.map fun e => .pair e.1.toJson e.2.toJson))
  | .shape (.object className fields) =>
    .tagged "Object" (.object [("class", .string className),
      ("fields", .array (fields.map fun e => .pair (.string e.1) e.2.toJson))])
  | .shape (.type name args) =>
    .tagged "Type" (.object [("name", .string name),
      ("args", .array (args.map fun id => .ofNat id.index))])

end ConstPool
