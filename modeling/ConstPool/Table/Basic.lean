import ConstPool.Uses.Live
import ConstPool.Pool

/-!
# Tables of constants

The table that is written into the finished program: its entries stand in the order of the
identities they come from, and a part of an entry is a scalar in place or the position of an
earlier entry.

* `Table.encode?`: the entry of a pooled value over the entries before it.
* `Table.build`: the table of given constants.
* `Table.slotOf?`: where a constant stands, by a search among the ascending identities.
-/

namespace ConstPool

/-- A part of an entry: a scalar in place, or the position of an earlier entry. -/
inductive TablePart where
  | scalar (s : Scalar)
  | entry (slot : Nat)
  deriving DecidableEq

/-- The content of an entry. -/
inductive TableValue where
  | scalar (s : Scalar)
  | shape (layer : Shape TablePart Nat)
  deriving DecidableEq

/-- An entry with its position and the identity it comes from. -/
structure TableEntry where
  slot : Nat
  source : ValueId
  value : TableValue
  deriving DecidableEq

/-- A table of constants. -/
structure Table where
  entries : List TableEntry := []
  deriving DecidableEq

namespace Table

/-- The number of entries. -/
def size (t : Table) : Nat := t.entries.length

/-- The identities that the entries come from, by their positions. -/
def sources (t : Table) : Array ValueId := (t.entries.map (·.source)).toArray

/-- The one of the `size` places from `base` on where an identity stands among ascending ones, if it
stands at one of them. The places are halved until one is left. -/
def searchFrom (sources : Array ValueId) (id : ValueId) (base size : Nat) : Nat :=
  if 1 < size then
    let half := size / 2
    match sources[base + half]? with
    | some middle =>
      searchFrom sources id (if id.index < middle.index then base else base + half) (size - half)
    | none => base
  else base
termination_by size

/-- The position of the entry that comes from a constant. -/
def slotOf? (t : Table) (id : ValueId) : Option Nat :=
  let sources := t.sources
  let place := searchFrom sources id 0 sources.size
  if sources[place]? = some id then some place else none

/-! ### Building a table -/

/-- The position of a part of the constant `id` among the constants placed before it. -/
def slotAmong (live : Live) (placed : Dict ValueId Nat) (id part : ValueId) : Except Fault Nat :=
  if live.contains part then
    match placed.get? part with
    | some slot => .ok slot
    | none => .error (.breach (.laterPart id part))
  else .error (.breach (.discardedPart id part))

/-- An atom of the constant `id` as a part of an entry. -/
def partAmong (live : Live) (placed : Dict ValueId Nat) (id : ValueId) :
    Atom → Except Fault TablePart
  | .scalar s => .ok (.scalar s)
  | .ref part => return .entry (← slotAmong live placed id part)

/-- The content of the entry for the constant `id` with the given value. -/
def encode (live : Live) (placed : Dict ValueId Nat) (id : ValueId) :
    Value → Except Fault TableValue
  | .scalar s => .ok (.scalar s)
  | .shape layer =>
    return .shape (← layer.traverseParts (partAmong live placed id) (slotAmong live placed id))

/-- The entries for constants, from the position `slot` on, after the placed ones. -/
def entriesFrom (pool : Pool) (live : Live) :
    (slot : Nat) → (placed : Dict ValueId Nat) → List ValueId → Except Fault (List TableEntry)
  | _, _, [] => .ok []
  | slot, placed, id :: rest => do
    let value ← encode live placed id (← pool.get id)
    return ⟨slot, id, value⟩ :: (← entriesFrom pool live (slot + 1) (placed.insert id slot) rest)

/-- The table of constants, each of which refers only to ones before it. -/
def build (pool : Pool) (live : Live) (ids : List ValueId) : Except Fault Table :=
  return ⟨← entriesFrom pool live 0 .empty ids⟩

end Table

end ConstPool
