import ConstPool.Draft.Operators

/-!
# Parts of drafts

Reading an element of a list, text or map, a field of an object, the length of what has one, and
the elements that a loop runs through.

A part is read from a shape as it is kept, in the pool or not, and only that part becomes a draft.
`elementAt_mapParts` and `memberOf_mapParts` say that it makes no difference whether the parts
become drafts before or after one of them is chosen.
-/

namespace ConstPool

namespace Draft

variable {ρ τ : Type}

/-- The value of the first entry whose key equals the given one; nothing if there is none. -/
def valueAt (pool : Pool) (draft : ρ → Draft) (key : Draft) :
    List (ρ × ρ) → Except Fault Draft
  | [] => .ok null
  | (k, v) :: rest => do
    if ← equals pool (draft k) key then return draft v
    valueAt pool draft key rest

/-- The part of a shape at an index, an integer for lists and texts and any key for maps, if the
shape can be asked for it. -/
def elementAt (pool : Pool) (draft : ρ → Draft) (position : Draft) :
    Shape ρ τ → Option (Except Fault Draft)
  | .list items =>
    match position.scalar? with
    | some (.int i) => some ((Shape.itemAt items i).map draft)
    | _ => none
  | .text content =>
    match position.scalar? with
    | some (.int i) => some ((Shape.charAt content i).map text)
    | _ => none
  | .map entries => some (valueAt pool draft position entries)
  | .object _ _ => none
  | .type _ _ => none

/-- The part of a draft at an index. -/
def index (pool : Pool) (target position : Draft) : Except Fault Draft := do
  let element :=
    match ← target.contents pool with
    | some (.pooled layer) => elementAt pool atom position layer
    | some (.fresh layer) => elementAt pool id position layer
    | _ => none
  match element with
  | some result => result
  | none => throw (mismatch pool "[]" target position)

/-- The value of a name in a shape, if it has a meaning there. The name `length` gives the length
of what has one; an object has no length, so there it is a field like any other. -/
def memberOf (draft : ρ → Draft) (name : String) : Shape ρ τ → Option (Except Fault Draft)
  | .object className fields =>
    match Shape.field? name fields with
    | some value => some (.ok (draft value))
    | none => some (.error (.runtime (.noField className name)))
  | layer =>
    if name = "length" then layer.length?.map fun n => .ok (int (Int64.ofNat n)) else none

/-- The value of a name in a draft. -/
def member (pool : Pool) (target : Draft) (name : String) : Except Fault Draft := do
  let found :=
    match ← target.contents pool with
    | some (.pooled layer) => memberOf atom name layer
    | some (.fresh layer) => memberOf id name layer
    | _ => none
  match found with
  | some result => result
  | none => throw (.runtime (.noMember (target.typeName pool) name))

/-- What a loop runs through: the items of a list or the keys of a map. -/
def elements (pool : Pool) (source : Draft) : Except Fault (List Draft) := do
  match ← source.shape? pool with
  | some (.list items) => return items.toList
  | some (.map entries) => return entries.map Prod.fst
  | _ => throw (.runtime (.notIterable (source.typeName pool)))

/-! ### Parts and drafts -/

/-- The value of a key in mapped entries: the entries are mapped as they are read. -/
theorem valueAt_map (pool : Pool) (draft : ρ → Draft) (key : Draft) (entries : List (ρ × ρ)) :
    valueAt pool id key (entries.map fun e => (draft e.1, draft e.2)) =
      valueAt pool draft key entries := by
  induction entries with
  | nil => rfl
  | cons e rest ih => simp only [List.map_cons, valueAt, id, ih]

/-- An element is the same whether it becomes a draft before or after it is chosen. -/
theorem elementAt_mapParts (pool : Pool) (draft : ρ → Draft) (arg : τ → Draft)
    (position : Draft) (layer : Shape ρ τ) :
    elementAt pool id position (layer.mapParts draft arg) =
      elementAt pool draft position layer := by
  cases layer with
  | list items =>
    simp only [Shape.mapParts, elementAt, Shape.itemAt_map]
    cases position.scalar? with
    | none => rfl
    | some s => cases s <;> simp [Except.map_id]
  | map entries => simp only [Shape.mapParts, elementAt, valueAt_map]
  | _ => rfl

/-- The value of a name is the same whether it becomes a draft before or after it is chosen. -/
theorem memberOf_mapParts (draft : ρ → Draft) (arg : τ → Draft) (name : String)
    (layer : Shape ρ τ) :
    memberOf id name (layer.mapParts draft arg) = memberOf draft name layer := by
  cases layer with
  | list items => simp [memberOf, Shape.mapParts, Shape.length?]
  | map entries => simp [memberOf, Shape.mapParts, Shape.length?]
  | object className fields =>
    simp only [memberOf, Shape.mapParts, Shape.field?_map]
    cases Shape.field? name fields <;> rfl
  | text content => rfl
  | type typeName args => rfl

end Draft

end ConstPool
