import ConstPool.Draft.Basic
import ConstPool.Stock

/-!
# Pooling drafts

A draft that leaves a body is pooled from the parts up: scalars stay in place, pooled constants
stay what they are, and a shape is pooled once its parts are. So equal drafts end as the same
constant, however they were made.

In which order the values are pooled does not depend on what it is to pool one of them. So the same
walk through a draft serves where nothing else happens to the stock until the draft is pooled, and
where others pool values in between.

* `Draft.intern`: pools a draft on a stock.
* `Draft.internBy`: the walk through a draft, over what it is to pool one value.
* `Draft.internBy_eq`: on a stock the two are the same.
-/

namespace ConstPool

/-- Pools a layer whose parts are pooled. Fields are put in order once more, which changes
nothing for an object that was made in order. -/
def internLayer (layer : Shape Atom ValueId) : Work Atom := do
  let value : Value :=
    match layer with
    | .object className fields => .object className fields
    | layer => .shape layer
  return .ref (← Work.intern value)

/-- The identity of an atom that is used as the argument of a type. -/
def typeArgument : Atom → Work ValueId
  | .ref id => pure id
  | .scalar s => throw (.breach (.scalarAsType s))

namespace Draft

mutual

/-- Pools a draft, from the parts up, and gives the atom that stands for it. -/
def intern : Draft → Work Atom
  | .atom a => pure a
  | .fresh (.text content) => internLayer (.text content)
  | .fresh (.list ⟨items⟩) => do
    internLayer (.list (← internItems items (.emptyWithCapacity items.length)))
  | .fresh (.map entries) => do internLayer (.map (← internEntries entries))
  | .fresh (.object className fields) => do
    internLayer (.object className (← internFields fields))
  | .fresh (.type name args) => do internLayer (.type name (← internArgs args))

/-- Pools the items of a list, after those that are done. -/
def internItems : List Draft → Array Atom → Work (Array Atom)
  | [], done => pure done
  | item :: rest, done => do
    let atom ← item.intern
    internItems rest (done.push atom)

/-- Pools the entries of a map, each key before its value. -/
def internEntries : List (Draft × Draft) → Work (List (Atom × Atom))
  | [] => pure []
  | (key, value) :: rest => return (← key.intern, ← value.intern) :: (← internEntries rest)

/-- Pools the fields of an object. -/
def internFields : List (String × Draft) → Work (List (String × Atom))
  | [] => pure []
  | (name, value) :: rest => return (name, ← value.intern) :: (← internFields rest)

/-- Pools the arguments of a type. -/
def internArgs : List Draft → Work (List ValueId)
  | [] => pure []
  | arg :: rest => do
    let id ← typeArgument (← arg.intern)
    return id :: (← internArgs rest)

end

/-- Pools a draft that stands for a type, and gives its identity. -/
def internType (d : Draft) : Work ValueId := do typeArgument (← d.intern)

/-! ### The walk through a draft -/

section Walk

variable {m : Type → Type} [Monad m] [MonadExceptOf Fault m] (pool : Value → m ValueId)

/-- Pools a layer whose parts are pooled. -/
def internLayerBy (layer : Shape Atom ValueId) : m Atom := do
  let value : Value :=
    match layer with
    | .object className fields => .object className fields
    | layer => .shape layer
  return .ref (← pool value)

/-- The identity of an atom that is used as the argument of a type. -/
def typeArgumentBy : Atom → m ValueId
  | .ref id => pure id
  | .scalar s => throw (.breach (.scalarAsType s))

mutual

/-- Pools a draft, from the parts up, and gives the atom that stands for it. -/
def internBy : Draft → m Atom
  | .atom a => pure a
  | .fresh (.text content) => internLayerBy pool (.text content)
  | .fresh (.list ⟨items⟩) => do
    internLayerBy pool (.list (← internItemsBy items (.emptyWithCapacity items.length)))
  | .fresh (.map entries) => do internLayerBy pool (.map (← internEntriesBy entries))
  | .fresh (.object className fields) => do
    internLayerBy pool (.object className (← internFieldsBy fields))
  | .fresh (.type name args) => do internLayerBy pool (.type name (← internArgsBy args))

/-- Pools the items of a list, after those that are done. -/
def internItemsBy : List Draft → Array Atom → m (Array Atom)
  | [], done => pure done
  | item :: rest, done => do
    let atom ← internBy item
    internItemsBy rest (done.push atom)

/-- Pools the entries of a map, each key before its value. -/
def internEntriesBy : List (Draft × Draft) → m (List (Atom × Atom))
  | [] => pure []
  | (key, value) :: rest =>
    return (← internBy key, ← internBy value) :: (← internEntriesBy rest)

/-- Pools the fields of an object. -/
def internFieldsBy : List (String × Draft) → m (List (String × Atom))
  | [] => pure []
  | (name, value) :: rest => return (name, ← internBy value) :: (← internFieldsBy rest)

/-- Pools the arguments of a type. -/
def internArgsBy : List Draft → m (List ValueId)
  | [] => pure []
  | arg :: rest => do
    let id ← typeArgumentBy (← internBy arg)
    return id :: (← internArgsBy rest)

end

/-- Pools a draft that stands for a type, and gives its identity. -/
def internTypeBy (d : Draft) : m ValueId := do typeArgumentBy (← d.internBy pool)

end Walk

/-- On a stock, the identity of an atom that is used as an argument is found in the same way. -/
theorem typeArgumentBy_eq (a : Atom) : (typeArgumentBy a : Work ValueId) = typeArgument a := by
  cases a <;> rfl

mutual

/-- On a stock this is how a draft is pooled. -/
theorem internBy_eq : (d : Draft) → d.internBy Work.intern = d.intern
  | .atom _ => by rw [internBy, intern]
  | .fresh (.text _) => by
    rw [internBy, intern]
    rfl
  | .fresh (.list ⟨items⟩) => by
    rw [internBy, intern, internItemsBy_eq items]
    rfl
  | .fresh (.map entries) => by
    rw [internBy, intern, internEntriesBy_eq entries]
    rfl
  | .fresh (.object _ fields) => by
    rw [internBy, intern, internFieldsBy_eq fields]
    rfl
  | .fresh (.type _ args) => by
    rw [internBy, intern, internArgsBy_eq args]
    rfl

/-- The items of a list. -/
theorem internItemsBy_eq : (items : List Draft) →
    internItemsBy Work.intern items = internItems items
  | [] => by
    funext done
    rw [internItemsBy, internItems]
  | item :: rest => by
    funext done
    rw [internItemsBy, internItems, internBy_eq item, internItemsBy_eq rest]

/-- The entries of a map. -/
theorem internEntriesBy_eq : (entries : List (Draft × Draft)) →
    internEntriesBy Work.intern entries = internEntries entries
  | [] => by rw [internEntriesBy, internEntries]
  | (key, value) :: rest => by
    rw [internEntriesBy, internEntries, internBy_eq key, internBy_eq value,
      internEntriesBy_eq rest]

/-- The fields of an object. -/
theorem internFieldsBy_eq : (fields : List (String × Draft)) →
    internFieldsBy Work.intern fields = internFields fields
  | [] => by rw [internFieldsBy, internFields]
  | (_, value) :: rest => by
    rw [internFieldsBy, internFields, internBy_eq value, internFieldsBy_eq rest]

/-- The arguments of a type. -/
theorem internArgsBy_eq : (args : List Draft) → internArgsBy Work.intern args = internArgs args
  | [] => by rw [internArgsBy, internArgs]
  | arg :: rest => by
    rw [internArgsBy, internArgs, internBy_eq arg, internArgsBy_eq rest]
    simp only [typeArgumentBy_eq]

end

/-- A draft that stands for a type. -/
theorem internTypeBy_eq (d : Draft) : d.internTypeBy Work.intern = d.internType := by
  rw [internTypeBy, internType, internBy_eq]
  simp only [typeArgumentBy_eq]

end Draft

end ConstPool
