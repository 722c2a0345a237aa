import ConstPool.OrderedSet

/-!
# Insertion-ordered maps

The tables of a program, the verdicts on its declarations and the outcomes of its call sites are
all read back in the order in which their keys first appeared. An `OrderedMap` is the set of its
keys in that order beside an array of their values: inserting at a key that is present changes its
value and not its place, inserting at a new key puts the entry last.

* `get?_insert`: reading after a write.
* `get?_insert_self`, `get?_insert_of_ne`: the same for the key of the write and for others.
* `keys_insert_of_not_mem`: where a new key stands.
-/

namespace ConstPool

/-- A finite map in the order in which its keys were first inserted. -/
structure OrderedMap (α β : Type) [DecidableEq α] [Key α] where
  /-- The keys, oldest first. -/
  keySet : OrderedSet α
  /-- The values, in the order of their keys. -/
  column : Array β
  /-- Every key has a value. -/
  size_column : column.size = keySet.items.size

namespace OrderedMap

variable {α β : Type} [DecidableEq α] [Key α]

/-- The map without entries. -/
def empty : OrderedMap α β where
  keySet := .empty
  column := #[]
  size_column := rfl

instance : EmptyCollection (OrderedMap α β) := ⟨empty⟩

instance : Inhabited (OrderedMap α β) := ⟨empty⟩

/-- The keys, oldest first. -/
def keys (m : OrderedMap α β) : List α := m.keySet.toList

/-- The values, in the order of their keys. -/
def values (m : OrderedMap α β) : List β := m.column.toList

/-- The entries, oldest key first. -/
def entries (m : OrderedMap α β) : List (α × β) := m.keys.zip m.values

/-- The number of entries. -/
def size (m : OrderedMap α β) : Nat := m.keySet.size

/-- The value at a key. -/
def get? (m : OrderedMap α β) (key : α) : Option β :=
  match m.keySet.indexOf? key with
  | some place => m.column[place]?
  | none => none

/-- Whether a key has a value. -/
def contains (m : OrderedMap α β) (key : α) : Bool := m.keySet.contains key

/-- The map with `value` at `key`. A key that is present keeps its place. -/
def insert (m : OrderedMap α β) (key : α) (value : β) : OrderedMap α β :=
  let ⟨keySet, column, size_column⟩ := m
  match h : keySet.indexOf? key with
  | some place =>
    { keySet, column := column.setIfInBounds place value, size_column := by simp [size_column] }
  | none =>
    { keySet := keySet.append key h
      column := column.push value
      size_column := by simp [size_column] }

/-- The map that arises from writing the entries of a list one after another, so that a
repeated key keeps its first place and takes its last value. -/
def ofList (entries : List (α × β)) : OrderedMap α β :=
  entries.foldl (fun m e => m.insert e.1 e.2) empty

/-! ### The two ways of a write -/

/-- The value of a key stands in the place that the key has among the keys. -/
theorem get?_eq (m : OrderedMap α β) (key : α) :
    m.get? key = (m.keySet.indexOf? key).bind fun place => m.column[place]? := by
  rw [get?]
  cases m.keySet.indexOf? key <;> rfl

/-- A write at a key that is present changes the value in its place. -/
theorem insert_of_some {m : OrderedMap α β} {key : α} {place : Nat}
    (h : m.keySet.indexOf? key = some place) (value : β) :
    (m.insert key value).keySet = m.keySet ∧
      (m.insert key value).column = m.column.setIfInBounds place value := by
  obtain ⟨keySet, column, size_column⟩ := m
  simp only [insert]
  split
  · next p hp =>
    cases (hp.symm.trans h)
    exact ⟨rfl, rfl⟩
  · next hp => cases (hp.symm.trans h)

/-- A write at a new key puts both the key and the value last. -/
theorem insert_of_none {m : OrderedMap α β} {key : α} 
    (h : m.keySet.indexOf? key = none) (value : β) :
    (m.insert key value).keySet = m.keySet.insert key ∧
      (m.insert key value).column = m.column.push value := by
  obtain ⟨keySet, column, size_column⟩ := m
  simp only [insert]
  split
  · next p hp => cases (hp.symm.trans h)
  · exact ⟨(OrderedSet.insert_of_indexOf?_eq_none h).symm, rfl⟩

/-- An insertion adds its key to the keys. -/
theorem keySet_insert (m : OrderedMap α β) (key : α) (value : β) :
    (m.insert key value).keySet = m.keySet.insert key := by
  cases h : m.keySet.indexOf? key with
  | none => exact (insert_of_none h value).1
  | some place =>
    rw [(insert_of_some h value).1, OrderedSet.insert_of_mem]
    exact OrderedSet.exists_indexOf?_iff.1 ⟨place, h⟩

/-! ### Reading after a write -/

/-- The empty map has no values. -/
@[simp] theorem get?_empty (key : α) : (empty : OrderedMap α β).get? key = none := by
  simp [get?_eq, empty, OrderedSet.indexOf?_eq, OrderedSet.empty]

/-- A key has a value exactly if reading gives one. -/
theorem contains_eq (m : OrderedMap α β) (key : α) : m.contains key = (m.get? key).isSome := by
  rw [get?_eq, contains, OrderedSet.contains]
  cases h : m.keySet.indexOf? key with
  | none => rfl
  | some place =>
    have hp := (Array.getElem?_eq_some_iff.1 (OrderedSet.getElem?_of_indexOf? h)).1
    simp [m.size_column, hp]

/-- A write is read back at its own key and changes no other. -/
theorem get?_insert (m : OrderedMap α β) (key : α) (value : β) (key' : α) :
    (m.insert key value).get? key' = if key' = key then some value else m.get? key' := by
  cases h : m.keySet.indexOf? key with
  | some place =>
    have hplace := OrderedSet.getElem?_of_indexOf? h
    have hsize := (Array.getElem?_eq_some_iff.1 hplace).1
    -- the key keeps its place; the value there is overwritten and no other place changes
    rw [get?_eq, (insert_of_some h value).1, (insert_of_some h value).2, get?_eq]
    by_cases hk : key' = key
    · subst hk
      simp [h, m.size_column, hsize]
    · cases h' : m.keySet.indexOf? key' with
      | none => simp [hk]
      | some place' =>
        have hne : place ≠ place' := by
          rintro rfl
          exact hk (Option.some.inj ((OrderedSet.getElem?_of_indexOf? h').symm.trans hplace))
        simp [hk, Array.getElem?_setIfInBounds_ne hne]
  | none =>
    -- the key comes last, so the places of the others are what they were
    rw [get?_eq, (insert_of_none h value).1, (insert_of_none h value).2, get?_eq]
    rw [OrderedSet.indexOf?_insert]
    by_cases hk : key' = key
    · subst hk
      simp [h, OrderedSet.size, ← m.size_column]
    · cases h' : m.keySet.indexOf? key' with
      | none => simp [hk]
      | some place' =>
        have hp := (Array.getElem?_eq_some_iff.1 (OrderedSet.getElem?_of_indexOf? h')).1
        simp [hk, Array.getElem?_push_lt (m.size_column ▸ hp)]

/-- What was inserted last is found. -/
@[simp] theorem get?_insert_self (m : OrderedMap α β) (key : α) (value : β) :
    (m.insert key value).get? key = some value := by
  simp [get?_insert]

/-- The values of other keys stay. -/
theorem get?_insert_of_ne (m : OrderedMap α β) {key key' : α} (h : key' ≠ key) (value : β) :
    (m.insert key value).get? key' = m.get? key' := by
  simp [get?_insert, h]

/-! ### The order of the keys -/

/-- A write at a new key puts the key last. -/
theorem keys_insert_of_not_mem {m : OrderedMap α β} {key : α} (h : key ∉ m.keys) (value : β) :
    (m.insert key value).keys = m.keys ++ [key] := by
  have h' : key ∉ m.keySet.items := fun hm => h (OrderedSet.mem_toList.2 hm)
  simp [keys, keySet_insert, OrderedSet.toList, OrderedSet.items_insert_of_not_mem h']

end OrderedMap

end ConstPool
