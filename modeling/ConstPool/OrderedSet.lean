import ConstPool.Dict

/-!
# Insertion-ordered sets

An `OrderedSet` is an array of items beside a dictionary of their places, so that an item is found
without a search. The dictionary says of every item where it stands first, and of all else that it
is not there; that is part of the type.

* `indexOf?_eq`, `contains_iff`: what the dictionary answers.
* `insert_of_mem`, `items_insert_of_not_mem`: an item is added at most once, at the end.
-/

namespace ConstPool

/-- A finite set in the order in which its items were inserted. -/
structure OrderedSet (α : Type) [DecidableEq α] [Key α] where
  /-- The items, oldest first. -/
  items : Array α
  /-- The place of every item. -/
  places : Dict α Nat
  /-- The places are those of the items. -/
  agrees : ∀ x, places.get? x = items.idxOf? x

namespace OrderedSet

/-- An item put last is found behind all others, unless it was there already. -/
theorem idxOf?_push {α : Type} [DecidableEq α] (items : Array α) (x y : α) :
    (items.push x).idxOf? y =
      (items.idxOf? y).or (if x = y then some items.size else none) := by
  obtain ⟨items⟩ := items
  by_cases h : x = y <;>
    simp [List.idxOf?_toArray, List.idxOf?, List.findIdx?_append, List.findIdx?_cons, h]

variable {α : Type} [DecidableEq α] [Key α]

/-- The set without items. -/
def empty : OrderedSet α where
  items := #[]
  places := .empty
  agrees := by simp

instance : EmptyCollection (OrderedSet α) := ⟨empty⟩

instance : Inhabited (OrderedSet α) := ⟨empty⟩

/-- The items as a list, oldest first. -/
def toList (s : OrderedSet α) : List α := s.items.toList

/-- The number of items. -/
def size (s : OrderedSet α) : Nat := s.items.size

/-- The place of an item. -/
def indexOf? (s : OrderedSet α) (x : α) : Option Nat := s.places.get? x

/-- Whether an item is in the set. -/
def contains (s : OrderedSet α) (x : α) : Bool := (s.indexOf? x).isSome

/-- The places stay those of the items when a new item is put last. -/
theorem agrees_push {items : Array α} {places : Dict α Nat} {x : α}
    (agrees : ∀ y, places.get? y = items.idxOf? y) (h : places.get? x = none) (y : α) :
    (places.insert x items.size).get? y = (items.push x).idxOf? y := by
  rw [Dict.get?_insert, idxOf?_push, ← agrees]
  by_cases hy : y = x
  · subst hy
    simp [h]
  · have hx : x ≠ y := fun h => hy h.symm
    simp [hy, hx]

/-- The set with an item that is not there, at the end. The new place is taken before the array
grows, so that it can grow where it is. -/
def append (s : OrderedSet α) (x : α) (h : s.indexOf? x = none) : OrderedSet α :=
  let places := s.places.insert x s.items.size
  { items := s.items.push x, places, agrees := agrees_push s.agrees h }

/-- The set with an item, at the end unless it is there. -/
def insert (s : OrderedSet α) (x : α) : OrderedSet α :=
  if h : s.indexOf? x = none then s.append x h else s

/-! ### What the dictionary answers -/

/-- The place that is found is that in the list of items. -/
theorem indexOf?_eq (s : OrderedSet α) (x : α) : s.indexOf? x = s.items.idxOf? x := s.agrees x

/-- The test finds the items. -/
theorem contains_iff {s : OrderedSet α} {x : α} : s.contains x ↔ x ∈ s.items := by
  simp [contains, indexOf?_eq]

/-- What stands at the place of an item is the item. -/
theorem getElem?_of_indexOf? {s : OrderedSet α} {x : α} {i : Nat} (h : s.indexOf? x = some i) :
    s.items[i]? = some x := by
  obtain ⟨⟨items⟩, places, agrees⟩ := s
  simp only [indexOf?, agrees, List.idxOf?_toArray, List.idxOf?,
    List.findIdx?_eq_some_iff_getElem, beq_iff_eq] at h
  obtain ⟨hi, rfl, -⟩ := h
  simp [hi]

/-- An item has a place exactly if it is in the set. -/
theorem exists_indexOf?_iff {s : OrderedSet α} {x : α} :
    (∃ i, s.indexOf? x = some i) ↔ x ∈ s.items := by
  rw [← contains_iff, contains, Option.isSome_iff_exists]

/-- Only what is no item has no place. -/
theorem indexOf?_eq_none_iff {s : OrderedSet α} {x : α} :
    s.indexOf? x = none ↔ x ∉ s.items := by
  simp [indexOf?_eq]

/-- The list has the items. -/
@[simp] theorem mem_toList {s : OrderedSet α} {x : α} : x ∈ s.toList ↔ x ∈ s.items := by
  simp [toList]

/-! ### The items after an insertion -/

/-- A new item is put last. -/
@[simp] theorem items_append (s : OrderedSet α) (x : α) (h : s.indexOf? x = none) :
    (s.append x h).items = s.items.push x := rfl

/-- Inserting an item that is not there puts it last. -/
theorem insert_of_indexOf?_eq_none {s : OrderedSet α} {x : α} (h : s.indexOf? x = none) :
    s.insert x = s.append x h := by
  simp [insert, h]

/-- Inserting an item that is there changes nothing. -/
theorem insert_of_mem {s : OrderedSet α} {x : α} (h : x ∈ s.items) : s.insert x = s := by
  have h' : s.indexOf? x ≠ none := fun hn => indexOf?_eq_none_iff.1 hn h
  simp [insert, h']

/-- An item that is not there is put last. -/
theorem items_insert_of_not_mem {s : OrderedSet α} {x : α} (h : x ∉ s.items) :
    (s.insert x).items = s.items.push x := by
  rw [insert_of_indexOf?_eq_none (indexOf?_eq_none_iff.2 h), items_append]

/-- A new item stands at the end of the list. -/
theorem toList_insert_of_not_mem {s : OrderedSet α} {x : α} (h : x ∉ s.toList) :
    (s.insert x).toList = s.toList ++ [x] := by
  rw [toList, items_insert_of_not_mem fun hx => h (mem_toList.2 hx), Array.toList_push, toList]

/-- The items after an insertion are those before it and the new one. -/
@[simp] theorem mem_items_insert {s : OrderedSet α} {x y : α} :
    y ∈ (s.insert x).items ↔ y ∈ s.items ∨ y = x := by
  by_cases h : x ∈ s.items
  · rw [insert_of_mem h]
    constructor
    · exact .inl
    · rintro (hy | rfl)
      · exact hy
      · exact h
  · simp [items_insert_of_not_mem h]

/-- Inserting gives a new item the first free place and moves no other. -/
theorem indexOf?_insert (s : OrderedSet α) (x y : α) :
    (s.insert x).indexOf? y = (s.indexOf? y).or (if y = x then some s.size else none) := by
  by_cases h : x ∈ s.items
  · rw [insert_of_mem h]
    by_cases hy : y = x
    · obtain ⟨i, hi⟩ := exists_indexOf?_iff.2 h
      simp [hy, hi]
    · simp [hy]
  · rw [indexOf?_eq, items_insert_of_not_mem h, idxOf?_push, indexOf?_eq, size]
    simp only [eq_comm]

/-- Inserting keeps the items distinct. -/
theorem nodup_insert {s : OrderedSet α} (x : α) (h : s.toList.Nodup) :
    (s.insert x).toList.Nodup := by
  by_cases hx : x ∈ s.items
  · rwa [insert_of_mem hx]
  · have hx' : ∀ a ∈ s.items.toList, a ≠ x := fun a ha he => hx (he ▸ Array.mem_def.2 ha)
    simpa [toList, items_insert_of_not_mem hx, List.nodup_append, hx'] using
      ⟨h, fun a ha => hx' a (Array.mem_def.1 ha)⟩

end OrderedSet

end ConstPool
