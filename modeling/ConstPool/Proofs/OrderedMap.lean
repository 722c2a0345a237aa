import Mathlib.Data.List.Induction
import Mathlib.Data.List.Nodup
import ConstPool.OrderedMap

/-!
# Entries of maps with an order

* `OrderedMap.nodup_keys_insert`, `OrderedMap.nodup_keys_ofList`: no key stands in a map twice.
* `OrderedMap.get?_of_mem_entries`: an entry is found by its key.
* `OrderedMap.get?_ofList_map`: a map of a list whose values were computed one by one.
-/

namespace ConstPool.OrderedMap

variable {α β γ : Type} [DecidableEq α] [Key α] {m : OrderedMap α β} {key : α} {value : β}

/-! ### Keys -/

/-- The test for a key finds the keys. -/
theorem contains_iff : m.contains key ↔ key ∈ m.keys := by
  rw [contains, OrderedSet.contains_iff, keys, OrderedSet.mem_toList]

/-- The keys are what has a value. -/
theorem get?_isSome_iff : (m.get? key).isSome ↔ key ∈ m.keys := by
  rw [← contains_eq, contains_iff]

/-- A key that is found is present. -/
theorem mem_keys_of_get? (h : m.get? key = some value) : key ∈ m.keys := by
  rw [← get?_isSome_iff, h]
  rfl

/-- A key that is present is found. -/
theorem exists_of_mem_keys (h : key ∈ m.keys) : ∃ value, m.get? key = some value :=
  Option.isSome_iff_exists.1 (get?_isSome_iff.2 h)

/-- The keys after an insertion are those before it and the new one. -/
theorem mem_keys_insert {key' : α} : key' ∈ (m.insert key value).keys ↔
    key' ∈ m.keys ∨ key' = key := by
  rw [keys, keySet_insert, keys, OrderedSet.mem_toList, OrderedSet.mem_toList,
    OrderedSet.mem_items_insert]

/-- An insertion repeats no key. -/
theorem nodup_keys_insert (h : m.keys.Nodup) (key : α) (value : β) :
    (m.insert key value).keys.Nodup := by
  rw [keys, keySet_insert]
  exact OrderedSet.nodup_insert key h

/-- What is there when a new key has been inserted. -/
theorem get?_insert_of_new (h : m.get? key = none) {value value' : β} {key' : α} :
    (m.insert key value).get? key' = some value' ↔
      m.get? key' = some value' ∨ key' = key ∧ value = value' := by
  by_cases hkey : key' = key
  · rw [hkey, get?_insert_self, h]
    simp
  · simp [get?_insert_of_ne _ hkey, hkey]

/-- The value of a new key comes last. -/
theorem values_insert_of_new (h : m.contains key = false) (value : β) :
    (m.insert key value).values = m.values ++ [value] := by
  have hnone : m.keySet.indexOf? key = none := by
    rw [contains, OrderedSet.contains] at h
    exact Option.isNone_iff_eq_none.1 (by simpa using h)
  rw [values, (insert_of_none hnone value).2, Array.toList_push, values]

/-! ### Entries -/

/-- There are as many keys as values. -/
theorem length_keys (m : OrderedMap α β) : m.keys.length = m.values.length := by
  simp [keys, values, OrderedSet.toList, m.size_column]

/-- The first components of the entries are the keys. -/
theorem map_fst_entries (m : OrderedMap α β) : m.entries.map Prod.fst = m.keys := by
  rw [entries, List.map_fst_zip (Nat.le_of_eq m.length_keys)]

/-- The second components of the entries are the values. -/
theorem map_snd_entries (m : OrderedMap α β) : m.entries.map Prod.snd = m.values := by
  rw [entries, List.map_snd_zip (Nat.le_of_eq m.length_keys.symm)]

/-- In a map without repeated keys an entry is found by its key. -/
theorem get?_of_mem_entries (h : m.keys.Nodup) {e : α × β} (he : e ∈ m.entries) :
    m.get? e.1 = some e.2 := by
  obtain ⟨i, hi, rfl⟩ := List.mem_iff_getElem.1 he
  simp only [entries, List.getElem_zip]
  have hkeys : i < m.keys.length := by
    have := m.length_keys
    simp only [entries, List.length_zip] at hi
    omega
  have hvalues : i < m.values.length := by rwa [← m.length_keys]
  obtain ⟨place, hplace⟩ := OrderedSet.exists_indexOf?_iff.2
    (OrderedSet.mem_toList.1 (List.getElem_mem hkeys))
  have hget : m.keys[place]? = some m.keys[i] := by
    show m.keySet.items.toList[place]? = _
    rw [Array.getElem?_toList]
    exact OrderedSet.getElem?_of_indexOf? hplace
  obtain ⟨hlt, heq⟩ := List.getElem?_eq_some_iff.1 hget
  have hsame : place = i := (List.Nodup.getElem_inj_iff h).1 heq
  rw [get?_eq, hplace, hsame]
  show m.column[i]? = some (m.column.toList.get ⟨i, hvalues⟩)
  rw [← Array.getElem?_toList]
  exact List.getElem?_eq_getElem hvalues

/-- A value that is found stands in an entry. -/
theorem mem_entries_of_get? (h : m.get? key = some value) : (key, value) ∈ m.entries := by
  rw [get?_eq] at h
  obtain ⟨place, hplace, hvalue⟩ := Option.bind_eq_some_iff.1 h
  have hkey := OrderedSet.getElem?_of_indexOf? hplace
  refine List.mem_iff_getElem?.2 ⟨place, ?_⟩
  rw [entries, List.getElem?_zip_eq_some]
  constructor
  · rw [keys, OrderedSet.toList, Array.getElem?_toList]
    exact hkey
  · rw [values, Array.getElem?_toList]
    exact hvalue

/-- A write at a new key puts the entry last. -/
theorem entries_insert_of_new (h : m.get? key = none) (value : β) :
    (m.insert key value).entries = m.entries ++ [(key, value)] := by
  have hcontains : m.contains key = false := by rw [contains_eq, h, Option.isSome_none]
  have hmem : key ∉ m.keys := by
    rw [← contains_iff, hcontains]
    exact Bool.false_ne_true
  rw [entries, keys_insert_of_not_mem hmem, values_insert_of_new hcontains,
    List.zip_append m.length_keys, entries]
  rfl

/-! ### Maps of lists -/

/-- Entries are inserted from the first to the last. -/
theorem ofList_append (xs ys : List (α × β)) :
    ofList (xs ++ ys) = ys.foldl (fun m e => m.insert e.1 e.2) (ofList xs) := by
  rw [ofList, List.foldl_append, ← ofList]

/-- A map from a list repeats no key, even if the list does. -/
theorem nodup_keys_ofList (xs : List (α × β)) : (ofList xs).keys.Nodup := by
  induction xs using List.reverseRecOn with
  | nil => exact .nil
  | append_singleton xs e ih =>
    rw [ofList_append]
    exact nodup_keys_insert ih e.1 e.2

/-- What is found in the map of a list stands in the list. -/
theorem mem_of_get?_ofList {xs : List (α × β)} (h : (ofList xs).get? key = some value) :
    (key, value) ∈ xs := by
  induction xs using List.reverseRecOn with
  | nil => simp [ofList] at h
  | append_singleton xs e ih =>
    rw [ofList_append] at h
    simp only [List.foldl_cons, List.foldl_nil, get?_insert] at h
    split at h
    · next hkey =>
      cases h
      rw [hkey]
      exact List.mem_append_right _ (List.mem_singleton_self _)
    · exact List.mem_append_left _ (ih h)

/-- The keys of the map of a list are those of the list. -/
theorem mem_keys_ofList {xs : List (α × β)} : key ∈ (ofList xs).keys ↔ ∃ e ∈ xs, e.1 = key := by
  induction xs using List.reverseRecOn with
  | nil => simp [ofList, keys, empty, OrderedSet.toList, OrderedSet.empty]
  | append_singleton xs e ih =>
    rw [ofList_append]
    simp only [List.foldl_cons, List.foldl_nil, mem_keys_insert, ih, List.mem_append,
      List.mem_singleton]
    constructor
    · rintro (⟨e', he', hkey⟩ | rfl)
      · exact ⟨e', .inl he', hkey⟩
      · exact ⟨e, .inr rfl, rfl⟩
    · rintro ⟨e', he' | rfl, hkey⟩
      · exact .inl ⟨e', he', hkey⟩
      · exact .inr hkey.symm

/-- A map of a list whose values were computed one by one. -/
theorem get?_ofList_map (f : α → β → γ) (xs : List (α × β)) (key : α) :
    (ofList (xs.map fun e => (e.1, f e.1 e.2))).get? key =
      ((ofList xs).get? key).map (f key) := by
  induction xs using List.reverseRecOn with
  | nil => simp [ofList]
  | append_singleton xs e ih =>
    rw [List.map_append, ofList_append, ofList_append]
    simp only [List.map_cons, List.map_nil, List.foldl_cons, List.foldl_nil, get?_insert]
    split
    · next hkey => rw [hkey, Option.map_some]
    · exact ih

end ConstPool.OrderedMap
