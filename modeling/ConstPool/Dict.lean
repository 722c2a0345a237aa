import ConstPool.Key

/-!
# Maps for fast reading

The pool, the uses of constants and the cache of results grow while bodies run, and every step
looks something up in them. A `Dict` is a map for this purpose: a binary tree whose nodes stand for
one digest each. The bits of a digest, the lowest first, are the way to its node, so a way is no
longer than a digest has bits.

A node holds the first key of its digest. Further keys of that digest are rare; they are kept in
their order, so that looking up takes few steps even among many of them. The laws below hold
whatever the digests are.

* `get?_insert`: reading after a write.
* `size_insert`: the number of entries after a write.
* `get?_ofList`, `get?_group`: dictionaries made of lists.
-/

namespace ConstPool

/-- Keys of one digest with their values, in the order of the keys. -/
abbrev Namesakes (α β : Type) [Key α] := Std.TreeMap α β Key.order

/-- A finite map as a tree. A node holds an entry, the other entries of the same digest, the ways
that go on with the bit zero, and those that go on with the bit one. -/
inductive Dict (α β : Type) [Key α] where
  | empty
  | node (digest : Nat) (key : α) (value : β) (others : Namesakes α β) (zeros ones : Dict α β)

namespace Dict

variable {α β : Type} [Key α]

instance : EmptyCollection (Dict α β) := ⟨empty⟩

instance : Inhabited (Dict α β) := ⟨empty⟩

/-- The number of entries. -/
def size : Dict α β → Nat
  | .empty => 0
  | .node _ _ _ others zeros ones => others.size + 1 + zeros.size + ones.size

/-- The empty dictionary has no keys. -/
@[simp] theorem size_empty : (empty : Dict α β).size = 0 := rfl

variable [DecidableEq α]

/-- The value at a key of the given digest, in the part of a tree to which the remaining bits
lead. -/
@[specialize] def getAt (digest : Nat) (key : α) : (bits : Nat) → Dict α β → Option β
  | _, .empty => none
  | bits, .node d k v others zeros ones =>
    if digest = d then if key = k then some v else others[key]?
    else if bits % 2 = 0 then getAt digest key (bits / 2) zeros
    else getAt digest key (bits / 2) ones

/-- Writes an entry in the part of a tree to which the remaining bits lead. -/
@[specialize] def insertAt (digest : Nat) (key : α) (value : β) :
    (bits : Nat) → Dict α β → Dict α β
  | _, .empty => .node digest key value ∅ .empty .empty
  | bits, .node d k v others zeros ones =>
    if digest = d then
      if key = k then .node d k value others zeros ones
      else .node d k v (others.insert key value) zeros ones
    else if bits % 2 = 0 then
      .node d k v others (insertAt digest key value (bits / 2) zeros) ones
    else .node d k v others zeros (insertAt digest key value (bits / 2) ones)

/-- The value at a key. -/
@[specialize] def get? (m : Dict α β) (key : α) : Option β :=
  let digest := Key.digest key
  m.getAt digest key digest

/-- Whether a key has a value. -/
@[specialize] def contains (m : Dict α β) (key : α) : Bool := (m.get? key).isSome

/-- The map with `value` at `key`. -/
@[specialize] def insert (m : Dict α β) (key : α) (value : β) : Dict α β :=
  let digest := Key.digest key
  m.insertAt digest key value digest

/-- The map with one entry. -/
def one (key : α) (value : β) : Dict α β := empty.insert key value

/-- The map of a list of entries, of which the first at a key counts. -/
def ofList (entries : List (α × β)) : Dict α β :=
  entries.foldr (fun e m => m.insert e.1 e.2) .empty

/-- The values at every key of a list, in the order of the list. -/
def group (entries : List (α × β)) : Dict α (List β) :=
  entries.foldr (fun e m => m.insert e.1 (e.2 :: (m.get? e.1).getD [])) .empty

/-! ### One digest after a write -/

/-- In a branch, an insertion changes what is found under its key only, as long as both keys have
one digest. -/
theorem getAt_insertAt (digest : Nat) (key : α) (value : β) (key' : α) (bits : Nat)
    (m : Dict α β) :
    (m.insertAt digest key value bits).getAt digest key' bits =
      if key' = key then some value else m.getAt digest key' bits := by
  induction m generalizing bits with
  | empty => simp [insertAt, getAt]
  | node d k v others zeros ones ihz iho =>
    by_cases hd : digest = d
    · by_cases hk : key = k
      · by_cases hk' : key' = key <;> simp_all [insertAt, getAt]
      · by_cases hk' : key' = k
        · have hne : ¬ key' = key := fun h => hk (h.symm.trans hk')
          simp [insertAt, getAt, hd, hk, hk', Ne.symm hk]
        · simp [insertAt, getAt, hd, hk, hk', Std.TreeMap.getElem?_insert, eq_comm (a := key)]
    · by_cases hb : bits % 2 = 0 <;> simp [insertAt, getAt, hd, hb, ihz, iho]

/-- Keys with another digest are not touched, however deep the branch is. -/
theorem getAt_insertAt_of_ne {digest digest' : Nat} (h : digest' ≠ digest) (key : α) (value : β)
    (key' : α) (bits bits' : Nat) (m : Dict α β) :
    (m.insertAt digest key value bits).getAt digest' key' bits' =
      m.getAt digest' key' bits' := by
  induction m generalizing bits bits' with
  | empty => simp [insertAt, getAt, h]
  | node d k v others zeros ones ihz iho =>
    by_cases hd : digest = d
    · subst hd
      by_cases hk : key = k <;> simp [insertAt, getAt, h, hk]
    · by_cases hb : bits % 2 = 0 <;> simp [insertAt, getAt, hd, hb, ihz, iho]

/-! ### Reading after a write -/

/-- The empty dictionary has no values. -/
@[simp] theorem get?_empty (key : α) : (empty : Dict α β).get? key = none := rfl

/-- A write is read back at its own key and changes no other. -/
theorem get?_insert (m : Dict α β) (key : α) (value : β) (key' : α) :
    (m.insert key value).get? key' = if key' = key then some value else m.get? key' := by
  unfold get? insert
  by_cases hd : Key.digest key' = Key.digest key
  · simp only [hd, getAt_insertAt]
  · have hk : key' ≠ key := fun h => hd (congrArg _ h)
    simp only [getAt_insertAt_of_ne hd, hk, if_false]

/-- What was inserted last is found. -/
@[simp] theorem get?_insert_self (m : Dict α β) (key : α) (value : β) :
    (m.insert key value).get? key = some value := by
  simp [get?_insert]

/-- The values of other keys stay. -/
theorem get?_insert_of_ne (m : Dict α β) {key key' : α} (h : key' ≠ key) (value : β) :
    (m.insert key value).get? key' = m.get? key' := by
  simp [get?_insert, h]

/-- The keys after an insertion are those before it and the new one. -/
theorem contains_insert (m : Dict α β) (key : α) (value : β) (key' : α) :
    (m.insert key value).contains key' = (decide (key' = key) || m.contains key') := by
  rw [contains, contains, get?_insert]
  by_cases h : key' = key <;> simp [h]

/-! ### The number of entries -/

/-- An insertion into a branch adds a key if it was not there, and replaces its value if it was. -/
theorem size_insertAt (digest : Nat) (key : α) (value : β) (bits : Nat) (m : Dict α β) :
    (m.insertAt digest key value bits).size =
      if (m.getAt digest key bits).isSome then m.size else m.size + 1 := by
  induction m generalizing bits with
  | empty => rfl
  | node d k v others zeros ones ihz iho =>
    by_cases hd : digest = d
    · by_cases hk : key = k
      · simp [insertAt, getAt, hd, hk, size]
      · simp only [insertAt, getAt, hd, hk, if_true, if_false, size, Std.TreeMap.size_insert,
          Std.TreeMap.contains_eq_isSome_getElem?]
        split <;> omega
    · by_cases hb : bits % 2 = 0
      · simp only [insertAt, getAt, hd, hb, if_true, if_false, size, ihz]
        split <;> omega
      · simp only [insertAt, getAt, hd, hb, if_false, size, iho]
        split <;> omega

/-- A write adds an entry exactly if the key was not present. -/
theorem size_insert (m : Dict α β) (key : α) (value : β) :
    (m.insert key value).size = if m.contains key then m.size else m.size + 1 :=
  size_insertAt _ key value _ m

/-! ### Dictionaries made of lists -/

/-- A dictionary made of a list is read as the list is. -/
theorem get?_ofList (entries : List (α × β)) (key : α) :
    (ofList entries).get? key = entries.lookup key := by
  induction entries with
  | nil => rfl
  | cons e rest ih =>
    obtain ⟨k, v⟩ := e
    have h : ofList ((k, v) :: rest) = (ofList rest).insert k v := rfl
    by_cases hk : key = k
    · simp [h, hk]
    · simp [h, get?_insert, List.lookup_cons, hk, beq_eq_false_iff_ne.2 hk, ih]

/-- The group of a key has the values that the list has at the key. -/
theorem get?_group (entries : List (α × β)) (key : α) :
    ((group entries).get? key).getD [] =
      entries.filterMap fun e => if e.1 = key then some e.2 else none := by
  induction entries with
  | nil => rfl
  | cons e rest ih =>
    have h : group (e :: rest) =
        (group rest).insert e.1 (e.2 :: ((group rest).get? e.1).getD []) := rfl
    by_cases hk : e.1 = key
    · subst hk
      simp [h, ih]
    · have hk' : key ≠ e.1 := fun h => hk h.symm
      simp [h, get?_insert, hk, hk', ih]

end Dict

end ConstPool
