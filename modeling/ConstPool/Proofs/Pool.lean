import ConstPool.Pool
import ConstPool.Proofs.Layers

/-!
# Sound pools

A pool that grew by handing in values holds no value twice, and its values refer to smaller
identities only. So what an identity stands for is a finite tree, and no two identities could have
been one.

* `Pool.Sound`: the two facts.
* `Pool.Sound.intern`: handing in a value keeps them.
* `Pool.Keeps`: a later pool has all constants of an earlier one.
* `Pool.intern_of_known`: handing in a value whose parts are known never fails.
-/

namespace ConstPool

/-- The identities of a shape are those of its parts and its type arguments. -/
theorem Value.mem_children_shape {layer : Shape Atom ValueId} {id : ValueId} :
    id ∈ (Value.shape layer).children ↔ .ref id ∈ layer.partList ∨ id ∈ layer.argList := by
  have hrefs : ∀ a : Atom, id ∈ a.refs ↔ a = .ref id := by
    intro a
    cases a <;> simp [Atom.refs, eq_comm]
  rw [children, Shape.mem_parts]
  simp [hrefs]

namespace Pool

/-- No value stands in the pool twice, and every value refers to smaller identities only. -/
structure Sound (pool : Pool) : Prop where
  unique : ∀ {i j value}, pool.get? i = some value → pool.get? j = some value → i = j
  smaller : ∀ {id value}, pool.get? id = some value → ∀ child ∈ value.children,
    child.index < id.index

/-- A pool that has all constants of another one. -/
def Keeps (p q : Pool) : Prop := ∀ id value, p.get? id = some value → q.get? id = some value

/-- A pool keeps its own constants. -/
theorem Keeps.refl (p : Pool) : Keeps p p := fun _ _ h => h

/-- What is kept twice is kept. -/
theorem Keeps.trans {p q r : Pool} (h : Keeps p q) (h' : Keeps q r) : Keeps p r :=
  fun id value hv => h' id value (h id value hv)

/-- A later pool answers as the earlier one did. -/
theorem Keeps.atomOf {p q : Pool} (h : Keeps p q) {id : ValueId} {a : Atom}
    (ha : p.atomOf id = .ok a) : q.atomOf id = .ok a := by
  unfold Pool.atomOf at ha ⊢
  rcases hp : p.get id with f | value
  · rw [hp] at ha
    cases ha
  · rw [get_eq_ok_iff.2 (h id value (get_eq_ok_iff.1 hp)), ← hp]
    exact ha

/-- The empty pool has no constant that could lack a part. -/
theorem sound_empty : Sound {} where
  unique {i j value} h := by
    have hnone : ({} : Pool).get? i = none := by simp [get?, OrderedSet.empty]
    rw [hnone] at h
    cases h
  smaller {id value} h := by
    have hnone : ({} : Pool).get? id = none := by simp [get?, OrderedSet.empty]
    rw [hnone] at h
    cases h

/-! ### Reading after handing in -/

/-- A constant is known exactly below the size of the pool. -/
theorem get?_eq_none_iff {pool : Pool} {id : ValueId} :
    pool.get? id = none ↔ pool.size ≤ id.index := by
  simp [get?, size, OrderedSet.size]

/-- An identity that has a value is below the size. -/
theorem lt_size_of_get? {pool : Pool} {id : ValueId} {value : Value}
    (h : pool.get? id = some value) : id.index < pool.size :=
  get?_isSome_iff.1 (Option.isSome_iff_exists.2 ⟨value, h⟩)

/-- The identity of a value that is in the pool has this value. -/
theorem get?_of_idOf? {pool : Pool} {value : Value} {id : ValueId}
    (h : pool.idOf? value = some id) : pool.get? id = some value := by
  obtain ⟨place, hplace, rfl⟩ := Option.map_eq_some_iff.1 h
  exact OrderedSet.getElem?_of_indexOf? hplace

/-- A value that has an identity is found in the pool. -/
theorem idOf?_ne_none_of_get? {pool : Pool} {value : Value} {id : ValueId}
    (h : pool.get? id = some value) : pool.idOf? value ≠ none := by
  intro hnone
  exact idOf?_eq_none_iff.1 hnone (Array.mem_of_getElem? h)

/-- The pool with a new value at its end. -/
theorem get?_insert_values {pool : Pool} {value : Value} {requests shared : Nat}
    (hnew : pool.idOf? value = none) (id : ValueId) :
    Pool.get? { values := pool.values.insert value, requests, shared } id =
      if id.index = pool.size then some value else pool.get? id := by
  have hmem : value ∉ pool.values.items := idOf?_eq_none_iff.1 hnew
  simp only [get?, OrderedSet.items_insert_of_not_mem hmem, Array.getElem?_push, size,
    OrderedSet.size]
  rfl

/-- What handing in a value whose parts are known comes to: an identity with this value in a pool
that keeps all others, and nothing else is new. -/
structure Interned (p q : Pool) (value : Value) (id : ValueId) : Prop where
  keeps : Keeps p q
  get : q.get? id = some value
  added : ∀ {i v}, q.get? i = some v → p.get? i = some v ∨ (i = id ∧ v = value)
  sound : p.Sound → q.Sound

/-- A sound pool with a new value at its end is sound if the parts of the value are known. -/
theorem Sound.insert_values {pool : Pool} (h : pool.Sound) {value : Value} {requests shared : Nat}
    (hnew : pool.idOf? value = none) (hknown : ∀ child ∈ value.children, child.index < pool.size) :
    Sound { values := pool.values.insert value, requests, shared } := by
  refine ⟨?_, ?_⟩
  · intro i j v hi hj
    rw [get?_insert_values hnew] at hi hj
    split at hi
    · next hi' =>
      cases hi
      split at hj
      · next hj' => exact congrArg ValueId.mk (hi'.trans hj'.symm)
      · exact absurd hnew (idOf?_ne_none_of_get? hj)
    · split at hj
      · cases hj
        exact absurd hnew (idOf?_ne_none_of_get? hi)
      · exact h.unique hi hj
  · intro i v hi child hchild
    rw [get?_insert_values hnew] at hi
    split at hi
    · next hi' =>
      cases hi
      rw [hi']
      exact hknown child hchild
    · exact h.smaller hi child hchild

/-- Handing in a value whose parts are known never fails. -/
theorem intern_of_known {pool : Pool} {value : Value}
    (hknown : ∀ child ∈ value.children, child.index < pool.size) :
    ∃ id q, pool.intern value = (.ok id, q) ∧ Interned pool q value id := by
  rcases hid : pool.idOf? value with _ | id
  · have hdangling : pool.dangling? value = none := by
      rw [dangling?, List.find?_eq_none]
      intro child hchild
      have := hknown child hchild
      simpa using this
    refine ⟨_, _, intern_of_new hid hdangling, ?_, ?_, ?_, fun h => h.insert_values hid hknown⟩
    · intro id v hv
      have hlt := lt_size_of_get? hv
      rw [get?_insert_values hid, if_neg (by omega), hv]
    · rw [get?_insert_values hid, if_pos rfl]
    · intro i v hv
      rw [get?_insert_values hid] at hv
      split at hv
      · next hi => exact .inr ⟨congrArg ValueId.mk hi, (Option.some.inj hv).symm⟩
      · exact .inl hv
  · refine ⟨_, _, intern_of_mem hid, ?_⟩
    exact ⟨fun _ _ h => h, get?_of_idOf? hid, fun h => .inl h, fun h => ⟨h.unique, h.smaller⟩⟩

/-- A value of which a part is not known changes no constant. -/
theorem get?_intern_of_not_known {pool : Pool} {value : Value}
    (h : ¬ ∀ child ∈ value.children, child.index < pool.size) (id : ValueId) :
    (pool.intern value).2.get? id = pool.get? id := by
  rcases hid : pool.idOf? value with _ | found
  · have hdangling : ∃ missing, pool.dangling? value = some missing := by
      rw [← Option.isSome_iff_exists, dangling?, List.find?_isSome]
      simpa using h
    obtain ⟨missing, hmissing⟩ := hdangling
    rw [intern_of_dangling hid hmissing]
    rfl
  · rw [intern_of_mem hid]
    rfl

/-- Handing in a value keeps all constants, whatever comes of it. -/
theorem keeps_intern (pool : Pool) (value : Value) : Keeps pool (pool.intern value).2 := by
  by_cases hknown : ∀ child ∈ value.children, child.index < pool.size
  · obtain ⟨id, q, hq, hi⟩ := intern_of_known hknown
    rw [hq]
    exact hi.keeps
  · exact fun id v hv => (get?_intern_of_not_known hknown id).trans hv

/-- Handing in a value keeps a pool sound and its constants, whatever comes of it. -/
theorem Sound.intern {pool : Pool} (h : pool.Sound) (value : Value) :
    (pool.intern value).2.Sound ∧ Keeps pool (pool.intern value).2 := by
  refine ⟨?_, pool.keeps_intern value⟩
  by_cases hknown : ∀ child ∈ value.children, child.index < pool.size
  · obtain ⟨id, q, hq, hi⟩ := intern_of_known hknown
    rw [hq]
    exact hi.sound h
  · have hget := get?_intern_of_not_known hknown
    refine ⟨fun {i j v} hi hj => ?_, fun {id v} hv => ?_⟩
    · rw [hget] at hi hj
      exact h.unique hi hj
    · rw [hget] at hv
      exact h.smaller hv

/-- Nothing is new but the value that is handed in, and only if its parts are known. -/
theorem eq_of_get?_intern {pool : Pool} {value v : Value} {id : ValueId}
    (hnone : pool.get? id = none) (hget : (pool.intern value).2.get? id = some v) :
    v = value ∧ ∀ child ∈ value.children, child.index < pool.size := by
  by_cases hknown : ∀ child ∈ value.children, child.index < pool.size
  · obtain ⟨id', q, hq, hi⟩ := intern_of_known hknown
    rw [hq] at hget
    rcases hi.added hget with hold | ⟨-, hv⟩
    · cases hnone.symm.trans hold
    · exact ⟨hv, hknown⟩
  · rw [get?_intern_of_not_known hknown, hnone] at hget
    cases hget

end Pool

end ConstPool
