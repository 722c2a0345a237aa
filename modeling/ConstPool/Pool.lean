import ConstPool.Fault.Basic
import ConstPool.Constant.Key
import ConstPool.OrderedSet

/-!
# The pool of constants

The pool holds every shared constant once. A constant is handed in with `intern`: if an equal value
is there, its identity is the answer, else the value gets the next free identity. A value may only
refer to constants that are in the pool already, so references always lead to smaller identities.

The pool is the place where constants become comparable: two constants in it are equal if and only
if they have one identity, as long as every value is handed in with its parts in one form. Nothing
is ever taken out of it or changed in it. So what an identity stands for stays the same while the
pool grows, and whoever holds an identity may keep it.

The identities are natural numbers and the pool has no greatest size. A table with identities of 32
bits is such a pool until it has `2 ^ 32` constants; see `intern`.

* `get_eq_ok_iff`: an identity is known exactly if it lies in the pool.
* `intern_of_mem`, `intern_of_dangling`, `intern_of_new`: the three outcomes of `intern`.
-/

namespace ConstPool

/-- The shared constants in the order of their identities, and how often values were handed in
and found to be there already. -/
structure Pool where
  values : OrderedSet Value := .empty
  requests : Nat := 0
  shared : Nat := 0

namespace Pool

/-- The number of constants in the pool. -/
def size (pool : Pool) : Nat := pool.values.size

/-- The value of an identity, if it is known. -/
def get? (pool : Pool) (id : ValueId) : Option Value := pool.values.items[id.index]?

/-- The value of an identity; an unknown identity is a breach. -/
def get (pool : Pool) (id : ValueId) : Except Fault Value :=
  match pool.get? id with
  | some value => .ok value
  | none => .error (.breach (.unknownValue id))

/-- The identity of a value that is in the pool. -/
def idOf? (pool : Pool) (value : Value) : Option ValueId :=
  (pool.values.indexOf? value).map ValueId.mk

/-- The first identity a value refers to that is not in the pool. -/
def dangling? (pool : Pool) (value : Value) : Option ValueId :=
  value.children.find? fun child => pool.size ≤ child.index

/-- Hands in a value. The answer is the identity of the equal value in the pool, or a new identity;
a value that refers to an unknown constant is refused. The pool counts the request in every case.

Identities are natural numbers, so there is always a next one. Where they have 32 bits, a new value
is refused with a breach once the pool has `2 ^ 32` constants (`constant table exceeds u32::MAX
entries`). That refusal is left out: what is said about pools is said of those that stay below this
size. -/
def intern (value : Value) (pool : Pool) : Except Fault ValueId × Pool :=
  let counted := { pool with requests := pool.requests + 1 }
  match h : pool.values.indexOf? value with
  | some place => (.ok ⟨place⟩, { counted with shared := pool.shared + 1 })
  | none =>
    match pool.dangling? value with
    | some missing => (.error (.breach (.danglingReference value missing)), counted)
    | none => (.ok ⟨pool.size⟩, { counted with values := pool.values.append value h })

/-- Hands in an atom: a scalar becomes a constant of its own, an identity has to be known. -/
def internAtom (atom : Atom) (pool : Pool) : Except Fault ValueId × Pool :=
  match atom with
  | .ref id => ((pool.get id).map fun _ => id, pool)
  | .scalar s => pool.intern (.scalar s)

/-- The atom that stands for a constant as a part: a scalar is kept in place. -/
def atomOf (pool : Pool) (id : ValueId) : Except Fault Atom := do
  match ← pool.get id with
  | .scalar s => return .scalar s
  | .shape _ => return .ref id

/-- The scalar that an atom stands for, directly or by an identity. -/
def scalarOf (pool : Pool) : Atom → Except Fault (Option Scalar)
  | .scalar s => .ok (some s)
  | .ref id => do
    match ← pool.get id with
    | .scalar s => return some s
    | .shape _ => return none

/-! ### Reading -/

/-- Reading an identity succeeds exactly if it has a value. -/
theorem get_eq_ok_iff {pool : Pool} {id : ValueId} {value : Value} :
    pool.get id = .ok value ↔ pool.get? id = some value := by
  unfold get
  cases pool.get? id <;> simp

/-- Only a value that is not in the pool has no identity. -/
theorem idOf?_eq_none_iff {pool : Pool} {value : Value} :
    pool.idOf? value = none ↔ value ∉ pool.values.items := by
  simp [idOf?, OrderedSet.indexOf?_eq_none_iff]

/-- The identities that have values are those below the size. -/
theorem get?_isSome_iff {pool : Pool} {id : ValueId} :
    (pool.get? id).isSome ↔ id.index < pool.size := by
  simp [get?, size, OrderedSet.size]

/-! ### The outcomes of handing in a value -/

/-- A value of the pool is shared, and both counters go up. -/
theorem intern_of_mem {pool : Pool} {value : Value} {id : ValueId}
    (h : pool.idOf? value = some id) :
    pool.intern value =
      (.ok id, { pool with requests := pool.requests + 1, shared := pool.shared + 1 }) := by
  obtain ⟨place, hplace, rfl⟩ := Option.map_eq_some_iff.1 h
  unfold intern
  split
  · next found hfound =>
    cases hfound.symm.trans hplace
    rfl
  · next hnone => cases hnone.symm.trans hplace

/-- A new value with an unknown part is refused, and only the request is counted. -/
theorem intern_of_dangling {pool : Pool} {value : Value} {missing : ValueId}
    (hnew : pool.idOf? value = none) (h : pool.dangling? value = some missing) :
    pool.intern value =
      (.error (.breach (.danglingReference value missing)),
        { pool with requests := pool.requests + 1 }) := by
  unfold intern
  split
  · next hfound => cases hfound.symm.trans (Option.map_eq_none_iff.1 hnew)
  · simp [h]

/-- A new value whose parts are known is put last. -/
theorem intern_of_new {pool : Pool} {value : Value}
    (hnew : pool.idOf? value = none) (h : pool.dangling? value = none) :
    pool.intern value =
      (.ok ⟨pool.size⟩,
        { pool with requests := pool.requests + 1, values := pool.values.insert value }) := by
  have hnone := Option.map_eq_none_iff.1 hnew
  unfold intern
  split
  · next hfound => cases hfound.symm.trans hnone
  · simp [h, OrderedSet.insert_of_indexOf?_eq_none hnone]

end Pool

end ConstPool
