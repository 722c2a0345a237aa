import ConstPool.Constant.Operators
import ConstPool.Draft.Basic

/-!
# Sameness of drafts

Two drafts are the same if they would be the same constant once pooled. Two pooled constants are
the same if their identities are; two drafts of which one is not pooled are compared part by part,
and a part that is pooled is opened only as far as the other side reaches.

* `Draft.agrees`: a draft against an atom of the pool.
* `Draft.same`: two drafts.
* `Draft.equals`: the operator `==`, which compares numbers as numbers.
-/

namespace ConstPool

namespace Draft

/-! ### A draft against the pool -/

mutual

/-- Whether a draft is the constant that an atom stands for. -/
def agrees (pool : Pool) : Draft → Atom → Except Fault Bool
  | .scalar s, .scalar t => .ok (decide (s = t))
  | .pooled i, .ref j => .ok (decide (i = j))
  | .scalar _, .ref _ => .ok false
  | .pooled _, .scalar _ => .ok false
  | .fresh _, .scalar _ => .ok false
  | .fresh (.text x), .ref id => do
    match ← pool.get id with
    | .shape (.text y) => return decide (x = y)
    | _ => return false
  | .fresh (.list ⟨xs⟩), .ref id => do
    match ← pool.get id with
    | .shape (.list ys) =>
      if xs.length = ys.size then agreeItems pool xs ys.toList else return false
    | _ => return false
  | .fresh (.map xs), .ref id => do
    match ← pool.get id with
    | .shape (.map ys) => agreeEntries pool xs ys
    | _ => return false
  | .fresh (.object c xs), .ref id => do
    match ← pool.get id with
    | .shape (.object d ys) => if c = d then agreeFields pool xs ys else return false
    | _ => return false
  | .fresh (.type m xs), .ref id => do
    match ← pool.get id with
    | .shape (.type n ys) => if m = n then agreeArgs pool xs ys else return false
    | _ => return false

/-- Whether the items of two lists agree one by one. -/
def agreeItems (pool : Pool) : List Draft → List Atom → Except Fault Bool
  | [], [] => .ok true
  | x :: xs, y :: ys => do if ← x.agrees pool y then agreeItems pool xs ys else return false
  | _, _ => .ok false

/-- Whether the arguments of two types agree one by one. -/
def agreeArgs (pool : Pool) : List Draft → List ValueId → Except Fault Bool
  | [], [] => .ok true
  | x :: xs, y :: ys => do
    if ← x.agrees pool (.ref y) then agreeArgs pool xs ys else return false
  | _, _ => .ok false

/-- Whether the entries of two maps agree one by one, keys before values. -/
def agreeEntries (pool : Pool) : List (Draft × Draft) → List (Atom × Atom) → Except Fault Bool
  | [], [] => .ok true
  | (k, v) :: xs, (k', v') :: ys => do
    if ← k.agrees pool k' then
      if ← v.agrees pool v' then agreeEntries pool xs ys else return false
    else return false
  | _, _ => .ok false

/-- Whether the fields of two objects agree one by one, in name and value. -/
def agreeFields (pool : Pool) :
    List (String × Draft) → List (String × Atom) → Except Fault Bool
  | [], [] => .ok true
  | (n, v) :: xs, (n', v') :: ys => do
    if n = n' then
      if ← v.agrees pool v' then agreeFields pool xs ys else return false
    else return false
  | _, _ => .ok false

end

/-! ### Two drafts -/

mutual

/-- Whether two drafts are the same constant. -/
def same (pool : Pool) : Draft → Draft → Except Fault Bool
  | .scalar s, .scalar t => .ok (decide (s = t))
  | .pooled i, .pooled j => .ok (decide (i = j))
  | .scalar _, .pooled _ => .ok false
  | .scalar _, .fresh _ => .ok false
  | .pooled _, .scalar _ => .ok false
  | .fresh _, .scalar _ => .ok false
  | .fresh x, .pooled j => (fresh x).agrees pool (.ref j)
  | .pooled i, .fresh y => (fresh y).agrees pool (.ref i)
  | .fresh (.text x), .fresh (.text y) => .ok (decide (x = y))
  | .fresh (.list ⟨xs⟩), .fresh (.list ⟨ys⟩) =>
    if xs.length = ys.length then sameItems pool xs ys else .ok false
  | .fresh (.map xs), .fresh (.map ys) =>
    if xs.length = ys.length then sameEntries pool xs ys else .ok false
  | .fresh (.object c xs), .fresh (.object d ys) =>
    if c = d ∧ xs.length = ys.length then sameFields pool xs ys else .ok false
  | .fresh (.type m xs), .fresh (.type n ys) =>
    if m = n ∧ xs.length = ys.length then sameItems pool xs ys else .ok false
  | .fresh _, .fresh _ => .ok false
termination_by structural d => d

/-- Whether the items of two lists are the same one by one. -/
def sameItems (pool : Pool) : List Draft → List Draft → Except Fault Bool
  | [], [] => .ok true
  | x :: xs, y :: ys => do if ← x.same pool y then sameItems pool xs ys else return false
  | _, _ => .ok false
termination_by structural d => d

/-- Whether the entries of two maps are the same one by one, keys before values. -/
def sameEntries (pool : Pool) : List (Draft × Draft) → List (Draft × Draft) → Except Fault Bool
  | [], [] => .ok true
  | (k, v) :: xs, (k', v') :: ys => do
    if ← k.same pool k' then
      if ← v.same pool v' then sameEntries pool xs ys else return false
    else return false
  | _, _ => .ok false
termination_by structural d => d

/-- Whether the fields of two objects are the same one by one, in name and value. -/
def sameFields (pool : Pool) :
    List (String × Draft) → List (String × Draft) → Except Fault Bool
  | [], [] => .ok true
  | (n, v) :: xs, (n', v') :: ys => do
    if n = n' then
      if ← v.same pool v' then sameFields pool xs ys else return false
    else return false
  | _, _ => .ok false
termination_by structural d => d

end

/-! ### Equality of the language -/

/-- The operator `==`: scalars that are held in place are compared as scalars, and all else by
sameness. -/
def equals (pool : Pool) (left right : Draft) : Except Fault Bool :=
  match left.scalar?, right.scalar? with
  | some s, some t => .ok (s.equals t)
  | _, _ => left.same pool right

end Draft

end ConstPool
