import Std.Data.TreeMap.Lemmas

/-!
# Keys

A type whose values can be looked up fast: its values have digests, by which most of them are told
apart at once, and an order, which tells all of them apart. Digests need not differ for different
values; looking up is right whatever they are, and the order keeps it fast even where they are
all the same.

Pairs, sums, lists and arrays of keys are keys. Every other key is made of these by `Key.via`, from
a function that loses nothing.
-/

namespace ConstPool

/-- A type whose values have digests and an order in which only equal values are equal. -/
class Key (α : Type) where
  /-- The digest of a value. -/
  digest : α → Nat
  /-- The order of two values. -/
  order : α → α → Ordering
  trans : Std.TransCmp order
  lawful : Std.LawfulEqCmp order

namespace Key

attribute [instance] trans lawful

/-- Two values are equal exactly if neither comes before the other. -/
theorem order_eq_iff {α : Type} [Key α] {x y : α} : order x y = .eq ↔ x = y :=
  Std.LawfulEqCmp.compare_eq_iff_eq

/-- A digest out of two digests. It stays below a bound, so that digests of large values remain
small numbers. -/
def mix (a b : Nat) : Nat := (a * 1103515245 + b + 12345) % 2147483647

/-- A digest of a word: its two halves, one laid over the other. -/
def ofWord (w : UInt64) : Nat := (w ^^^ (w >>> 32)).toUInt32.toNat

variable {α β : Type}

/-- The values of a type as keys, by a function that maps different values to different keys. -/
@[reducible] def via [Key β] (f : α → β) (injective : ∀ {x y}, f x = f y → x = y) : Key α where
  digest x := digest (f x)
  order x y := order (f x) (f y)
  trans :=
    { eq_swap := Std.OrientedCmp.eq_swap
      isLE_trans := Std.TransCmp.isLE_trans }
  lawful :=
    { compare_self := Std.ReflCmp.compare_self
      eq_of_compare := fun h => injective (order_eq_iff.1 h) }

/-! ### Numbers and texts -/

instance : Key Nat where
  digest := id
  order := compare
  trans := inferInstance
  lawful := inferInstance

instance : Key String where
  digest := String.utf8ByteSize
  order := compare
  trans := inferInstance
  lawful := inferInstance

/-! ### Pairs and sums -/

instance [Key α] [Key β] : Key (α × β) where
  digest x := mix (digest x.1) (digest x.2)
  order := compareLex (fun x y => order x.1 y.1) fun x y => order x.2 y.2
  trans :=
    haveI : Std.TransCmp fun (x y : α × β) => order x.1 y.1 :=
      { eq_swap := Std.OrientedCmp.eq_swap, isLE_trans := Std.TransCmp.isLE_trans }
    haveI : Std.TransCmp fun (x y : α × β) => order x.2 y.2 :=
      { eq_swap := Std.OrientedCmp.eq_swap, isLE_trans := Std.TransCmp.isLE_trans }
    inferInstance
  lawful :=
    { compare_self := by simp [compareLex]
      eq_of_compare := by
        intro x y h
        simp only [compareLex, Ordering.then_eq_eq, order_eq_iff] at h
        exact Prod.ext h.1 h.2 }

/-- The order of a sum: the left values come before the right ones. -/
def sumOrder [Key α] [Key β] : α ⊕ β → α ⊕ β → Ordering
  | .inl x, .inl y => order x y
  | .inl _, .inr _ => .lt
  | .inr _, .inl _ => .gt
  | .inr x, .inr y => order x y

instance [Key α] [Key β] : Std.TransCmp (sumOrder : α ⊕ β → α ⊕ β → Ordering) where
  eq_swap {x y} := by
    cases x <;> cases y <;> simp only [sumOrder, Ordering.swap_lt, Ordering.swap_gt]
    all_goals exact Std.OrientedCmp.eq_swap
  isLE_trans {x y z} hxy hyz := by
    cases x <;> cases y <;> cases z <;>
      simp only [sumOrder, Ordering.isLE_lt, Ordering.isLE_gt, Bool.false_eq_true] at hxy hyz ⊢
    all_goals exact Std.TransCmp.isLE_trans hxy hyz

instance [Key α] [Key β] : Std.LawfulEqCmp (sumOrder : α ⊕ β → α ⊕ β → Ordering) where
  compare_self {x} := by
    cases x
    all_goals exact Std.ReflCmp.compare_self
  eq_of_compare {x y} h := by
    cases x <;> cases y <;> simp only [sumOrder, order_eq_iff, reduceCtorEq] at h
    all_goals rw [h]

instance [Key α] [Key β] : Key (α ⊕ β) where
  digest
    | .inl x => mix 1 (digest x)
    | .inr y => mix 2 (digest y)
  order := sumOrder
  trans := inferInstance
  lawful := inferInstance

/-! ### Lists and arrays -/

instance [Key α] : Key (List α) where
  digest xs := xs.foldl (fun acc x => mix acc (digest x)) xs.length
  order := List.compareLex order
  trans := inferInstance
  lawful := inferInstance

instance [Key α] : Key (Array α) where
  digest xs := xs.foldl (fun acc x => mix acc (digest x)) xs.size
  order := Array.compareLex order
  trans := inferInstance
  lawful := inferInstance

end Key

end ConstPool
