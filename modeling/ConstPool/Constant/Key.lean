import ConstPool.Constant.Value
import ConstPool.Key

/-!
# Constants as keys

The pool finds a constant by its value, so values are keys. A value goes over into a sum of pairs
that holds the number of its case and all of its parts; a list and a map of the same parts, or an
integer and a double of the same bits, are told apart by the case.

A code is injective, so a dictionary that finds values by their codes tells values apart exactly if
they differ. How codes are digested to numbers does not matter to what is found, but only to how
fast.
-/

namespace ConstPool

instance : Key ValueId := .via ValueId.index fun {x y} h => by
  cases x
  cases y
  exact congrArg ValueId.mk h

/-- A scalar as the number of its case and the number it holds. -/
def Scalar.code : Scalar → Nat × Nat
  | .null => (0, 0)
  | .bool b => (1, b.toNat)
  | .int n => (2, n.toBitVec.toNat)
  | .double d => (3, d.bits.toNat)

/-- Scalars with one code are the same. -/
theorem Scalar.code_injective {x y : Scalar} (h : x.code = y.code) : x = y := by
  rcases x with _ | ⟨_ | _⟩ | n | ⟨⟨d⟩⟩ <;> rcases y with _ | ⟨_ | _⟩ | m | ⟨⟨e⟩⟩ <;>
    simp_all [Scalar.code, BitVec.toNat_inj, Int64.toBitVec_inj, UInt64.toNat_inj]

/-- The digest of a scalar. -/
def Scalar.digest : Scalar → Nat
  | .null => 1
  | .bool b => if b then 3 else 2
  | .int n => Key.ofWord n.toUInt64
  | .double d => Key.mix 5 (Key.ofWord d.bits)

instance : Key Scalar :=
  { Key.via Scalar.code Scalar.code_injective with digest := Scalar.digest }

/-- An atom as a scalar or an identity. -/
def Atom.code : Atom → Scalar ⊕ ValueId
  | .scalar s => .inl s
  | .ref id => .inr id

/-- Operands with one code are the same. -/
theorem Atom.code_injective {x y : Atom} (h : x.code = y.code) : x = y := by
  cases x <;> cases y <;> simp_all [Atom.code]

/-- The digest of an atom. -/
def Atom.digest : Atom → Nat
  | .scalar s => s.digest
  | .ref id => Key.mix 7 id.index

instance : Key Atom := { Key.via Atom.code Atom.code_injective with digest := Atom.digest }

/-- A shape as one of five cases with its parts. -/
def Shape.code {ρ τ : Type} : Shape ρ τ →
    (String ⊕ Array ρ) ⊕ List (ρ × ρ) ⊕ (String × List (String × ρ)) ⊕ (String × List τ)
  | .text content => .inl (.inl content)
  | .list items => .inl (.inr items)
  | .map entries => .inr (.inl entries)
  | .object className fields => .inr (.inr (.inl (className, fields)))
  | .type name args => .inr (.inr (.inr (name, args)))

instance {ρ τ : Type} [Key ρ] [Key τ] : Key (Shape ρ τ) := .via Shape.code fun {x y} h => by
  cases x <;> cases y <;> simp_all [Shape.code]

/-- A value as a scalar or a shape. -/
def Value.code : Value → Scalar ⊕ Shape Atom ValueId
  | .scalar s => .inl s
  | .shape layer => .inr layer

instance : Key Value := .via Value.code fun {x y} h => by
  cases x <;> cases y <;> simp_all [Value.code]

end ConstPool
