import ConstPool.Constant.Operators
import ConstPool.Draft.Same

/-!
# Operators on drafts

The operators of the language, on drafts over a pool. Nothing is pooled here. An operator is asked
of two scalars if both operands are held in place, and else of two shapes.

The equalities are asked of drafts of every kind. They compare two scalars as the language does,
where numbers are equal as numbers, and everything else as constants. Any other operator needs
operands of certain kinds; if it has no meaning for them, the fault names the operator and the
types of both.

* `Draft.unary`, `Draft.binary`: the operators.
-/

namespace ConstPool

namespace Draft

/-- The fault of an operator that has no meaning for its operands. -/
def mismatch (pool : Pool) (symbol : String) (left right : Draft) : Fault :=
  .runtime (.operands symbol (left.typeName pool) (right.typeName pool))

/-- The draft of the result of an operator. -/
def ofResult : Scalar ⊕ Shape Draft Draft → Draft
  | .inl s => .scalar s
  | .inr layer => .fresh layer

/-- An operator with one operand. -/
def unary (pool : Pool) (op : UnaryOperator) (operand : Draft) : Except Fault Draft := do
  let result ← match operand.scalar? with
    | some s => s.unary? op
    | none => .ok none
  match result with
  | some s => return scalar s
  | none => throw (.runtime (.operand op.symbol (operand.typeName pool)))

/-- An operator on two drafts that are not both held in place, if it has a meaning for them. -/
def shapeBinary (pool : Pool) (op : BinaryOperator) (left right : Draft) :
    Except Fault (Option Draft) := do
  match ← left.shape? pool, ← right.shape? pool with
  | some x, some y => return (x.binary? op y).map ofResult
  | _, _ => return none

/-- An operator other than the equalities. -/
def combine (pool : Pool) (op : BinaryOperator) (left right : Draft) : Except Fault Draft := do
  let result ← match left.scalar?, right.scalar? with
    | some s, some t => (Option.map scalar) <$> s.binary? op t
    | _, _ => shapeBinary pool op left right
  match result with
  | some d => return d
  | none => throw (mismatch pool op.symbol left right)

/-- An operator with two operands. -/
def binary (pool : Pool) (op : BinaryOperator) (left right : Draft) : Except Fault Draft :=
  match op with
  | .eq => return bool (← equals pool left right)
  | .ne => return bool !(← equals pool left right)
  | op => combine pool op left right

end Draft

end ConstPool
