import ConstPool.Constant.Shape
import ConstPool.Fault.Basic
import ConstPool.Number.Integer
import ConstPool.Text.Place

/-!
# Operators on scalars and shapes

What the operators of the language do to scalars, and to texts and lists, whatever the parts of
these are. The operands of an operator decide its meaning: two integers are computed exactly, an
integer and a double as doubles, and then there are truth values, texts and lists.

* `Scalar.unary?`, `Scalar.binary?`: the operators on scalars, other than the equalities.
* `Scalar.equals`: the operator `==` on scalars.
* `Scalar.intBinary`: integer arithmetic, which fails where the result is no word.
* `Shape.binary?`: the operators on texts and lists.
* `Shape.itemAt`, `Shape.charAt`: the elements of lists and texts.
-/

namespace ConstPool

namespace Scalar

/-- An operator on one scalar, if it has a meaning for it. -/
def unary? (op : UnaryOperator) (operand : Scalar) : Except Fault (Option Scalar) :=
  match op, operand with
  | .negate, .int n =>
    match Integer.narrow? (-n.toInt) with
    | some w => .ok (some (.int w))
    | none => .error (.runtime (.negateOverflow n))
  | .negate, .double d => .ok (some (.double d.neg))
  | .not, .bool b => .ok (some (.bool !b))
  | .complement, .int n => .ok (some (.int (~~~n)))
  | _, _ => .ok none

/-! ### Numbers -/

/-- The number that a scalar is, as a double. -/
def number? : Scalar → Option Double
  | .int n => some (.ofInt n.toInt)
  | .double d => some d
  | _ => none

/-- The result of an integer operator, if there is a word for it. -/
@[inline] def exact (op : BinaryOperator) (a b : Int64) (result : Option Int64) :
    Except Fault Scalar :=
  match result with
  | some w => .ok (.int w)
  | none => .error (.runtime (.overflow op a b))

/-- An operator on two integers. The quotient is rounded toward zero; the remainder is not
negative, and has no result where the quotient that belongs to it is no word. -/
def intBinary (op : BinaryOperator) (a b : Int64) : Except Fault Scalar :=
  match op with
  | .add => exact op a b (Integer.add? a b)
  | .sub => exact op a b (Integer.sub? a b)
  | .mul => exact op a b (Integer.mul? a b)
  | .div => .ok (.double ((Double.ofInt a.toInt).div (.ofInt b.toInt)))
  | .intDiv =>
    if b = 0 then .error (.runtime (.divisionByZero op a))
    else exact op a b (Integer.narrow? (a.toInt.tdiv b.toInt))
  | .mod =>
    if b = 0 then .error (.runtime (.divisionByZero op a))
    else if (Integer.narrow? (a.toInt / b.toInt)).isNone then
      .error (.runtime (.overflow op a b))
    else exact op a b (Integer.narrow? (a.toInt % b.toInt))
  | .eq => .ok (.bool (decide (a = b)))
  | .ne => .ok (.bool (decide (a ≠ b)))
  | .lt => .ok (.bool (decide (a < b)))
  | .le => .ok (.bool (decide (a ≤ b)))
  | .gt => .ok (.bool (decide (b < a)))
  | .ge => .ok (.bool (decide (b ≤ a)))
  | .bitAnd => .ok (.int (a &&& b))
  | .bitOr => .ok (.int (a ||| b))
  | .bitXor => .ok (.int (a ^^^ b))
  | .shiftLeft =>
    if 0 ≤ b ∧ b < 64 then .ok (.int (a <<< b)) else .error (.runtime (.shiftAmount b))
  | .shiftRight =>
    if 0 ≤ b ∧ b < 64 then .ok (.int (a >>> b)) else .error (.runtime (.shiftAmount b))

/-- The quotient of two doubles rounded toward zero, if it is an integer of the language. -/
def truncatedQuotient (x y : Double) : Except Fault Scalar :=
  match (x.div y).truncate?.bind Integer.narrow? with
  | some w => .ok (.int w)
  | none => .error (.runtime (.quotientRange x y))

/-- An operator on two doubles, if it has a meaning for them. -/
def doubleBinary (op : BinaryOperator) (x y : Double) : Except Fault (Option Scalar) :=
  match op with
  | .add => return some (.double (x.add y))
  | .sub => return some (.double (x.sub y))
  | .mul => return some (.double (x.mul y))
  | .div => return some (.double (x.div y))
  | .mod => return some (.double (x.euclideanRem y))
  | .intDiv => return some (← truncatedQuotient x y)
  | .eq => return some (.bool (x.numEq y))
  | .ne => return some (.bool !(x.numEq y))
  | .lt => return some (.bool (x.lt y))
  | .le => return some (.bool (x.le y))
  | .gt => return some (.bool (y.lt x))
  | .ge => return some (.bool (y.le x))
  | .bitAnd | .bitOr | .bitXor | .shiftLeft | .shiftRight => return none

/-- An operator on two truth values, if it has a meaning for them. -/
def boolBinary (op : BinaryOperator) (a b : Bool) : Option Scalar :=
  match op with
  | .bitAnd => some (.bool (a && b))
  | .bitOr => some (.bool (a || b))
  | .bitXor => some (.bool (a != b))
  | _ => none

/-! ### Two scalars -/

/-- An operator other than the equalities on two scalars, if it has a meaning for them. An integer
and a double are computed as doubles. -/
def binary? (op : BinaryOperator) (left right : Scalar) : Except Fault (Option Scalar) :=
  match left, right with
  | .int a, .int b => return some (← intBinary op a b)
  | .bool a, .bool b => .ok (boolBinary op a b)
  | left, right =>
    match left.number?, right.number? with
    | some x, some y => doubleBinary op x y
    | _, _ => .ok none

/-- The operator `==` on two scalars: two integers are compared exactly, other pairs of numbers as
doubles, and all else by identity. -/
def equals (left right : Scalar) : Bool :=
  match left, right with
  | .int a, .int b => decide (a = b)
  | left, right =>
    match left.number?, right.number? with
    | some x, some y => x.numEq y
    | _, _ => decide (left = right)

end Scalar

namespace Shape

variable {ρ τ : Type}

/-- An operator on two texts, if it has a meaning for them: it gives a truth value or a text. Texts
are ordered by their characters. -/
def textBinary? (op : BinaryOperator) (x y : String) : Option (Scalar ⊕ Shape ρ τ) :=
  match op with
  | .add => some (.inr (.text (x ++ y)))
  | .lt => some (.inl (.bool (decide (x < y))))
  | .le => some (.inl (.bool !(decide (y < x))))
  | .gt => some (.inl (.bool (decide (y < x))))
  | .ge => some (.inl (.bool !(decide (x < y))))
  | _ => none

/-- An operator other than the equalities on two shapes, if it has a meaning for them. -/
def binary? (op : BinaryOperator) : Shape ρ τ → Shape ρ τ → Option (Scalar ⊕ Shape ρ τ)
  | .text x, .text y => textBinary? op x y
  | .list xs, .list ys =>
    match op with
    | .add => some (.inr (.list (xs ++ ys)))
    | _ => none
  | _, _ => none

/-! ### Elements -/

/-- The place that an index stands for, if it is not negative. -/
def place? (index : Int64) : Option Nat :=
  if 0 ≤ index.toInt then some index.toInt.toNat else none

/-- The element of a list at an index. -/
def itemAt (items : Array ρ) (index : Int64) : Except Fault ρ :=
  match (place? index).bind fun i => items[i]? with
  | some item => .ok item
  | none => .error (.runtime (.listIndex index items.size))

/-- The character of a text at an index, as a text. -/
def charAt (content : String) (index : Int64) : Except Fault String :=
  match (place? index).bind fun i => Text.charAt? content i with
  | some c => .ok (String.ofList [c])
  | none => .error (.runtime (.textIndex index content.length))

/-- The item at an index of a mapped list is the mapped item. -/
theorem itemAt_map {σ : Type} (f : ρ → σ) (items : Array ρ) (index : Int64) :
    itemAt (items.map f) index = (itemAt items index).map f := by
  cases h : place? index with
  | none => simp [itemAt, h, Except.map]
  | some i => cases hi : items[i]? <;> simp [itemAt, h, hi, Except.map]

end Shape

end ConstPool
