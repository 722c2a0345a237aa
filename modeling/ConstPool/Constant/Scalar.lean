import ConstPool.Number.Decimal

/-!
# Scalar constants

The constants without parts that are kept where they are used: nothing, truth values, integers of
sixty-four bits and doubles. Equality of scalars is identity: an integer never equals a double,
and doubles are equal if their bits are.
-/

namespace ConstPool

/-- A constant without parts. -/
inductive Scalar where
  | null
  | bool (b : Bool)
  | int (n : Int64)
  | double (d : Double)
  deriving DecidableEq

namespace Scalar

/-- The name of the type of a scalar. -/
def typeName : Scalar → String
  | .null => "Null"
  | .bool _ => "bool"
  | .int _ => "int"
  | .double _ => "double"

/-- A scalar as it is shown. -/
def text : Scalar → String
  | .null => "null"
  | .bool true => "true"
  | .bool false => "false"
  | .int n => toString n.toInt
  | .double d => d.text .inValue

end Scalar

end ConstPool
