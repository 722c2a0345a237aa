/-!
# Operators

The operators that combine values which are both computed first. The connectives `&&`, `||` and
`??`, which may leave their right operand alone, are expressions of their own.
-/

namespace ConstPool

/-- The operators with one operand. -/
inductive UnaryOperator where
  | negate
  | not
  | complement
  deriving DecidableEq, Repr

/-- An operator as it is written. -/
def UnaryOperator.symbol : UnaryOperator → String
  | .negate => "-"
  | .not => "!"
  | .complement => "~"

/-- The operators with two operands. `div` divides as doubles, `intDiv` to an integer. -/
inductive BinaryOperator where
  | add | sub | mul | div | intDiv | mod
  | eq | ne | lt | le | gt | ge
  | bitAnd | bitOr | bitXor | shiftLeft | shiftRight
  deriving DecidableEq, Repr

/-- An operator as it is written. -/
def BinaryOperator.symbol : BinaryOperator → String
  | .add => "+"
  | .sub => "-"
  | .mul => "*"
  | .div => "/"
  | .intDiv => "~/"
  | .mod => "%"
  | .eq => "=="
  | .ne => "!="
  | .lt => "<"
  | .le => "<="
  | .gt => ">"
  | .ge => ">="
  | .bitAnd => "&"
  | .bitOr => "|"
  | .bitXor => "^"
  | .shiftLeft => "<<"
  | .shiftRight => ">>"

end ConstPool
