/-!
# Rounding a quotient to the nearest integer

Both the conversion of an exact value to a double and the writing of a double with a fixed
number of places round a quotient of natural numbers to the nearest integer and send a tie to
the even neighbour. It is one function, so that the two agree: what a double is read from and what
it is written as are rounded alike.

* `roundHalfEven`: the nearest integer, by the quotient and the rest of the division.
-/

namespace ConstPool

/-- The integer nearest to `num / den`; of two that are equally near, the even one. -/
def roundHalfEven (num den : Nat) : Nat :=
  let quotient := num / den
  let rest := num % den
  if den < 2 * rest ∨ (2 * rest = den ∧ quotient % 2 = 1) then quotient + 1 else quotient

end ConstPool
