import ConstPool.Number.Rounding

/-!
# Doubles as bit patterns

A `Double` is the 64-bit pattern of a binary floating-point number, so equality of doubles is
equality of patterns: `0.0` differs from `-0.0`, and a `NaN` equals itself. That is the
equality by which constants are shared. The comparisons of the language (`numEq`, `lt`, `le`)
are the numeric ones and are defined beside it.

Every finite double is a whole multiple of the smallest positive one, `2 ^ (-1074)`. `read`
gives the sign and that multiple as a mantissa of at most fifty-three bits and a power of two.
Sums, products, quotients and remainders are computed exactly on such numbers and rounded once,
to the nearest double with ties to even (`ofScaled`, `ofRatio`).

An operation without a meaning (`inf - inf`, `0 / 0`) yields `invalid`, a quiet `NaN` whose sign
bit is set. A `NaN` operand is passed on, the left one first.
-/

namespace ConstPool

/-- A binary floating-point number of 64 bits, given by its pattern. -/
structure Double where
  /-- Sign, eleven bits of exponent and fifty-two of fraction. -/
  bits : UInt64
  deriving DecidableEq, Repr

namespace Double

/-- One is this power of two times the smallest positive double. -/
def oneExponent : Nat := 1074

/-- What a pattern stands for: no number, an infinity, or with a sign `mantissa * 2 ^ exponent`
times the smallest positive double. -/
inductive Reading where
  | nan
  | infinite (negative : Bool)
  | finite (negative : Bool) (mantissa exponent : Nat)
  deriving DecidableEq, Repr

/-- The sign bit alone. -/
def signBit : UInt64 := 0x8000000000000000

/-- The leading bit of a mantissa of fifty-three bits. -/
def leadingBit : Nat := 0x10000000000000

/-- Whether the sign bit is set. -/
def negative (d : Double) : Bool := decide (signBit ≤ d.bits)

/-- The meaning of a pattern. The exponent `2047` is kept for infinities and `NaN`, the exponent
`0` for the numbers without a leading bit. -/
def read (d : Double) : Reading :=
  let exponent := (d.bits >>> 52 &&& 0x7ff).toNat
  let fraction := (d.bits &&& 0xfffffffffffff).toNat
  if exponent = 2047 then
    if fraction = 0 then .infinite d.negative else .nan
  else if exponent = 0 then .finite d.negative fraction 0
  else .finite d.negative (leadingBit + fraction) (exponent - 1)

/-! ### Building a double -/

/-- The pattern with the given sign bit and the given lower sixty-three bits. -/
def ofCode (negative : Bool) (code : Nat) : Double :=
  ⟨if negative then signBit ||| .ofNat code else .ofNat code⟩

/-- The lower sixty-three bits of an infinity. -/
def infinityCode : Nat := 2047 * leadingBit

/-- The infinity of a sign. -/
def infinity (negative : Bool) : Double := ofCode negative infinityCode

/-- The zero of a sign. -/
def zero (negative : Bool) : Double := ofCode negative 0

/-- The result of an operation without a meaning. -/
def invalid : Double := ofCode true (infinityCode + leadingBit / 2)

/-- The double nearest to `num * 2 ^ power` times the smallest one, with a sign; a tie goes to
the even mantissa. The mantissa keeps the fifty-three leading bits, but none that is smaller
than the smallest double. A mantissa that is rounded up to one more bit carries into the
exponent, and a number beyond the largest finite double is infinite. -/
def ofScaled (negative : Bool) (num : Nat) (power : Int) : Double :=
  let exponent := if num = 0 then 0 else (num.log2 + power - 52).toNat
  let drop := exponent - power
  let mantissa :=
    if drop ≤ 0 then num <<< (-drop).toNat else roundHalfEven num (1 <<< drop.toNat)
  ofCode negative (min infinityCode (exponent * leadingBit + mantissa))

/-- The double nearest to `num / den * 2 ^ power` times the smallest one, with a sign. The
quotient is computed to more bits than a mantissa has, and a last bit tells whether it is
exact: so it rounds as the exact quotient does. -/
def ofRatio (negative : Bool) (num den : Nat) (power : Int) : Double :=
  let shift := den.log2 + 55 - num.log2
  let scaled := num <<< shift
  let quotient := scaled / den
  let last := if quotient * den = scaled then 0 else 1
  ofScaled negative (2 * quotient + last) (power - shift - 1)

/-- The double nearest to an integer. -/
def ofInt (n : Int) : Double := ofScaled (decide (n < 0)) n.natAbs oneExponent

/-- The double nearest to the quotient of two natural numbers, and zero if there is no
quotient. -/
def ofQuotient (num den : Nat) : Double :=
  if den = 0 then zero false else ofRatio false num den oneExponent

/-! ### Arithmetic -/

/-- The number with the other sign; a `NaN` changes its sign bit too. -/
def neg (d : Double) : Double := ⟨d.bits ^^^ signBit⟩

/-- The number without its sign. -/
def abs (d : Double) : Double := if d.negative then d.neg else d

/-- A `NaN` as an operation passes it on: with the quiet bit set. -/
def quiet (d : Double) : Double := ⟨d.bits ||| 0x8000000000000⟩

/-- A natural number with a sign, as an integer. -/
def signed (negative : Bool) (n : Nat) : Int := if negative then -(n : Int) else n

/-- The sum. Opposite numbers cancel to the positive zero. -/
def add (x y : Double) : Double :=
  match x.read, y.read with
  | .nan, _ => x.quiet
  | _, .nan => y.quiet
  | .infinite a, .infinite b => if a = b then x else invalid
  | .infinite _, .finite _ _ _ => x
  | .finite _ _ _, .infinite _ => y
  | .finite a m e, .finite b n f =>
    let power := min e f
    let sum := signed a (m <<< (e - power)) + signed b (n <<< (f - power))
    if sum = 0 then zero (a && b) else ofScaled (decide (sum < 0)) sum.natAbs power

/-- The difference. -/
def sub (x y : Double) : Double :=
  match y.read with
  | .nan => x.add y
  | _ => x.add y.neg

/-- The product. -/
def mul (x y : Double) : Double :=
  match x.read, y.read with
  | .nan, _ => x.quiet
  | _, .nan => y.quiet
  | .infinite a, .infinite b => infinity (a != b)
  | .infinite a, .finite b n _ => if n = 0 then invalid else infinity (a != b)
  | .finite a m _, .infinite b => if m = 0 then invalid else infinity (a != b)
  | .finite a m e, .finite b n f => ofScaled (a != b) (m * n) ((e + f : Nat) - oneExponent)

/-- The quotient. -/
def div (x y : Double) : Double :=
  match x.read, y.read with
  | .nan, _ => x.quiet
  | _, .nan => y.quiet
  | .infinite _, .infinite _ => invalid
  | .infinite a, .finite b _ _ => infinity (a != b)
  | .finite a _ _, .infinite b => zero (a != b)
  | .finite a m e, .finite b n f =>
    if n = 0 then
      if m = 0 then invalid else infinity (a != b)
    else ofRatio (a != b) m n ((e + oneExponent : Nat) - f)

/-- The remainder of the quotient rounded toward zero; it has the sign of `x` and is exact. -/
def rem (x y : Double) : Double :=
  match x.read, y.read with
  | .nan, _ => x.quiet
  | _, .nan => y.quiet
  | .infinite _, _ => invalid
  | .finite _ _ _, .infinite _ => x
  | .finite a m e, .finite _ n f =>
    let power := min e f
    if n = 0 then invalid
    else ofScaled a ((m <<< (e - power)) % (n <<< (f - power))) power

/-! ### Comparison -/

/-- Where a double stands on the number line; a `NaN` stands nowhere. The lower sixty-three bits
of a pattern grow with the number without its sign, and the two zeros stand at one place. -/
def position? (d : Double) : Option Int :=
  let code := (d.bits &&& 0x7fffffffffffffff).toNat
  if infinityCode < code then none else some (signed d.negative code)

/-- Compares the positions of two doubles; false if one has none. -/
def compareWith (test : Int → Int → Bool) (x y : Double) : Bool :=
  match x.position?, y.position? with
  | some a, some b => test a b
  | _, _ => false

/-- Numeric equality: the two zeros are equal and a `NaN` equals nothing. -/
def numEq : Double → Double → Bool := compareWith (fun a b => decide (a = b))

/-- Numeric order. -/
def lt : Double → Double → Bool := compareWith (fun a b => decide (a < b))

/-- Numeric order or equality. -/
def le : Double → Double → Bool := compareWith (fun a b => decide (a ≤ b))

/-- The remainder that is not negative: `|y|` is added to a negative remainder. -/
def euclideanRem (x y : Double) : Double :=
  let r := x.rem y
  if r.lt (zero false) then r.add y.abs else r

/-- The integer that is left when the fraction is dropped; none for infinities and `NaN`. -/
def truncate? (d : Double) : Option Int :=
  match d.read with
  | .finite a m e => some (signed a ((m <<< e) >>> oneExponent))
  | _ => none

end Double

end ConstPool
