import ConstPool.Number.Double

/-!
# Decimal texts of doubles

`Decimal.shortest` gives the decimal with the fewest digits that reads back as a given double,
and of those the one nearest to it. `Double.text` lays its digits out in one of two styles:
`DecimalStyle.inValue` for constants that are shown as values, where whole numbers keep a point
and very large or small numbers have an exponent, and `DecimalStyle.inMessage` for numbers within
a sentence, which are written out in full.

`Double.fixedText` writes a fixed number of places.
-/

namespace ConstPool

/-- The number `digits * 10 ^ exponent`. -/
structure Decimal where
  digits : Nat
  exponent : Int
  deriving DecidableEq, Repr

namespace Decimal

/-- How many decimal digits a natural number has. -/
def width (n : Nat) : Nat := (Nat.toDigits 10 n).length

/-- The position of the leading digit: `0` for the ones, `-1` for the tenths. -/
def leading (d : Decimal) : Int := d.exponent + width d.digits - 1

/-! ### The fewest digits

All comparisons are between natural numbers: the numbers of a basin and the multiples of a power
of ten are both counted in a unit of which they are whole multiples. -/

/-- The numbers that are nearer to a double than to its neighbours, as a range around it. They
are counted in `2 ^ power`, a quarter of the distance to the next larger double. The bounds
belong to the range if the last bit of the double is `0`. -/
structure Basin where
  low : Nat
  centre : Nat
  high : Nat
  power : Int
  closed : Bool

/-- The basin of a finite double. Below a power of two the neighbours lie twice as close. -/
def basin (mantissa exponent : Nat) : Basin where
  low := 4 * mantissa - if mantissa = Double.leadingBit ∧ 0 < exponent then 1 else 2
  centre := 4 * mantissa
  high := 4 * mantissa + 2
  power := exponent - (Double.oneExponent + 2 : Nat)
  closed := mantissa % 2 = 0

/-- Whether a number lies in the basin, if the numbers of the basin are counted in units of
which each holds `scale`. -/
def Basin.holds (b : Basin) (scale position : Nat) : Bool :=
  if b.closed then b.low * scale ≤ position && position ≤ b.high * scale
  else b.low * scale < position && position < b.high * scale

/-- The sizes of `10 ^ exponent` and of `2 ^ power` in a unit that goes into both. -/
def units (exponent power : Int) : Nat × Nat :=
  (Nat.pow 10 exponent.toNat <<< (-power).toNat, Nat.pow 10 (-exponent).toNat <<< power.toNat)

/-- The position of the leading digit of the centre. The number of bits leaves two positions, of
which a comparison picks one; `log 2 / log 10` is `0.30103`, to enough places. -/
def Basin.leading (b : Basin) : Int :=
  let least := (b.centre.log2 + b.power) * 30103 / 100000
  let (ten, two) := units (least + 1) b.power
  if ten ≤ b.centre * two then least + 1 else least

/-- The multiple of `10 ^ exponent` in the basin that is nearest to the centre, if there is one;
of two that are equally near, the larger. -/
def Basin.onGrid? (b : Basin) (exponent : Int) : Option Decimal :=
  let (ten, two) := units exponent b.power
  let centre := b.centre * two
  let lower := centre / ten
  let upper := lower + 1
  let pick (digits : Nat) : Option Decimal := some ⟨digits, exponent⟩
  match b.holds two (lower * ten), b.holds two (upper * ten) with
  | true, true => if centre - lower * ten < upper * ten - centre then pick lower else pick upper
  | true, false => pick lower
  | false, true => pick upper
  | false, false => none

/-- The decimal with the fewest digits in the basin of a positive double. Seventeen digits
always suffice. -/
def shortest (mantissa exponent : Nat) : Decimal :=
  let b := basin mantissa exponent
  let leading := b.leading
  let found := (List.range 17).findSome? fun (n : Nat) => b.onGrid? (leading - n)
  let decimal := found.getD ⟨mantissa, 0⟩
  -- a single digit that was rounded up from nine is the next power of ten
  if decimal.digits = 10 then ⟨1, decimal.exponent + 1⟩ else decimal

end Decimal

/-! ### Layout -/

/-- How the digits of a decimal are laid out. -/
structure DecimalStyle where
  /-- Whether a number whose leading digit stands at this position is written with an
  exponent. -/
  scientific : Int → Bool
  /-- Whether a whole number keeps a point and a zero after it. -/
  keepPoint : Bool

namespace DecimalStyle

/-- Values show a point, and an exponent from `10 ^ 16` on and below `10 ^ (-4)`. -/
def inValue : DecimalStyle where
  scientific position := decide (16 ≤ position ∨ position < -4)
  keepPoint := true

/-- Numbers within a sentence are written out. -/
def inMessage : DecimalStyle where
  scientific _ := false
  keepPoint := false

end DecimalStyle

namespace Decimal

/-- The digits with the point in its place. -/
def positional (d : Decimal) (keepPoint : Bool) : String :=
  let digits := Nat.toDigits 10 d.digits
  let point := d.leading + 1
  if 0 ≤ d.exponent then
    String.ofList (digits ++ List.replicate d.exponent.toNat '0') ++
      if keepPoint then ".0" else ""
  else if point ≤ 0 then
    "0." ++ String.ofList (List.replicate (-point).toNat '0' ++ digits)
  else
    String.ofList (digits.take point.toNat) ++ "." ++ String.ofList (digits.drop point.toNat)

/-- One digit before the point, and the power of ten. -/
def scientific (d : Decimal) : String :=
  let exponent := "e" ++ toString d.leading
  match Nat.toDigits 10 d.digits with
  | [] => exponent
  | [digit] => digit.toString ++ exponent
  | digit :: rest => digit.toString ++ "." ++ String.ofList rest ++ exponent

/-- The decimal laid out in a style. -/
def text (style : DecimalStyle) (d : Decimal) : String :=
  if style.scientific d.leading then d.scientific else d.positional style.keepPoint

end Decimal

namespace Double

/-- The text of a double: the shortest decimal that reads back, in the given style. -/
def text (style : DecimalStyle) (d : Double) : String :=
  match d.read with
  | .nan => "NaN"
  | .infinite a => if a then "-inf" else "inf"
  | .finite a m e =>
    let magnitude :=
      if m = 0 then (⟨0, 0⟩ : Decimal).positional style.keepPoint
      else (Decimal.shortest m e).text style
    if a then "-" ++ magnitude else magnitude

/-- The text with a fixed number of places, rounded from the exact value with ties to even. -/
def fixedText (places : Nat) (d : Double) : String :=
  match d.read with
  | .nan => "NaN"
  | .infinite a => if a then "-inf" else "inf"
  | .finite a m e =>
    let scaled := roundHalfEven ((m * Nat.pow 10 places) <<< e) (1 <<< oneExponent)
    let fraction := Nat.toDigits 10 (scaled % Nat.pow 10 places)
    let padded := List.replicate (places - fraction.length) '0' ++ fraction
    (if a then "-" else "") ++ toString (scaled / Nat.pow 10 places) ++
      if places = 0 then "" else "." ++ String.ofList padded

end Double

end ConstPool
