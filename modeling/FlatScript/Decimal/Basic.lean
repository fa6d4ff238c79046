/-!
# Decimal numbers of 96 bits

Real constants of a script are decimal numbers: a sign, a whole number below `2 ^ 96`, and
the number of its digits that stand after the point, at most 28. The number of digits
after the point is kept, so `1.5` and `1.50` are different decimals with the same value,
and there is a negative zero.

* `FlatScript.Decimal` is the type, with both bounds in it.
* `FlatScript.Decimal.fit?` puts an exact result of any size into the type, dropping digits
  after the point where there are too many, and refuses one that is too large.
* `FlatScript.Decimal.text` writes a decimal with its digits, and
  `FlatScript.Decimal.compareValue` compares by value.
-/

namespace FlatScript

/-- The bound that the digits of a decimal stay below: two to the power 96. -/
def Decimal.bound : Nat := 79228162514264337593543950336

/-- The largest number of digits after the point. -/
def Decimal.maxScale : Nat := 28

/-- **A decimal number**, `± mantissa / 10 ^ scale`. -/
structure Decimal where
  /-- Whether the sign is a minus; a zero has a sign too. -/
  negative : Bool
  /-- All digits, read as one whole number. -/
  mantissa : Nat
  /-- How many of the digits stand after the point. -/
  scale : Nat
  /-- The digits fit into 96 bits. -/
  mantissa_lt : mantissa < Decimal.bound
  /-- There are at most 28 digits after the point. -/
  scale_le : scale ≤ Decimal.maxScale
deriving DecidableEq, Repr

namespace Decimal

/-- The powers of ten. -/
def tenPow : Nat → Nat
  | 0 => 1
  | n + 1 => 10 * tenPow n

/-! ### Constructing -/

/-- The decimal with the given parts, if they are in range. -/
def ofParts? (negative : Bool) (mantissa scale : Nat) : Option Decimal :=
  if h : mantissa < bound ∧ scale ≤ maxScale then
    some ⟨negative, mantissa, scale, h.1, h.2⟩
  else none

/-- Zero, without digits after the point. -/
def zero : Decimal := ⟨false, 0, 0, by decide, by decide⟩

instance : Inhabited Decimal := ⟨zero⟩

/-- The decimal of a 32-bit integer. -/
def ofInt32 (i : Int32) : Decimal :=
  (ofParts? (i < 0) i.toInt.natAbs 0).getD zero

/-- Whether the value is zero, whatever the sign. -/
def isZero (d : Decimal) : Bool := d.mantissa == 0

/-- The decimal with the opposite sign, also for zero. -/
def neg (d : Decimal) : Decimal := { d with negative := !d.negative }

/-- The decimal itself, or the positive zero in the place of a negative one. -/
def unsignedZero (d : Decimal) : Decimal :=
  if d.isZero then { d with negative := false } else d

/-! ### Rounding -/

/-- The quotient of two whole numbers rounded to the nearest one, a tie to the even
one. -/
def roundHalfEven (n d : Nat) : Nat :=
  let q := n / d
  let r := n % d
  if d < 2 * r ∨ (2 * r = d ∧ q % 2 = 1) then q + 1 else q

/-- A mantissa and a scale in which rounding may have carried to the bound: then one digit
more is given up, and without digits after the point there is none to give. -/
def carried? (mantissa scale : Nat) : Option (Nat × Nat) :=
  if mantissa < bound then some (mantissa, scale)
  else if scale = 0 then none
  else some (roundHalfEven mantissa 10, scale - 1)

/-- The mantissa and scale after `drop` digits have been rounded away. -/
def roundAway (mantissa scale drop : Nat) : Option (Nat × Nat) :=
  carried? (if drop = 0 then mantissa else roundHalfEven mantissa (tenPow drop)) (scale - drop)

/-- **The decimal nearest to an exact result**, with as many of the `scale` digits after the
point as the bounds allow; none when the whole part is too large. The sign is kept, also
by a result that is rounded to zero. -/
def fit? (negative : Bool) (mantissa scale : Nat) : Option Decimal := do
  let drop ← (List.range (scale + 1)).find? fun k =>
    decide (scale - k ≤ maxScale) && decide (mantissa / tenPow k < bound)
  let (m, s) ← roundAway mantissa scale drop
  ofParts? negative m s

/-! ### Trailing zeros -/

/-- The mantissa and scale with up to `scale` trailing zeros removed. -/
def stripZeros (mantissa : Nat) : Nat → Nat × Nat
  | 0 => (mantissa, 0)
  | scale + 1 =>
    if mantissa % 10 = 0 then stripZeros (mantissa / 10) scale else (mantissa, scale + 1)

/-- The decimal without trailing zeros after the point; every zero becomes plain zero. -/
def normalize (d : Decimal) : Decimal :=
  if d.isZero then zero
  else
    let (m, s) := stripZeros d.mantissa d.scale
    (ofParts? d.negative m s).getD d

/-! ### Comparing -/

/-- The value in units of the last of 28 digits after the point. -/
def units (d : Decimal) : Int :=
  let magnitude : Int := d.mantissa * tenPow (maxScale - d.scale)
  if d.negative then -magnitude else magnitude

/-- **Comparison by value.** -/
def compareValue (a b : Decimal) : Ordering := compare a.units b.units

/-! ### Writing -/

/-- The text of a decimal, with all its digits after the point. -/
def text (d : Decimal) : String :=
  let digits := Nat.toDigits 10 d.mantissa
  let digits := List.replicate (d.scale + 1 - digits.length) '0' ++ digits
  let whole := digits.take (digits.length - d.scale)
  let fraction := digits.drop (digits.length - d.scale)
  (if d.negative then "-" else "") ++
    String.ofList (if d.scale = 0 then whole else whole ++ '.' :: fraction)

end Decimal

end FlatScript
