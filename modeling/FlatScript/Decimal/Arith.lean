import FlatScript.Decimal.Basic

/-!
# Arithmetic of decimals

The four operations and the remainder. Each computes the exact result and then fits it
into the type: sums take the larger of the two scales, products the sum of the scales,
and quotients as many digits as it takes or as fit. A result is `none` when it is too
large, and a divisor of zero is never passed on to here.
-/

namespace FlatScript.Decimal

/-! ### Sums and products -/

/-- The value of a decimal in units of the last of `scale` digits after the point. -/
def scaled (d : Decimal) (scale : Nat) : Int :=
  let magnitude : Int := d.mantissa * tenPow (scale - d.scale)
  if d.negative then -magnitude else magnitude

/-- The sum of two decimals. A zero leaves the other one as it is. -/
def add? (a b : Decimal) : Option Decimal :=
  if a.isZero then some b
  else if b.isZero then some a
  else
    let scale := max a.scale b.scale
    let sum := a.scaled scale + b.scaled scale
    fit? (sum < 0) sum.natAbs scale

/-- The difference of two decimals. Subtracting zero changes nothing, and subtracting
from zero changes the sign. -/
def sub? (a b : Decimal) : Option Decimal :=
  if a.isZero then some (if b.isZero then b else b.neg)
  else if b.isZero then some a
  else a.add? b.neg

/-- The bound that the lowest word of a mantissa stays below: two to the power 32. -/
def wordBound : Nat := 4294967296

/-- The product of two decimals. A zero factor gives plain zero, and so does a product of
two factors of one word whose digits all lie too far behind the point. Factors of one word
never have a negative zero as their product, longer ones do when it is rounded to zero. -/
def mul? (a b : Decimal) : Option Decimal :=
  if a.isZero || b.isZero then some zero
  else
    let scale := a.scale + b.scale
    let product := fit? (a.negative != b.negative) (a.mantissa * b.mantissa) scale
    if a.mantissa < wordBound ∧ b.mantissa < wordBound then
      if maxScale + 19 < scale then some zero else product.map unsignedZero
    else product

/-! ### Quotients -/

/-- The largest number of digits that quotients take at once. -/
def groupSize : Nat := 9

/-- The number of digits, at most `most`, that a mantissa can take at its end. -/
def room (mantissa : Nat) : Nat → Nat
  | 0 => 0
  | most + 1 =>
    if mantissa * tenPow (most + 1) < bound then most + 1 else room mantissa most

/-- **The digits of a quotient**: the mantissa and scale of `num / den` when the scales of
the operands differ by `point` and `k` digits have been added to the whole quotient.

Digits are added in groups, as long as there is a remainder and they fit, and the last one
is rounded. A group that turns out one digit too long is rounded to one digit less. An even
division is complete as soon as no digit before the point is missing. -/
def quotient? (num den : Nat) (point : Int) : Nat → Nat → Option (Nat × Nat)
  | 0, _ => none
  | fuel + 1, k =>
    let n := num * tenPow k
    let scale := point + k
    if bound ≤ n / den then
      if scale ≤ 0 then none
      else some (roundHalfEven (num * tenPow (k - 1)) den, (scale - 1).toNat)
    else if n % den = 0 then
      if 0 ≤ scale then some (n / den, scale.toNat)
      else quotient? num den point fuel (k + scale.natAbs)
    else
      let p := room (n / den) (min groupSize (maxScale - scale).toNat)
      if p < groupSize ∧ p + scale < 0 then none
      else if p = 0 then carried? (roundHalfEven n den) scale.toNat
      else quotient? num den point fuel (k + p)

/-- A mantissa and scale with `count` zeros at the end removed, if there are so many of them
after the point. -/
def stripGroup (count : Nat) (d : Nat × Nat) : Nat × Nat :=
  if count ≤ d.2 ∧ d.1 % tenPow count = 0 then (d.1 / tenPow count, d.2 - count) else d

/-- A mantissa and scale with eight zeros at the end removed, if the lowest word of the
mantissa is zero. -/
def stripEight (d : Nat × Nat) : Nat × Nat :=
  if d.1 % wordBound = 0 then stripGroup 8 d else d

/-- A mantissa and scale with zeros at the end removed in groups: of eight, as long as the
lowest word is zero, and then once each of four, two and one. Some zeros may remain. -/
def stripGroups (d : Nat × Nat) : Nat × Nat :=
  stripGroup 1 (stripGroup 2 (stripGroup 4 (stripEight (stripEight (stripEight d)))))

/-- The quotient of two decimals, with `b` not zero. Zeros at its end are removed, unless
the mantissas divide evenly. -/
def div? (a b : Decimal) : Option Decimal :=
  if a.isZero then some zero
  else do
    let point : Int := (a.scale : Int) - b.scale
    let digits ← quotient? a.mantissa b.mantissa point (2 * maxScale + 2) 0
    let (m, s) := if a.mantissa % b.mantissa = 0 then digits else stripGroups digits
    (ofParts? (a.negative != b.negative) m s).map unsignedZero

/-- The remainder of a division, with the sign of the dividend and `b` not zero. A dividend
smaller than the divisor is returned as it is, and equal ones leave plain zero. -/
def rem? (a b : Decimal) : Option Decimal :=
  if a.isZero then some zero
  else
    let scale := max a.scale b.scale
    let x := (a.scaled scale).natAbs
    let y := (b.scaled scale).natAbs
    if x = y then some zero
    else if x < y then some a
    else
      (ofParts? a.negative (x % y) scale).map unsignedZero

end FlatScript.Decimal
