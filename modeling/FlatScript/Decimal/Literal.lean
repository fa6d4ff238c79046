import FlatScript.Decimal.Arith

/-!
# Reading decimals

A real literal is digits, a point, digits, and an optional power of ten. Digits before the
point have to fit; digits after it are taken as long as they fit, the first one that does
not is rounded, half up, and the rest is dropped.
-/

namespace FlatScript.Decimal

/-! ### What can be wrong -/

/-- Why a literal has no value. -/
inductive LiteralError where
  /-- The digits before the point do not fit. -/
  | tooManyDigits
  /-- Rounding the first dropped digit carried past the bound. -/
  | carriedTooFar
  /-- The power of ten asks for `scale` digits after the point. -/
  | scaleTooLarge (scale : Nat)
  /-- The value is too large. -/
  | tooLarge
  /-- The power of ten is no 32-bit number. -/
  | badExponent
deriving DecidableEq, Repr

/-- The text of a fault. -/
def LiteralError.message : LiteralError → String
  | tooManyDigits => "Invalid decimal: overflow from too many digits"
  | carriedTooFar => "Invalid decimal: overflow from mantissa after rounding"
  | scaleTooLarge scale =>
    "Scale exceeds the maximum precision allowed: " ++ toString scale ++ " > " ++
      toString maxScale
  | tooLarge => "Number exceeds maximum value that can be represented."
  | badExponent => "Failed to parse"

/-! ### Digits -/

/-- The value of a digit. -/
def digitValue (c : Char) : Nat := c.toNat - '0'.toNat

/-- The value of a run of digits in base ten. -/
def digitsValue (digits : List Char) : Nat :=
  digits.foldl (fun n c => 10 * n + digitValue c) 0

/-- The mantissa and scale with the first dropped digit rounded in. -/
def roundDigit (mantissa scale digit : Nat) : Except LiteralError (Nat × Nat) :=
  if digit < 5 then .ok (mantissa, scale)
  else if mantissa + 1 < bound then .ok (mantissa + 1, scale)
  else if scale = 0 then .error .carriedTooFar
  else .ok ((mantissa + 1 + 4) / 10, scale - 1)

/-- Digits after the point, on top of what has been read. -/
def readFraction (mantissa scale : Nat) : List Char → Except LiteralError (Nat × Nat)
  | [] => .ok (mantissa, scale)
  | c :: cs =>
    let next := 10 * mantissa + digitValue c
    if scale < maxScale ∧ next < bound then readFraction next (scale + 1) cs
    else roundDigit mantissa scale (digitValue c)

/-- The decimal with given digits before and after the point. -/
def ofDigits (whole fraction : List Char) : Except LiteralError Decimal := do
  let w := digitsValue whole
  if bound ≤ w then throw .tooManyDigits
  let (m, s) ← readFraction w 0 fraction
  match ofParts? false m s with
  | some d => .ok d
  | none => .error .tooLarge

/-! ### Powers of ten -/

/-- The decimal `10 ^ n`, for `n` up to 28. -/
def powerOfTen (n : Nat) : Decimal := (ofParts? false (tenPow n) 0).getD zero

/-- The value times `10 ^ n`, in steps of at most `10 ^ 19`. -/
def timesPower (d : Decimal) (n : Nat) : Option Decimal :=
  if n ≤ 19 then d.mul? (powerOfTen n)
  else do (← d.mul? (powerOfTen 19)).mul? (powerOfTen (n - 19))

/-- The decimal with another number of digits after the point. -/
def withScale (d : Decimal) (scale : Nat) : Except LiteralError Decimal :=
  match ofParts? d.negative d.mantissa scale with
  | some d => .ok d
  | none => .error (.scaleTooLarge scale)

/-- The value times ten to the power `-n`. -/
def lowered (d : Decimal) (n : Nat) : Except LiteralError Decimal :=
  if maxScale < n then .error (.scaleTooLarge n) else d.withScale (d.scale + n)

/-- The value times ten to the power `n`. A power that the digits after the point take up
moves the point only; a larger one is multiplied out, and zeros at the end go. -/
def raised (d : Decimal) (n : Nat) : Except LiteralError Decimal :=
  if n ≤ d.scale then d.withScale (d.scale - n)
  else if maxScale < n then .error (.scaleTooLarge n)
  else match d.timesPower n with
    | some d => .ok d.normalize
    | none => .error .tooLarge

/-- The bound that exponents stay below: two to the power 32. -/
def exponentBound : Nat := 4294967296

/-- The decimal moved by the power of ten that an exponent spells. -/
def withExponent (d : Decimal) (exponent : List Char) : Except LiteralError Decimal :=
  let (negative, digits) := match exponent with
    | '-' :: digits => (true, digits)
    | '+' :: digits => (false, digits)
    | digits => (false, digits)
  let n := digitsValue digits
  if exponentBound ≤ n then .error .badExponent
  else if negative then d.lowered n
  else d.raised n

/-- Whether a character separates the digits from the power of ten. -/
def isExponentMark (c : Char) : Bool := c == 'e' || c == 'E'

/-- **The value of a real literal.** -/
def ofLiteral (literal : List Char) : Except LiteralError Decimal :=
  let digits := literal.takeWhile (!isExponentMark ·)
  let whole := digits.takeWhile (· ≠ '.')
  let fraction := (digits.dropWhile (· ≠ '.')).drop 1
  match literal.dropWhile (!isExponentMark ·) with
  | [] => ofDigits whole fraction
  | _ :: exponent => do (← ofDigits whole fraction).withExponent exponent

/-- The decimal that a text with an optional sign spells. A zero is positive, and digits may
be grouped by underscores. -/
def ofText (text : String) : Except LiteralError Decimal :=
  match text.toList.filter (· ≠ '_') with
  | '-' :: literal => (ofLiteral literal).map fun d => if d.isZero then d else d.neg
  | '+' :: literal => ofLiteral literal
  | literal => ofLiteral literal

end FlatScript.Decimal
