import FlatScript.Folding.Expr
import FlatScript.Proofs.Decimal.Quotient
import FlatScript.Proofs.Outcome

/-!
# Folding and real numbers

Folding puts the value of an expression in its place, but before it evaluates, the laws of zero
and one have already had their say on every operator inside: `2 * 1.0` is written `2`. The number is
the same, but it is not a real one any more, and what is computed with it next may be
computed with integers: `7 / (2 * 1.0)` is `3.5`, and `3` when it is folded.

So the laws and the evaluation agree as long as no operator inside an expression leaves an integer
where it stands for a real number.

* `FlatScript.Value.Number.Same`: numbers of one kind that are worth the same. Every operator makes
  the same of the same, `FlatScript.Value.binary_same`, since decimals are computed by their value.
* `FlatScript.Value.Number.picked?` is the operand that a law puts in the place of an operator, and
  `FlatScript.Value.Number.picked?_units` says that it is worth the result.
* `FlatScript.Value.Number.demotes` tells where an integer takes the place of a real number, and
  `FlatScript.Expr.steady` that this happens nowhere in an expression.
* `FlatScript.Folding.folded_real_value`: an expression with a real value whose operands are steady
  is folded to a literal of this value.
-/

namespace FlatScript

namespace Decimal

theorem units_ofInt32 (i : Int32) : (ofInt32 i).units = i.toInt * tenPow maxScale := by
  have hbound : i.toInt.natAbs < bound := by
    have hlow := i.le_toInt
    have hhigh := i.toInt_lt
    simp only [bound]
    omega
  have hsign : decide (i < 0) = decide (i.toInt < 0) := decide_eq_decide.mpr Int32.lt_iff_toInt_lt
  rw [ofInt32, ofParts?, dif_pos ⟨hbound, Nat.zero_le _⟩, Option.getD_some, units_eq]
  simp only [magnitude, Nat.sub_zero, hsign]
  rw [signed_mul, signed_natAbs]

theorem compareValue_isEq (a b : Decimal) :
    (a.compareValue b).isEq = decide (a.units = b.units) := by
  rw [compareValue, Bool.eq_iff_iff, decide_eq_true_eq, Ordering.isEq_iff_eq_eq,
    compare_eq_iff_eq]

end Decimal

namespace Value

open Decimal (tenPow maxScale tenPow_pos)

/-! ### Numbers -/

namespace Number

/-- The value that a number is. -/
def value : Number → Value
  | int v => .int v
  | real d => .real d

/-- The literal of a number. -/
def literal (span : Span) : Number → Expr
  | int v => .int v span
  | real d => .real d span

/-- Whether a number is an integer, and not a real number. -/
def isInt : Number → Bool
  | int _ => true
  | real _ => false

/-- What a number is worth, in units of the last of 28 digits after the point. -/
def units (n : Number) : Int := n.toDecimal.units

/-- **Two numbers of one kind that are worth the same.** Real numbers may differ in the number of
their digits after the point, and zeros in their signs. -/
structure Same (m n : Number) : Prop where
  units : m.units = n.units
  kind : m.isInt = n.isInt

/-- What the whole number one is worth. -/
def unit : Int := tenPow maxScale

theorem units_int (v : Int32) : (int v).units = v.toInt * unit :=
  Decimal.units_ofInt32 v

theorem units_int_inj {v w : Int32} (h : (int v).units = (int w).units) : v = w := by
  have hpos : unit ≠ 0 := by decide
  rw [units_int, units_int] at h
  exact Int32.toInt_inj.mp (Int.eq_of_mul_eq_mul_right hpos h)

theorem Same.refl (n : Number) : n.Same n := ⟨rfl, rfl⟩

theorem Same.trans {l m n : Number} (h : l.Same m) (h' : m.Same n) : l.Same n :=
  ⟨h.units.trans h'.units, h.kind.trans h'.kind⟩

/-- There is one spelling of an integer only. -/
theorem Same.eq_of_isInt {m n : Number} (h : m.Same n) (hm : m.isInt = true) : n = m := by
  obtain ⟨hunits, hkind⟩ := h
  cases m with
  | real => cases hm
  | int v =>
    cases n with
    | real => cases hkind
    | int w => rw [units_int_inj hunits]

end Number

variable {m m' n n' r : Number} {a b v : Value} {op : BinaryOp}

theorem number_eq_ok_iff : a.number = .ok n ↔ a = n.value := by
  cases a <;> cases n <;> simp [number, Number.value]

@[simp]
theorem number_value (n : Number) : n.value.number = .ok n := number_eq_ok_iff.mpr rfl

theorem value_inj (h : m.value = n.value) : m = n := by
  cases m <;> cases n <;> simp_all [Number.value]

/-- Two values that are the same number, up to the spelling of real numbers. -/
def Same (v v' : Value) : Prop := ∃ m n : Number, v = m.value ∧ v' = n.value ∧ m.Same n

/-! ### What operators make of numbers -/

theorem realArith_units {x x' y y' : Decimal} (hx : x.units = x'.units) (hy : y.units = y'.units) :
    (realArith op x y).map Decimal.units = (realArith op x' y').map Decimal.units := by
  have hzero : y.isZero = y'.isZero := by
    rw [Bool.eq_iff_iff, ← Decimal.units_eq_zero_iff, ← Decimal.units_eq_zero_iff, hy]
  have hdiv : (if y.isZero then some Decimal.zero else x.div? y).map Decimal.units =
      (if y'.isZero then some Decimal.zero else x'.div? y').map Decimal.units := by
    rw [← hzero]
    cases hcase : y.isZero with
    | true => rfl
    | false =>
      simp only [Bool.false_eq_true, if_false]
      rw [Decimal.units_div? x y hcase, Decimal.units_div? x' y' (hzero ▸ hcase), hx, hy]
  cases op with
  | add => rw [realArith, realArith, Decimal.units_add?, Decimal.units_add?, hx, hy]
  | sub => rw [realArith, realArith, Decimal.units_sub?, Decimal.units_sub?, hx, hy]
  | mul => rw [realArith, realArith, Decimal.units_mul?, Decimal.units_mul?, hx, hy]
  | _ => exact hdiv

theorem exists_ints (h : (m.isInt && n.isInt) = true) : ∃ x y, m = .int x ∧ n = .int y := by
  cases m with
  | real => cases h
  | int x =>
    cases n with
    | real => cases h
    | int y => exact ⟨x, y, rfl, rfl⟩

theorem arith_of_real (h : (m.isInt && n.isInt) = false) :
    arith op m n = ofReal? (realArith op m.toDecimal n.toDecimal) := by
  cases m <;> cases n <;> first | rfl | cases h

theorem ofReal?_eq_ok {o : Option Decimal} (h : ofReal? o = .ok v) :
    ∃ d, o = some d ∧ v = (Number.real d).value := by
  cases o with
  | none => cases h
  | some d => exact ⟨d, rfl, (Except.ok.inj h).symm⟩

theorem ofReal?_same {o o' : Option Decimal} (ho : o.map Decimal.units = o'.map Decimal.units)
    (h : ofReal? o = .ok v) : ∃ v', ofReal? o' = .ok v' ∧ v.Same v' := by
  obtain ⟨d, rfl, rfl⟩ := ofReal?_eq_ok h
  obtain ⟨d', rfl, hd⟩ := Option.map_eq_some_iff.mp ho.symm
  exact ⟨_, rfl, .real d, .real d', rfl, rfl, hd.symm, rfl⟩

/-- Arithmetic makes the same of the same. -/
theorem arith_same (hm : m.Same m') (hn : n.Same n') (h : arith op m n = .ok v) :
    ∃ v', arith op m' n' = .ok v' ∧ v.Same v' := by
  cases hkind : m.isInt && n.isInt with
  | true =>
    obtain ⟨x, y, rfl, rfl⟩ := exists_ints hkind
    obtain rfl := hm.eq_of_isInt rfl
    obtain rfl := hn.eq_of_isInt rfl
    exact ⟨_, rfl, .int (intArith op x y), .int (intArith op x y), (Except.ok.inj h).symm, rfl,
      .refl _⟩
  | false =>
    rw [arith_of_real hkind] at h
    rw [hm.kind, hn.kind] at hkind
    rw [arith_of_real hkind]
    exact ofReal?_same (realArith_units hm.units hn.units) h

theorem isZero_eq (hn : n.Same n') : n.toDecimal.isZero = n'.toDecimal.isZero := by
  rw [Bool.eq_iff_iff, ← Decimal.units_eq_zero_iff, ← Decimal.units_eq_zero_iff]
  exact Eq.congr_left hn.units

theorem rem_of_real (h : (m.isInt && n.isInt) = false) :
    rem m n = if n.toDecimal.isZero then .error .divisionByZero
      else ofReal? (m.toDecimal.rem? n.toDecimal) := by
  cases m <;> cases n <;> first | rfl | cases h

/-- Remainders make the same of the same. -/
theorem rem_same (hm : m.Same m') (hn : n.Same n') (h : rem m n = .ok v) :
    ∃ v', rem m' n' = .ok v' ∧ v.Same v' := by
  cases hkind : m.isInt && n.isInt with
  | true =>
    obtain ⟨x, y, rfl, rfl⟩ := exists_ints hkind
    obtain rfl := hm.eq_of_isInt rfl
    obtain rfl := hn.eq_of_isInt rfl
    simp only [rem] at h ⊢
    split at h
    · cases h
    · next hy =>
      exact ⟨_, if_neg hy, .int (intRem x y), .int (intRem x y), (Except.ok.inj h).symm, rfl,
        .refl _⟩
  | false =>
    rw [rem_of_real hkind] at h
    rw [hm.kind, hn.kind] at hkind
    rw [rem_of_real hkind, ← isZero_eq hn]
    cases hzero : n.toDecimal.isZero with
    | true =>
      rw [hzero] at h
      cases h
    | false =>
      rw [hzero] at h
      refine ofReal?_same ?_ h
      rw [Decimal.units_rem? _ _ hzero, Decimal.units_rem? _ _ (isZero_eq hn ▸ hzero)]
      congr 2
      · exact hm.units
      · exact hn.units

/-- The operators of arithmetic. -/
def IsArith (op : BinaryOp) : Prop := op = .add ∨ op = .sub ∨ op = .mul ∨ op = .div

theorem binary_of_isArith (h : IsArith op) : binary op m.value n.value = arith op m n := by
  rcases h with rfl | rfl | rfl | rfl <;> cases m <;> cases n <;> rfl

theorem binary_mod : binary .mod m.value n.value = rem m n := by
  cases m <;> cases n <;> rfl

theorem integer_eq_ok {x : Int32} (h : a.integer = .ok x) : a = (Number.int x).value := by
  cases a <;> simp_all [integer, Number.value]

/-- **Where the result of an operator is a number**, it stands between numbers. Operators on bits
have integers on both sides, and the others are those of arithmetic. -/
theorem binary_cases (h : binary op a b = .ok r.value) :
    ∃ m n : Number, a = m.value ∧ b = n.value ∧
      (IsArith op ∨ op = .mod ∨ m.isInt = true ∧ n.isInt = true) := by
  have arith_case {k : Number → Number → Except EvalError Value}
      (h : (do k (← a.number) (← b.number)) = .ok r.value)
      (hop : IsArith op ∨ op = .mod) : ∃ m n : Number, a = m.value ∧ b = n.value ∧
        (IsArith op ∨ op = .mod ∨ m.isInt = true ∧ n.isInt = true) := by
    obtain ⟨m, hm, h⟩ := Except.bind_eq_ok.mp h
    obtain ⟨n, hn, h⟩ := Except.bind_eq_ok.mp h
    exact ⟨m, n, number_eq_ok_iff.mp hm, number_eq_ok_iff.mp hn, hop.imp_right .inl⟩
  have bits_case {k : Int32 → Int32 → Int32}
      (h : (do return int (k (← a.integer) (← b.integer))) = .ok r.value) :
      ∃ m n : Number, a = m.value ∧ b = n.value ∧
        (IsArith op ∨ op = .mod ∨ m.isInt = true ∧ n.isInt = true) := by
    obtain ⟨x, hx, h⟩ := Except.bind_eq_ok.mp h
    obtain ⟨y, hy, h⟩ := Except.bind_eq_ok.mp h
    exact ⟨.int x, .int y, integer_eq_ok hx, integer_eq_ok hy, .inr (.inr ⟨rfl, rfl⟩)⟩
  have other {v : Value} (h : Except.ok (ε := EvalError) v = .ok r.value)
      (hv : ∀ n : Number, v ≠ n.value) : False := hv r (Except.ok.inj h)
  cases op with
  | add => exact arith_case h (.inl (.inl rfl))
  | sub => exact arith_case h (.inl (.inr (.inl rfl)))
  | mul => exact arith_case h (.inl (.inr (.inr (.inl rfl))))
  | div => exact arith_case h (.inl (.inr (.inr (.inr rfl))))
  | mod => exact arith_case h (.inr rfl)
  | bitAnd | bitOr | bitXor => exact bits_case h
  | concat | and | or | xor => exact (other h fun n => by cases n <;> simp [Number.value]).elim
  | equal | notEqual | less | greater | lessEqual | greaterEqual =>
    obtain ⟨m, hm, h⟩ := Except.bind_eq_ok.mp h
    obtain ⟨n, hn, h⟩ := Except.bind_eq_ok.mp h
    exact (other h fun n => by cases n <;> simp [Number.value]).elim

/-- **Every operator makes the same of the same.** -/
theorem binary_same (hm : m.Same m') (hn : n.Same n')
    (h : binary op m.value n.value = .ok r.value) :
    ∃ v', binary op m'.value n'.value = .ok v' ∧ r.value.Same v' := by
  obtain ⟨m₀, n₀, hm₀, hn₀, hop⟩ := binary_cases h
  obtain rfl := value_inj hm₀
  obtain rfl := value_inj hn₀
  rcases hop with hop | rfl | ⟨hmi, hni⟩
  · rw [binary_of_isArith hop] at h ⊢
    exact arith_same hm hn h
  · rw [binary_mod] at h ⊢
    exact rem_same hm hn h
  · obtain rfl := hm.eq_of_isInt hmi
    obtain rfl := hn.eq_of_isInt hni
    exact ⟨_, h, r, r, rfl, rfl, .refl r⟩

theorem unary_number {op : UnaryOp} (h : unary op a = .ok r.value) : ∃ m : Number, a = m.value := by
  cases a with
  | int x => exact ⟨.int x, rfl⟩
  | real d => exact ⟨.real d, rfl⟩
  | str s => cases op <;> cases h
  | bool b => cases op <;> cases r <;> cases h

theorem unary_same {op : UnaryOp} (hm : m.Same m') (h : unary op m.value = .ok r.value) :
    ∃ v', unary op m'.value = .ok v' ∧ r.value.Same v' := by
  cases m with
  | int x =>
    obtain rfl := hm.eq_of_isInt rfl
    exact ⟨_, h, r, r, rfl, rfl, .refl r⟩
  | real d =>
    obtain ⟨hunits, hkind⟩ := hm
    cases m' with
    | int => cases hkind
    | real d' =>
      cases op with
      | neg =>
        refine ⟨_, rfl, .real d.neg, .real d'.neg, (Except.ok.inj h).symm, rfl, ?_, rfl⟩
        have hneg : d.units = d'.units := hunits
        simp only [Number.units, Number.toDecimal, Decimal.neg_units, hneg]
      | not => cases h
      | bitNot => cases h

/-! ### The laws of zero and one -/

namespace Number

/-- **The operand that a law puts in the place of an operator**: a factor of zero, the other one of
a factor of one, the other one of a summand of zero. -/
def picked? (op : BinaryOp) (m n : Number) : Option Number :=
  match op with
  | .mul =>
    if m.units = 0 then some m
    else if m.units = unit then some n
    else if n.units = 0 then some n
    else if n.units = unit then some m
    else none
  | .add =>
    if m.units = 0 then some n
    else if n.units = 0 then some m
    else none
  | _ => none

/-- **Whether a law leaves an integer where the result is a real number**: an integer times or plus
a real number that makes no difference, and the integer zero times a real number. -/
def demotes (op : BinaryOp) (m n : Number) : Bool :=
  (picked? op m n).any isInt && !(m.isInt && n.isInt)

theorem picked?_kind (hm : m.Same m') (hn : n.Same n') :
    (picked? op m n).map isInt = (picked? op m' n').map isInt := by
  cases op with
  | mul =>
    simp only [picked?, hm.units, hn.units]
    repeat' split
    all_goals simp only [Option.map_some, Option.map_none, hm.kind, hn.kind]
  | add =>
    simp only [picked?, hm.units, hn.units]
    repeat' split
    all_goals simp only [Option.map_some, Option.map_none, hm.kind, hn.kind]
  | _ => rfl

theorem demotes_eq (hm : m.Same m') (hn : n.Same n') : demotes op m n = demotes op m' n' := by
  have hany {o : Option Number} : o.any isInt = (o.map isInt).any id := by cases o <;> rfl
  rw [demotes, demotes, hany, hany, picked?_kind hm hn, hm.kind, hn.kind]

theorem eq_or_eq_of_picked? {k : Number} (h : picked? op m n = some k) : k = m ∨ k = n := by
  cases op <;> simp only [picked?, reduceCtorEq] at h
  all_goals grind

theorem units_int_zero : (int 0).units = 0 := rfl

theorem units_int_one : (int 1).units = unit := rfl

end Number

/-- The result of arithmetic is an integer between integers only. -/
theorem arith_kind (h : arith op m n = .ok r.value) : r.isInt = (m.isInt && n.isInt) := by
  cases hkind : m.isInt && n.isInt with
  | true =>
    obtain ⟨x, y, rfl, rfl⟩ := exists_ints hkind
    obtain rfl : r = .int (intArith op x y) := value_inj (Except.ok.inj h).symm
    rfl
  | false =>
    rw [arith_of_real hkind] at h
    obtain ⟨d, -, hd⟩ := ofReal?_eq_ok h
    rw [value_inj hd]
    rfl

theorem rounded_toDecimal (n : Number) :
    Decimal.rounded n.units (tenPow maxScale) = some n.units :=
  Decimal.rounded_units n.toDecimal

/-- Zero and one as factors. -/
theorem mul_units (h : arith .mul m n = .ok r.value) :
    (m.units = 0 ∨ n.units = 0 → r.units = 0) ∧
      (m.units = Number.unit → r.units = n.units) ∧
      (n.units = Number.unit → r.units = m.units) := by
  cases hkind : m.isInt && n.isInt with
  | true =>
    obtain ⟨x, y, rfl, rfl⟩ := exists_ints hkind
    obtain rfl : r = .int (x * y) := value_inj (Except.ok.inj h).symm
    rw [← Number.units_int_zero, ← Number.units_int_one]
    refine ⟨?_, fun hx => ?_, fun hy => ?_⟩
    · rintro (hx | hy)
      · rw [Number.units_int_inj hx, Int32.zero_mul]
      · rw [Number.units_int_inj hy, Int32.mul_zero]
    · rw [Number.units_int_inj hx, Int32.one_mul]
    · rw [Number.units_int_inj hy, Int32.mul_one]
  -- The product is the rounded product of the units, and those of a decimal are rounded already.
  | false =>
    rw [arith_of_real hkind] at h
    obtain ⟨d, hd, hr⟩ := ofReal?_eq_ok h
    obtain rfl := value_inj hr
    have hunits := Decimal.units_mul? m.toDecimal n.toDecimal
    rw [realArith] at hd
    rw [hd, Option.map_some] at hunits
    change some (Number.real d).units = Decimal.rounded (m.units * n.units) _ at hunits
    refine ⟨?_, fun hm => ?_, fun hn => ?_⟩
    · intro hzero
      rw [Int.mul_eq_zero.mpr hzero, Decimal.rounded, Int.natAbs_zero, Decimal.nearest?_zero,
        Option.map_some, Decimal.signed_zero] at hunits
      exact Option.some.inj hunits
    · rw [hm, Int.mul_comm, Number.unit, Decimal.rounded_mul _ _ (tenPow_pos _),
        rounded_toDecimal] at hunits
      exact Option.some.inj hunits
    · rw [hn, Number.unit, Decimal.rounded_mul _ _ (tenPow_pos _), rounded_toDecimal] at hunits
      exact Option.some.inj hunits

/-- Zero as a summand. -/
theorem add_units (h : arith .add m n = .ok r.value) :
    (m.units = 0 → r.units = n.units) ∧ (n.units = 0 → r.units = m.units) := by
  cases hkind : m.isInt && n.isInt with
  | true =>
    obtain ⟨x, y, rfl, rfl⟩ := exists_ints hkind
    obtain rfl : r = .int (x + y) := value_inj (Except.ok.inj h).symm
    rw [← Number.units_int_zero]
    refine ⟨fun hx => ?_, fun hy => ?_⟩
    · rw [Number.units_int_inj hx, Int32.zero_add]
    · rw [Number.units_int_inj hy, Int32.add_zero]
  | false =>
    rw [arith_of_real hkind] at h
    obtain ⟨d, hd, hr⟩ := ofReal?_eq_ok h
    obtain rfl := value_inj hr
    have hunits := Decimal.units_add? m.toDecimal n.toDecimal
    rw [realArith] at hd
    rw [hd, Option.map_some] at hunits
    change some (Number.real d).units = Decimal.rounded (m.units + n.units) _ at hunits
    refine ⟨fun hm => ?_, fun hn => ?_⟩
    · rw [hm, Int.zero_add, rounded_toDecimal] at hunits
      exact Option.some.inj hunits
    · rw [hn, Int.add_zero, rounded_toDecimal] at hunits
      exact Option.some.inj hunits

namespace Number

/-- **The operand that a law picks is worth the result**, and it is of the kind of the result where
the law does not demote. -/
theorem picked?_spec {k : Number} (hk : picked? op m n = some k)
    (h : binary op m.value n.value = .ok r.value) :
    r.units = k.units ∧ (demotes op m n = false → r.Same k) := by
  have hop : IsArith op := by
    cases op <;> simp only [picked?, reduceCtorEq] at hk
    · exact .inl rfl
    · exact .inr (.inr (.inl rfl))
  rw [binary_of_isArith hop] at h
  have hworth : r.units = k.units := by
    cases op <;> simp only [picked?, reduceCtorEq] at hk
    · have hadd := add_units h
      grind
    · have hmul := mul_units h
      grind
  refine ⟨hworth, fun hkeeps => ⟨hworth, ?_⟩⟩
  rw [arith_kind h]
  rw [demotes, hk, Option.any_some] at hkeeps
  rcases eq_or_eq_of_picked? hk with rfl | rfl
  · revert hkeeps
    cases k.isInt <;> cases n.isInt <;> decide
  · revert hkeeps
    cases m.isInt <;> cases k.isInt <;> decide

end Number

end Value

namespace Folding

open Value Number

theorem isNumber_literal (k : Int32) (n : Number) (span : Span) :
    isNumber k (n.literal span) = decide (n.units = k.toInt * unit) := by
  cases n with
  | int v =>
    rw [literal, isNumber, ← units_int, Bool.eq_iff_iff, beq_iff_eq, decide_eq_true_eq]
    exact ⟨fun h => h ▸ rfl, units_int_inj⟩
  | real d =>
    rw [literal, isNumber, Decimal.compareValue_isEq, ← units_int]
    rfl

/-- A law is applied to two literals, or the operator stays. -/
theorem simplify_literals (op : BinaryOp) (m n : Number) (s t span : Span) :
    (∃ k span', picked? op m n = some k ∧
      simplify op (m.literal s) (n.literal t) span = k.literal span') ∨
    picked? op m n = none ∧
      simplify op (m.literal s) (n.literal t) span =
        .binary op (m.literal s) (n.literal t) span := by
  have hzero (n : Number) (span : Span) : isNumber 0 (n.literal span) = decide (n.units = 0) := by
    rw [isNumber_literal, Int32.toInt_zero, Int.zero_mul]
  have hone (n : Number) (span : Span) :
      isNumber 1 (n.literal span) = decide (n.units = unit) := by
    rw [isNumber_literal, Int32.toInt_one, Int.one_mul]
  have htruth (n : Number) (span : Span) : truth? (n.literal span) = none := by
    cases n <;> rfl
  cases op <;> simp only [simplify, picked?, hzero, hone, htruth, decide_eq_true_eq] <;> grind

end Folding

/-! ### Steady expressions -/

namespace Expr

/-- The number that an expression of literals and operators is worth. -/
def number? (e : Expr) : Option Value.Number := ((e.eval []).bind Value.number).toOption

/-- **Whether no operator of an expression leaves an integer where its result is a real
number.** -/
def steady : Expr → Bool
  | binary op left right _ => left.steady && right.steady &&
      !(left.number?.any fun m => right.number?.any fun n => m.demotes op n)
  | unary _ operand _ => operand.steady
  | _ => true

/-- Whether all operands of the operator of an expression are steady. -/
def operandsSteady : Expr → Bool
  | binary _ left right _ => left.steady && right.steady
  | unary _ operand _ => operand.steady
  | _ => true

theorem number?_eq_some {e : Expr} {n : Value.Number} (h : e.eval [] = .ok n.value) :
    e.number? = some n := by
  rw [number?, h]
  exact congrArg Except.toOption (Value.number_value n)

theorem operandsSteady_of_steady {e : Expr} (h : e.steady = true) : e.operandsSteady = true := by
  cases e with
  | binary op left right span =>
    rw [steady, Bool.and_eq_true] at h
    exact h.1
  | unary op operand span => exact h
  | _ => rfl

theorem not_demotes_of_steady {op : BinaryOp} {left right : Expr} {span : Span}
    {m n : Value.Number} (h : (binary op left right span).steady = true)
    (hm : left.eval [] = .ok m.value) (hn : right.eval [] = .ok n.value) :
    m.demotes op n = false := by
  rw [steady, number?_eq_some hm, number?_eq_some hn, Option.any_some, Option.any_some,
    Bool.and_eq_true, Bool.not_eq_true'] at h
  exact h.2

end Expr

namespace Folding

open Value Number

theorem evaluated_literal (n : Number) (span : Span) :
    evaluated [] (n.literal span) = n.literal span := by
  cases n <;> rfl

theorem evaluated_of_eval {e : Expr} {n : Number} (h : e.eval [] = .ok n.value) :
    ∃ span, evaluated [] e = n.literal span := by
  cases hliteral : isLiteral e with
  | true =>
    rw [evaluated, if_pos hliteral]
    cases e with
    | int v span =>
      obtain rfl : n = .int v := value_inj (Except.ok.inj h).symm
      exact ⟨span, rfl⟩
    | real v span =>
      obtain rfl : n = .real v := value_inj (Except.ok.inj h).symm
      exact ⟨span, rfl⟩
    | str | bool => cases n <;> cases h
    | raw => cases h
    | binary | unary | var | call => cases hliteral
  | false =>
    simp only [evaluated, hliteral, Bool.false_eq_true, if_false, h]
    cases n <;> exact ⟨e.span, rfl⟩

/-- **What an expression worth a number is folded to**: a literal that is worth the same, and of
the same kind if no operator demotes. -/
theorem folded_number : ∀ (e : Expr) {n : Number}, e.eval [] = .ok n.value →
    e.operandsSteady = true → ∃ k span, expr [] e = k.literal span ∧ n.units = k.units ∧
      (e.steady = true → n.Same k)
  | .int v span, n, h, _ => by
    obtain rfl : n = .int v := value_inj (Except.ok.inj h).symm
    exact ⟨_, span, by simp only [expr, literal], rfl, fun _ => .refl _⟩
  | .real v span, n, h, _ => by
    obtain rfl : n = .real v := value_inj (Except.ok.inj h).symm
    exact ⟨_, span, by simp only [expr, literal], rfl, fun _ => .refl _⟩
  | .str _ _, n, h, _ | .bool _ _, n, h, _ => by cases n <;> cases h
  | .raw _ _, _, h, _ | .call _ _ _ _ _, _, h, _ | .var _ [] _, _, h, _
  | .var _ (_ :: _) _, _, h, _ => by cases h
  | .unary op operand span, n, h, hsteady => by
    obtain ⟨a, ha, hv⟩ := Except.bind_eq_ok.mp h
    obtain ⟨m, rfl⟩ := unary_number hv
    obtain ⟨m', s, hoperand, -, hm⟩ :=
      folded_number operand ha (Expr.operandsSteady_of_steady hsteady)
    -- The operand is steady, so its literal has the kind of its value and the operator acts alike.
    obtain ⟨v', hv', r₀, r', hr₀, rfl, hsame⟩ := unary_same (hm hsteady) hv
    obtain rfl := value_inj hr₀
    have heval : (Expr.unary op (m'.literal s) span).eval [] = .ok r'.value := by
      rw [← hv']
      cases m' <;> rfl
    obtain ⟨span', hspan⟩ := evaluated_of_eval heval
    exact ⟨r', span', by simp only [expr, hoperand, hspan], hsame.units, fun _ => hsame⟩
  | .binary op left right span, r, h, hsteady => by
    obtain ⟨a, ha, h⟩ := Except.bind_eq_ok.mp h
    obtain ⟨b, hb, hv⟩ := Except.bind_eq_ok.mp h
    obtain ⟨m, n, rfl, rfl, -⟩ := binary_cases hv
    rw [Expr.operandsSteady, Bool.and_eq_true] at hsteady
    obtain ⟨m', s, hleft, -, hm⟩ :=
      folded_number left ha (Expr.operandsSteady_of_steady hsteady.1)
    obtain ⟨n', t, hright, -, hn⟩ :=
      folded_number right hb (Expr.operandsSteady_of_steady hsteady.2)
    replace hm := hm hsteady.1
    replace hn := hn hsteady.2
    obtain ⟨v', hv', r₀, r', hr₀, rfl, hsame⟩ := binary_same hm hn hv
    obtain rfl := value_inj hr₀
    -- Either an operand is picked as it is, or the folded operands are evaluated.
    simp only [expr, hleft, hright]
    rcases simplify_literals op m' n' s t span with ⟨k, span', hpick, heq⟩ | ⟨-, heq⟩
    · obtain ⟨hunits, hkind⟩ := picked?_spec hpick hv'
      refine ⟨k, span', ?_, hsame.units.trans hunits, fun he => hsame.trans (hkind ?_)⟩
      · rw [heq, evaluated_literal]
      · rw [← demotes_eq hm hn]
        exact Expr.not_demotes_of_steady he ha hb
    · have heval : (Expr.binary op (m'.literal s) (n'.literal t) span).eval [] =
          .ok r'.value := by
        rw [← hv']
        cases m' <;> cases n' <;> rfl
      obtain ⟨span', hspan⟩ := evaluated_of_eval heval
      exact ⟨r', span', by rw [heq, hspan], hsame.units, fun _ => hsame⟩

/-- **Folding keeps real values**: an expression of literals and operators whose value is a real
number is folded to a literal of this value, provided that none of its operands has an operator that
leaves an integer where its result is a real number. Where the operator in front does not do so
either, the literal is a real number too. -/
theorem folded_real_value {e : Expr} {v : Decimal} (h : e.eval [] = .ok (.real v))
    (hsteady : e.operandsSteady = true) : ∃ n span, expr [] e = literal span n ∧
      n.toDecimal.compareValue v = .eq ∧ (e.steady = true → n.isInt = false) := by
  obtain ⟨n, span, heq, hunits, hsame⟩ := folded_number e (n := .real v) h hsteady
  refine ⟨n, span, heq, ?_, fun he => (hsame he).kind.symm⟩
  rw [← Ordering.isEq_iff_eq_eq, Decimal.compareValue_isEq, decide_eq_true_eq]
  exact hunits.symm

/-- A quotient whose divisor is `0.5 * 5 + 0`, with one more factor of `1.0`. -/
def sampleQuotient : Expr :=
  .binary .mul
    (.binary .div (.int 7 .zero)
      (.binary .add (.binary .mul (.real ⟨false, 5, 1, by decide, by decide⟩ .zero) (.int 5 .zero)
        .zero) (.int 0 .zero) .zero) .zero)
    (.real ⟨false, 10, 1, by decide, by decide⟩ .zero) .zero

theorem sampleQuotient_folded :
    sampleQuotient.eval [] = .ok (.real ⟨false, 280, 2, by decide, by decide⟩) ∧
      sampleQuotient.operandsSteady = true ∧
      ∃ n span, expr [] sampleQuotient = literal span n ∧
        n.toDecimal.compareValue ⟨false, 280, 2, by decide, by decide⟩ = .eq ∧
          (sampleQuotient.steady = true → n.isInt = false) := by
  have heval : sampleQuotient.eval [] = .ok (.real ⟨false, 280, 2, by decide, by decide⟩) := by
    rfl
  have hsteady : sampleQuotient.operandsSteady = true := by
    decide +kernel
  exact ⟨heval, hsteady, folded_real_value heval hsteady⟩

end Folding

end FlatScript
