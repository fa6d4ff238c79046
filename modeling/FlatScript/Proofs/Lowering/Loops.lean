import FlatScript.Proofs.Folding.Reals
import FlatScript.Proofs.Lowering.Scheme

/-!
# Loops that count below a bound

A loop that counts to `N - 1` is lowered to one whose condition is `v < N`, and nothing is
subtracted any more. What is written is another comparison all the same, and this file says of which
numbers the two are worth the same: of all integers, as long as `N - 1` does not wrap around, and of
all real numbers that do not stand between `N - 1` and `N`.

* `FlatScript.Value.StrictBound` says what the two comparisons of three numbers are worth.
* `FlatScript.Value.strictBound` is the fact for any three numbers of which the last one is the
  second less one; the difference of real numbers is rounded, but never by as much as one.
* `FlatScript.Lowering.loopCondition_strictBound` is the fact for the condition of a loop, before
  and after its references are resolved.
-/

namespace FlatScript

namespace Value

/-! ### Comparisons -/

/-- **What a strict comparison makes of a bound less one.** A number `x` is compared with a bound
`y`, which is worth `b`, and with `y - 1`, which is `m`; this is worth `b'`. -/
structure StrictBound (x y m : Number) (b b' : Value) : Prop where
  /-- The comparison with the bound is strict. -/
  strict : b = .bool (x.units < y.units)
  /-- The other comparison is not. -/
  weak : b' = .bool (x.units ≤ m.units)
  /-- They are worth the same unless the number is between the bound less one and the bound. -/
  between : y ≠ .int Int32.minValue →
    m.units < y.units ∧ (b = b' ↔ ¬ (m.units < x.units ∧ x.units < y.units))
  /-- The least integer less one is the largest one; then they are worth the same only for numbers
  outside of the range of integers. -/
  wrapped : y = .int Int32.minValue →
    m = .int Int32.maxValue ∧ (b = b' ↔ x.units < y.units ∨ m.units < x.units)
  /-- There is no integer between. -/
  integers : ∀ i j, x = .int i → y = .int j → (b = b' ↔ j ≠ Int32.minValue)

variable {x y m : Number} {b b' v : Value}

theorem binary_less (x y : Number) :
    binary .less x.value y.value = .ok (.bool (x.units < y.units)) := by
  have hlt : (x.toDecimal.compareValue y.toDecimal).isLT = decide (x.units < y.units) := by
    rw [Decimal.compareValue, Bool.eq_iff_iff, decide_eq_true_eq, Ordering.isLT_iff_eq_lt,
      compare_lt_iff_lt]
    rfl
  rw [← hlt]
  cases x <;> cases y <;> rfl

theorem binary_lessEqual (x y : Number) :
    binary .lessEqual x.value y.value = .ok (.bool (x.units ≤ y.units)) := by
  have hle : (x.toDecimal.compareValue y.toDecimal).isLE = decide (x.units ≤ y.units) := by
    rw [Decimal.compareValue, Bool.eq_iff_iff, decide_eq_true_eq, Ordering.isLE_iff_ne_gt]
    exact compare_le_iff_le
  rw [← hle]
  cases x <;> cases y <;> rfl

/-- The two sides of a comparison are numbers. -/
theorem numbers_of_binary {op : BinaryOp} {a c : Value} (hop : op = .less ∨ op = .lessEqual)
    (h : binary op a c = .ok v) : ∃ x y : Number, a = x.value ∧ c = y.value := by
  rcases hop with rfl | rfl
  all_goals
    obtain ⟨x, hx, h⟩ := Except.bind_eq_ok.mp h
    obtain ⟨y, hy, -⟩ := Except.bind_eq_ok.mp h
    exact ⟨x, y, number_eq_ok_iff.mp hx, number_eq_ok_iff.mp hy⟩

/-! ### One less -/

theorem toInt_pred {j : Int32} (hj : j ≠ Int32.minValue) : (j - 1).toInt = j.toInt - 1 := by
  have hlow := j.le_toInt
  have hhigh := j.toInt_lt
  have hne : j.toInt ≠ -2147483648 := fun h => hj (Int32.toInt_inj.mp h)
  rw [Int32.toInt_sub]
  have hone : (1 : Int32).toInt = 1 := rfl
  rw [hone]
  simp only [Int.bmod_def]
  omega

/-- One less is less, if it does not wrap around. -/
theorem units_pred_lt (h : binary .sub y.value (.int 1) = .ok m.value)
    (hy : y ≠ .int Int32.minValue) : m.units < y.units := by
  have h : arith .sub y (.int 1) = .ok m.value :=
    (binary_of_isArith (.inr (.inl rfl))).symm.trans h
  cases y with
  | int j =>
    have hj : j ≠ Int32.minValue := fun heq => hy (congrArg Number.int heq)
    obtain rfl : m = .int (j - 1) := value_inj (Except.ok.inj h).symm
    have hunit : (0 : Int) < Number.unit := by decide
    rw [Number.units_int, Number.units_int, toInt_pred hj]
    exact Int.mul_lt_mul_of_pos_right (by omega) hunit
  | real d =>
    obtain ⟨c, hc, hm⟩ := ofReal?_eq_ok h
    obtain rfl := value_inj hm
    refine Decimal.units_lt_of_sub? hc ?_
    have hone := Number.units_int 1
    exact le_of_eq ((Int.one_mul _).symm.trans hone.symm)

/-- **The two comparisons**, of any numbers. -/
theorem strictBound (h : binary .sub y.value (.int 1) = .ok m.value)
    (hb : binary .less x.value y.value = .ok b)
    (hb' : binary .lessEqual x.value m.value = .ok b') : StrictBound x y m b b' := by
  rw [binary_less] at hb
  rw [binary_lessEqual] at hb'
  obtain rfl := Except.ok.inj hb
  obtain rfl := Except.ok.inj hb'
  have hagree : Value.bool (x.units < y.units) = .bool (x.units ≤ m.units) ↔
      (x.units < y.units ↔ x.units ≤ m.units) := by
    rw [Value.bool.injEq, decide_eq_decide]
  -- The bound lies one lower, unless it is the least integer, which wraps around to the greatest.
  have hwrapped (hy : y = .int Int32.minValue) : m = .int Int32.maxValue := by
    subst hy
    exact value_inj (Except.ok.inj h).symm
  have hleast : (Number.int Int32.minValue).units < (Number.int Int32.maxValue).units := by decide
  refine ⟨rfl, rfl, ?between, ?wrapped, ?integers⟩
  case between =>
    intro hy
    have hlt := units_pred_lt h hy
    refine ⟨hlt, hagree.trans ?_⟩
    omega
  case wrapped =>
    intro hy
    obtain rfl := hwrapped hy
    subst hy
    refine ⟨rfl, hagree.trans ?_⟩
    omega
  case integers =>
    rintro i j rfl rfl
    have hunit : (0 : Int) < Number.unit := by decide
    rw [hagree]
    by_cases hj : j = Int32.minValue
    · obtain rfl := hwrapped (congrArg Number.int hj)
      subst hj
      have hlow := i.le_toInt
      have hhigh := i.toInt_lt
      rw [Number.units_int, Number.units_int, Number.units_int, Int.mul_lt_mul_right hunit,
        Int.mul_le_mul_right hunit]
      have hmin : Int32.minValue.toInt = -2147483648 := rfl
      have hmax : Int32.maxValue.toInt = 2147483647 := rfl
      refine iff_of_false ?_ (fun h => h rfl)
      omega
    · obtain rfl : m = .int (j - 1) := value_inj (Except.ok.inj h).symm
      rw [Number.units_int, Number.units_int, Number.units_int, toInt_pred hj,
        Int.mul_lt_mul_right hunit, Int.mul_le_mul_right hunit]
      refine iff_of_true ?_ hj
      omega

end Value

namespace Lowering

open Value (Number StrictBound)

/-! ### Conditions -/

/-- **A strict condition in the place of another one.** Whatever the variables are worth, if both
`strict` and `v <= stop` have values, then these are as for the numbers that `v`, `n` and `stop`
are worth. -/
def StandsFor (strict v n stop : Expr) : Prop :=
  ∀ constants b b', strict.eval constants = .ok b →
    (v.op .lessEqual stop).eval constants = .ok b' →
    ∃ x y m : Number, v.eval constants = .ok x.value ∧ n.eval constants = .ok y.value ∧
      stop.eval constants = .ok m.value ∧ StrictBound x y m b b'

theorem standsFor {v n : Expr} {s s' s'' : Span} :
    StandsFor (.binary .less v n s) v n (.binary .sub n (.int 1 s') s'') := by
  intro constants b b' hb hb'
  simp only [Expr.op, Expr.eval] at hb hb'
  obtain ⟨a, ha, hb⟩ := Except.bind_eq_ok.mp hb
  obtain ⟨c, hc, hb⟩ := Except.bind_eq_ok.mp hb
  obtain ⟨_, ha', hb'⟩ := Except.bind_eq_ok.mp hb'
  obtain ⟨d, hd, hb'⟩ := Except.bind_eq_ok.mp hb'
  cases ha.symm.trans ha'
  obtain ⟨x, y, rfl, rfl⟩ := Value.numbers_of_binary (.inl rfl) hb
  obtain ⟨_, m, hx, rfl⟩ := Value.numbers_of_binary (.inr rfl) hb'
  refine ⟨x, y, m, ha, hc, hd, Value.strictBound ?_ hb hb'⟩
  rw [hc] at hd
  exact hd

/-- **Loops that count below a bound.** A loop that counts to `N - 1` has the condition `v < N`, and
after its references are resolved it is the same comparison with the same bound. Whatever the
variables are worth, if both this condition and `v <= N - 1` have values, they have the same one
exactly when `N` is not the least integer and `v` not between `N - 1` and `N`, or when `N` is the least
integer and `v` outside of the range of integers. So for integers `v` and `N` they have the same one
exactly when `N` is not the least integer. -/
theorem loopCondition_strictBound {var : VarRef} {n one : Expr} {s : Span}
    (hone : one.isInt 1 = true) :
    StandsFor (loopCondition var (.binary .sub n one s) false) var.toExpr n (.binary .sub n one s) ∧
    ∀ env families start step body span trace state out state',
      (stmt env families
        ⟨.forLoop var start (.binary .sub n one s) step false body, span, trace⟩).run state =
          .ok (out, state') →
      ∃ r first body', out = [first,
          ⟨.whileLoop (expr r (loopCondition var (.binary .sub n one s) false)) body', span, trace⟩] ∧
        expr r (loopCondition var (.binary .sub n one s) false) =
          .binary .less (expr r var.toExpr) (expr r n) (var.toExpr.span.merge n.span) ∧
        StandsFor (expr r (loopCondition var (.binary .sub n one s) false)) (expr r var.toExpr)
          (expr r n) (expr r (.binary .sub n one s)) := by
  obtain ⟨s', rfl⟩ : ∃ s', one = .int 1 s' := by
    cases one with
    | int v s' => exact ⟨s', by rw [beq_iff_eq.mp hone]⟩
    | _ => cases hone
  have hcond : loopCondition var (.binary .sub n (.int 1 s') s) false = var.toExpr.op .less n := rfl
  rw [hcond]
  refine ⟨standsFor, ?_⟩
  intro env families start step body span trace state out state' hrun
  simp only [stmt] at hrun
  obtain ⟨first, s₁, -, hrun⟩ := StateT.bind_eq_ok.mp hrun
  obtain ⟨r, _, hrefs, hrun⟩ := StateT.bind_eq_ok.mp hrun
  rw [refs_run] at hrefs
  cases hrefs
  obtain ⟨body', s₂, -, hrun⟩ := StateT.bind_eq_ok.mp hrun
  obtain ⟨last, s₃, -, hrun⟩ := StateT.bind_eq_ok.mp hrun
  cases hrun
  exact ⟨_, first, _, rfl, by rw [Expr.op, expr], by simpa only [Expr.op, expr] using standsFor⟩

/-! ### Three loops -/

/-- The variable of the loops. -/
def counter : VarRef := .plain (.ofText "$i" .zero)

/-- A name in the place of `N`. -/
def limit : Expr := .var (.ofText "$n" .zero) [] .zero

/-- The bound of the loops. -/
def limitLessOne : Expr := limit.op .sub (.int 1 .zero)

/-- Integers for the variables of the loops. -/
def integersFor (i n : Int32) : Constants := [("$i", .int i), ("$n", .int n)]

/-- A half for the variable, and one for the bound. -/
def halfBelowOne : Constants :=
  [("$i", .real ((Decimal.ofParts? false 5 1).getD .zero)),
    ("$n", .real ((Decimal.ofParts? false 10 1).getD .zero))]

/-- **Two loops that are changed.** With the least integer for `N`, the loop that is written ends at
once, and `v <= N - 1` would go on; with real numbers it is the other way around. -/
theorem strictBound_differs :
    (loopCondition counter limitLessOne false).eval (integersFor 5 (-2147483648)) =
      .ok (.bool false) ∧
    (counter.toExpr.op .lessEqual limitLessOne).eval (integersFor 5 (-2147483648)) =
      .ok (.bool true) ∧
    (loopCondition counter limitLessOne false).eval halfBelowOne = .ok (.bool true) ∧
    (counter.toExpr.op .lessEqual limitLessOne).eval halfBelowOne = .ok (.bool false) := by
  decide +kernel

/-- A loop from three to a bound less one, after which the counter is stepped by two. -/
def countedLoop : StmtKind :=
  .forLoop counter (.int 3 .zero) limitLessOne (some (.int 2 .zero)) false []

/-- A loop that is kept: its condition is true in the same way, before and after its references are
resolved. -/
theorem countedLoop_strictBound :
    (∃ x y m, StrictBound x y m (.bool true) (.bool true) ∧
      counter.toExpr.eval (integersFor 3 5) = .ok x.value ∧
      limit.eval (integersFor 3 5) = .ok y.value ∧ limitLessOne.eval (integersFor 3 5) = .ok m.value) ∧
    ∃ out state', (stmt ⟨{}, .empty⟩ [] ⟨countedLoop, .zero, []⟩).run ⟨{}, none⟩ = .ok (out, state') ∧
      ∃ r first body', out = [first,
          ⟨.whileLoop (expr r (loopCondition counter limitLessOne false)) body', .zero, []⟩] ∧
        StandsFor (expr r (loopCondition counter limitLessOne false)) (expr r counter.toExpr)
          (expr r limit) (expr r limitLessOne) := by
  obtain ⟨hhere, hlowered⟩ :=
    @loopCondition_strictBound counter limit (.int 1 .zero) (limit.span.merge .zero) rfl
  obtain ⟨x, y, m, hx, hy, hm, hbound⟩ := hhere (integersFor 3 5) (.bool true) (.bool true)
    (by decide +kernel) (by decide +kernel)
  refine ⟨⟨x, y, m, hbound, hx, hy, hm⟩, ?_⟩
  cases hrun : (stmt ⟨{}, .empty⟩ [] ⟨countedLoop, .zero, []⟩).run ⟨{}, none⟩ with
  | error e => cases hrun
  | ok result =>
    obtain ⟨out, state'⟩ := result
    obtain ⟨r, first, body', hout, -, hstands⟩ := hlowered _ _ _ _ _ _ _ _ _ _ hrun
    exact ⟨out, state', rfl, r, first, body', hout, hstands⟩

end Lowering

end FlatScript
