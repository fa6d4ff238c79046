import FlatScript.Proofs.Folding
import FlatScript.Proofs.Running.Execution

/-!
# Folding keeps what a script does

Folding evaluates what it can, applies the laws of zero, one and the truth values, and drops the
statements that are never run. None of it can be seen from outside: statements that run to their
end still do after folding, from the same store to the same store and with the same events.

Types are needed for that, because `true or x` is true for everything that `x` may be while
`false or x` is `x` for truth values only, and `0 * x` is an integer although `x` might be a real.
The constants have to have their values in the store, and nothing may assign them: `inc(c)` of a
constant would become `inc(5)`.
-/

namespace FlatScript.Running

variable {I : Interpretation} {σ σ₁ σ₂ : Store} {Γ : Typing} {constants : Constants}

/-! ### Expressions -/

/-- **A constant expression is worth the same at run time.** -/
theorem value_of_eval (hc : σ.Holds constants) :
    ∀ {e : Expr} {v : Value}, e.eval constants = .ok v → value I σ e = .ok v
  | .int _ _, _, h | .real _ _, _, h | .str _ _, _, h | .bool _ _, _, h => h
  | .raw _ _, _, h | .call _ _ _ _ _, _, h | .var _ (_ :: _) _, _, h => by cases h
  | .var i [] _, v, h => by
    simp only [Expr.eval] at h
    split at h
    · next v' hv' =>
      cases h
      exact value_var.mpr ⟨[], rfl, hc _ _ hv'⟩
    · cases h
  | .unary _ _ _, _, h => by
    obtain ⟨a, ha, hv⟩ := Except.bind_eq_ok.mp h
    exact value_unary.mpr ⟨a, value_of_eval hc ha, hv⟩
  | .binary _ _ _ _, _, h => by
    obtain ⟨a, ha, h⟩ := Except.bind_eq_ok.mp h
    obtain ⟨b, hb, hv⟩ := Except.bind_eq_ok.mp h
    exact value_binary.mpr ⟨a, value_of_eval hc ha, b, value_of_eval hc hb, hv⟩

/-- The literal for a value is worth that value. -/
theorem value_toExpr? {v : Value} {span : Span} {e : Expr} (h : v.toExpr? span = some e) :
    value I σ e = .ok v := by
  cases v <;> cases h <;> rfl

theorem value_evaluated (hc : σ.Holds constants) {e : Expr} {v : Value} (h : value I σ e = .ok v) :
    value I σ (Folding.evaluated constants e) = .ok v := by
  unfold Folding.evaluated
  split
  · exact h
  · split
    · next v' hv' =>
      cases (value_of_eval hc hv').symm.trans h
      cases he : v.toExpr? e.span with
      | none => exact h
      | some e' => exact value_toExpr? he
    · exact h

theorem eq_of_isNumber {m n : Int32} {e : Expr} (h : value I σ e = .ok (.int n))
    (hm : Folding.isNumber m e = true) : n = m := by
  cases e with
  | int v span =>
    cases h
    exact beq_iff_eq.mp hm
  | real v span => cases h
  | binary | unary | str | bool | var | call | raw => cases hm

theorem eq_of_truth? {e : Expr} {v : Value} {b : Bool} (h : value I σ e = .ok v)
    (hb : Folding.truth? e = some b) : v = .bool b := by
  cases e with
  | bool b' span =>
    cases hb
    cases h
    rfl
  | binary | unary | int | real | str | var | call | raw => cases hb

theorem binaryType_operands {op : BinaryOp} {operand result τ₁ τ₂ τ : Ty}
    (hsignature : signature op = some (operand, result)) (h : binaryType op τ₁ τ₂ = some τ) :
    τ₁ = operand ∧ τ₂ = operand := by
  simp only [binaryType, hsignature, Option.ite_none_right_eq_some] at h
  exact h.1

section Laws

variable {left right : Expr} {span : Span}

theorem simplified_mul {m n : Int32} (hl : value I σ left = .ok (.int m))
    (hr : value I σ right = .ok (.int n)) :
    value I σ (Folding.simplify .mul left right span) = .ok (.int (m * n)) := by
  simp only [Folding.simplify]
  split_ifs with h h h h
  · cases eq_of_isNumber hl h
    rwa [Int32.zero_mul]
  · rwa [eq_of_isNumber hl h, Int32.one_mul]
  · cases eq_of_isNumber hr h
    rwa [Int32.mul_zero]
  · rwa [eq_of_isNumber hr h, Int32.mul_one]
  · exact value_binary.mpr ⟨_, hl, _, hr, rfl⟩

theorem simplified_add {m n : Int32} (hl : value I σ left = .ok (.int m))
    (hr : value I σ right = .ok (.int n)) :
    value I σ (Folding.simplify .add left right span) = .ok (.int (m + n)) := by
  simp only [Folding.simplify]
  split_ifs with h h
  · rwa [eq_of_isNumber hl h, Int32.zero_add]
  · rwa [eq_of_isNumber hr h, Int32.add_zero]
  · exact value_binary.mpr ⟨_, hl, _, hr, rfl⟩

theorem simplified_or {x y : Bool} (hl : value I σ left = .ok (.bool x))
    (hr : value I σ right = .ok (.bool y)) :
    value I σ (Folding.simplify .or left right span) = .ok (.bool (x || y)) := by
  simp only [Folding.simplify]
  split
  · next t ht =>
    cases eq_of_truth? hl ht
    cases x <;> assumption
  · next t _ ht =>
    cases eq_of_truth? hr ht
    cases y
    · simpa using hl
    · simpa using hr
  · exact value_binary.mpr ⟨_, hl, _, hr, rfl⟩

theorem simplified_and {x y : Bool} (hl : value I σ left = .ok (.bool x))
    (hr : value I σ right = .ok (.bool y)) :
    value I σ (Folding.simplify .and left right span) = .ok (.bool (x && y)) := by
  simp only [Folding.simplify]
  split
  · next t ht =>
    cases eq_of_truth? hl ht
    cases x <;> assumption
  · next t _ ht =>
    cases eq_of_truth? hr ht
    cases y
    · simpa using hr
    · simpa using hl
  · exact value_binary.mpr ⟨_, hl, _, hr, rfl⟩

/-- **The laws keep the value** of an operation whose operands have the right types. -/
theorem value_simplify {op : BinaryOp} {τ₁ τ₂ τ : Ty} {a b v : Value}
    (hop : binaryType op τ₁ τ₂ = some τ) (ha : Ty.of? a = some τ₁) (hb : Ty.of? b = some τ₂)
    (hl : value I σ left = .ok a) (hr : value I σ right = .ok b)
    (hv : Value.binary op a b = .ok v) :
    value I σ (Folding.simplify op left right span) = .ok v := by
  have hboth : value I σ (.binary op left right span) = .ok v :=
    value_binary.mpr ⟨a, hl, b, hr, hv⟩
  cases op with
  | mul | add =>
    obtain ⟨rfl, rfl⟩ := binaryType_operands rfl hop
    obtain ⟨m, rfl⟩ := Ty.of?_int ha
    obtain ⟨n, rfl⟩ := Ty.of?_int hb
    cases hv
    first | exact simplified_mul hl hr | exact simplified_add hl hr
  | or | and =>
    obtain ⟨rfl, rfl⟩ := binaryType_operands rfl hop
    obtain ⟨x, rfl⟩ := Ty.of?_bool ha
    obtain ⟨y, rfl⟩ := Ty.of?_bool hb
    cases hv
    first | exact simplified_or hl hr | exact simplified_and hl hr
  | _ => exact hboth

end Laws

mutual

/-- **A folded expression has the value it had.** -/
theorem value_expr (hI : I.Respects Γ) (hσ : σ.Respects Γ) (hc : σ.Holds constants) :
    ∀ {e : Expr} {τ : Ty} {v : Value}, typeOf Γ e = some τ → value I σ e = .ok v →
      value I σ (Folding.expr constants e) = .ok v
  | .int _ _, _, _, _, hv | .bool _ _, _, _, _, hv | .str _ _, _, _, _, hv => by
    simpa only [Folding.expr] using hv
  | .real _ _, _, _, ht, _ | .raw _ _, _, _, ht, _ => by cases ht
  | .var i subscripts _, _, _, ht, hv => by
    obtain ⟨vs, hvs, hread⟩ := value_var.mp hv
    simp only [typeOf, Option.ite_none_right_eq_some] at ht
    simp only [Folding.expr]
    exact value_evaluated hc (value_var.mpr ⟨vs, values_exprs hI hσ hc ht.1 hvs, hread⟩)
  | .call name args _ _ _, _, _, ht, hv => by
    obtain ⟨vs, hvs, hcall⟩ := value_call.mp hv
    simp only [typeOf, Option.ite_none_right_eq_some] at ht
    simp only [Folding.expr]
    exact value_call.mpr ⟨vs, values_exprs hI hσ hc ht.1 hvs, hcall⟩
  | .unary op operand _, _, _, ht, hv => by
    obtain ⟨a, ha, hv⟩ := value_unary.mp hv
    obtain ⟨τ, hτ, -⟩ := Option.bind_eq_some_iff.mp ht
    simp only [Folding.expr]
    exact value_evaluated hc (value_unary.mpr ⟨a, value_expr hI hσ hc hτ ha, hv⟩)
  | .binary op left right _, _, _, ht, hv => by
    obtain ⟨a, ha, b, hb, hv⟩ := value_binary.mp hv
    obtain ⟨τ₁, h₁, ht⟩ := Option.bind_eq_some_iff.mp ht
    obtain ⟨τ₂, h₂, hop⟩ := Option.bind_eq_some_iff.mp ht
    simp only [Folding.expr]
    exact value_evaluated hc (value_simplify hop (typeOf_sound hI hσ h₁ ha)
      (typeOf_sound hI hσ h₂ hb) (value_expr hI hσ hc h₁ ha) (value_expr hI hσ hc h₂ hb) hv)

theorem values_exprs (hI : I.Respects Γ) (hσ : σ.Respects Γ) (hc : σ.Holds constants) :
    ∀ {es : List Expr} {vs : List Value}, areTyped Γ es = true → values I σ es = .ok vs →
      values I σ (Folding.exprs constants es) = .ok vs
  | [], _, _, hvs => by simpa only [Folding.exprs] using hvs
  | e :: es, _, ht, hvals => by
    obtain ⟨v, hv, vs, hvs, rfl⟩ := values_cons.mp hvals
    simp only [areTyped, Bool.and_eq_true] at ht
    obtain ⟨τ, hτ⟩ := Option.isSome_iff_exists.mp ht.1
    simp only [Folding.exprs]
    exact values_cons.mpr ⟨v, value_expr hI hσ hc hτ hv, vs, values_exprs hI hσ hc ht.2 hvs, rfl⟩

end

/-! ### Single statements -/

theorem place_varRef (hI : I.Respects Γ) (hσ : σ.Respects Γ) (hc : σ.Holds constants) {v : VarRef}
    {τ : Ty} {p : Place} (ht : typeOf Γ v.toExpr = some τ) (hp : place I σ v = .ok p) :
    place I σ (Folding.varRef constants v) = .ok p := by
  obtain ⟨vs, hvs, rfl⟩ := place_eq_ok.mp hp
  simp only [VarRef.toExpr, typeOf, Option.ite_none_right_eq_some] at ht
  exact place_eq_ok.mpr ⟨vs, values_exprs hI hσ hc ht.1 hvs, rfl⟩

/-- A reference that is to no constant stays a reference. -/
theorem expr_var {i : Ident} {subscripts : List Expr} {span : Span}
    (h : ∀ name, scalar? ⟨i, subscripts, span⟩ = some name → constants.lookup name = none) :
    Folding.expr constants (.var i subscripts span) =
      .var i (Folding.exprs constants subscripts) span := by
  have heval : Expr.eval constants (.var i (Folding.exprs constants subscripts) span) =
      .error .notConstant := by
    cases subscripts with
    | nil =>
      have hnone : constants.lookup (Text.lower i.full) = none := h _ rfl
      simp only [Folding.exprs, Expr.eval, hnone]
    | cons e es => simp only [Folding.exprs, Expr.eval]
  simp only [Folding.expr, Folding.evaluated, Folding.isLiteral, heval, Bool.false_eq_true,
    if_false]

theorem exprs_append (es es' : List Expr) :
    Folding.exprs constants (es ++ es') =
      Folding.exprs constants es ++ Folding.exprs constants es' := by
  induction es with
  | nil => simp only [Folding.exprs, List.nil_append]
  | cons e es ih => simp only [List.cons_append, Folding.exprs, ih]

theorem exprs_toList (o : Option Expr) :
    (o.map (Folding.expr constants)).toList = Folding.exprs constants o.toList := by
  cases o <;> simp [Folding.exprs]

theorem initial_folded (o : Option Initializer) :
    initial (o.map (Folding.initializer constants)) = Folding.exprs constants (initial o) := by
  rcases o with _ | _ | _ <;> simp [initial, Folding.initializer, Folding.exprs]

theorem starts_folded (d : Declaration) : starts (Folding.declaration constants d) = starts d := by
  have hconst : (Folding.declaration constants d).isConst = d.isConst := rfl
  unfold starts
  rw [hconst]
  rcases hinit : d.init with _ | _ | _ <;>
    simp [Folding.declaration, Folding.initializer, Folding.length_exprs, hinit]

/-- **A folded statement without parts does the same.** -/
theorem Effect.folded (hI : I.Respects Γ) (hσ : σ.Respects Γ) (hc : σ.Holds constants)
    {k : StmtKind} (ht : wellTyped Γ k = true)
    (hk : ∀ name ∈ assigned k, constants.lookup name = none) {es : List Event} {span : Span}
    {trace : List Span} (h : Effect I σ k σ₁ es) :
    Exec I σ (Folding.stmt constants ⟨k, span, trace⟩) σ₁ es := by
  cases h with
  | assign hp hv =>
    simp only [wellTyped, Bool.and_eq_true, beq_iff_eq] at ht
    obtain ⟨τ, hτ⟩ := Option.isSome_iff_exists.mp ht.1
    simp only [Folding.stmt]
    exact .single (.assign (place_varRef hI hσ hc (ht.2.trans hτ) hp) (value_expr hI hσ hc hτ hv))
  | @count c n i subscripts span' p m hn hargs hp hm =>
    simp only [wellTyped, hn, hargs, Option.isNone_some, Bool.false_or, List.all_cons, List.all_nil,
      Bool.and_true, Bool.and_eq_true, beq_iff_eq] at ht
    have hkept : Folding.exprs constants c.args =
        [.var i (Folding.exprs constants subscripts) span'] := by
      rw [hargs]
      simp only [Folding.exprs]
      rw [expr_var]
      intro name hname
      exact hk name (by simp [assigned, hn, hargs, Expr.asVar?, hname])
    have hplace : place I σ (Folding.varRef constants ⟨i, subscripts, span'⟩) = .ok p :=
      place_varRef hI hσ hc (τ := .int) ht.2 hp
    simp only [Folding.stmt]
    exact .single (.count hn hkept hplace hm)
  | event hn hvs =>
    simp only [wellTyped, Bool.and_eq_true] at ht
    simp only [Folding.stmt]
    exact .single (.event hn (values_exprs hI hσ hc ht.1 hvs))
  | @declare d vs ws hvs hws =>
    simp only [wellTyped, Bool.and_eq_true] at ht
    have hvs' := values_exprs hI hσ hc ht.1.1 hvs
    have hws' := values_exprs hI hσ hc ht.1.2 hws
    rw [exprs_append, ← exprs_toList] at hvs'
    rw [← initial_folded] at hws'
    simp only [Folding.stmt]
    have heffect : Effect I σ (.declare (Folding.declaration constants d)) _ _ :=
      .declare hvs' hws'
    rw [starts_folded] at heffect
    exact .single heffect

/-! ### Choices -/

/-- The condition that is always kept is true. -/
theorem value_of_isKeptCondition {e : Expr} (h : Folding.isKeptCondition e = true) :
    value I σ e = .ok (.bool true) := by
  unfold Folding.isKeptCondition at h
  split at h
  · next left right span =>
    rw [Bool.and_eq_true] at h
    have hone : ∀ {e : Expr}, e.isInt 1 = true → value I σ e = .ok (.int 1) := by
      intro e he
      cases e with
      | int v span =>
        rw [Expr.isInt, beq_iff_eq] at he
        rw [he]
        rfl
      | binary | unary | real | str | bool | var | call | raw => cases he
    exact value_binary.mpr ⟨_, hone h.1, _, hone h.2, by decide⟩
  · cases h

/-- **The kept branches choose the body that all of them chose**, folded. -/
theorem branchFor_folded (hI : I.Respects Γ) (hσ : σ.Respects Γ) (hc : σ.Holds constants)
    {otherwise body : List Stmt} :
    ∀ {bs : List Branch}, (∀ b ∈ bs, typeOf Γ b.cond = some .bool) →
      branchFor I σ otherwise bs = .ok body →
      branchFor I σ ((Folding.branches constants bs).2.getD (Folding.stmts constants otherwise))
        (Folding.branches constants bs).1 = .ok (Folding.stmts constants body)
  | [], _, h => by
    cases h
    simp only [Folding.branches]
    rfl
  | ⟨cond, body'⟩ :: rest, ht, h => by
    obtain ⟨hcond, hrest⟩ := List.forall_mem_cons.mp ht
    simp only [Folding.branches]
    rcases branchFor_cons.mp h with ⟨hv, rfl⟩ | ⟨hv, h⟩
    · have hv' := value_expr hI hσ hc hcond hv
      split
      · rfl
      · next hfalse => cases eq_of_truth? hv' hfalse
      · exact branchFor_cons.mpr (.inl ⟨hv', rfl⟩)
    · have hv' := value_expr hI hσ hc hcond hv
      have ih := branchFor_folded hI hσ hc hrest h
      split
      · next htrue => cases eq_of_truth? hv' htrue
      · exact ih
      · exact branchFor_cons.mpr (.inr ⟨hv', ih⟩)

theorem Exec.chain {bs : List Branch} {otherwise body : List Stmt} {es : List Event} {span : Span}
    {trace : List Span} (h : branchFor I σ otherwise bs = .ok body) (hbody : Exec I σ body σ₁ es) :
    Exec I σ (Folding.chain bs otherwise span trace) σ₁ es := by
  cases bs with
  | nil =>
    cases h
    exact hbody
  | cons b bs =>
    have hrun : Exec I σ [⟨.ifChain (b :: bs) otherwise, span, trace⟩] σ₁ (es ++ []) :=
      .choice h hbody .nil
    rwa [List.append_nil] at hrun

theorem caseFor_folded (hI : I.Respects Γ) (hσ : σ.Respects Γ) (hc : σ.Holds constants) {n : Int32}
    {body : List Stmt} :
    ∀ {cs : List Case},
      (∀ c ∈ cs, typeOf Γ c.start = some .int ∧ ∀ e ∈ c.stop, typeOf Γ e = some .int) →
      caseFor I σ n cs = .ok body →
      caseFor I σ n (Folding.cases constants cs) = .ok (Folding.stmts constants body)
  | [], _, h => by
    cases h
    simp only [Folding.cases, Folding.stmts]
    rfl
  | ⟨start, stop, body'⟩ :: rest, ht, h => by
    obtain ⟨⟨hstart, hstop⟩, hrest⟩ := List.forall_mem_cons.mp ht
    obtain ⟨m, hm, o, ho, h⟩ := caseFor_cons.mp h
    have ho' : Option.Rel (fun e m => value I σ e = .ok (.int m))
        (stop.map (Folding.expr constants)) o := by
      cases ho with
      | none => exact .none
      | some hv => exact .some (value_expr hI hσ hc (hstop _ rfl) hv)
    simp only [Folding.cases]
    refine caseFor_cons.mpr ⟨m, value_expr hI hσ hc hstart hm, o, ho', ?_⟩
    rcases h with ⟨hcovers, rfl⟩ | ⟨hcovers, h⟩
    · exact .inl ⟨hcovers, rfl⟩
    · exact .inr ⟨hcovers, caseFor_folded hI hσ hc hrest h⟩

theorem value_of_int? {e : Expr} {n : Int32} (h : Folding.int? e = some n) :
    value I σ e = .ok (.int n) := by
  cases e with
  | int v span =>
    cases h
    rfl
  | binary | unary | real | str | bool | var | call | raw => cases h

/-- A case whose bounds are known has the numbers that it seems to have. -/
theorem covers_eq_inCase {n m : Int32} {c : Case} {o : Option Int32}
    (hknown : Folding.isKnownCase c = true) (hm : value I σ c.start = .ok (.int m))
    (ho : Option.Rel (fun e m => value I σ e = .ok (.int m)) c.stop o) :
    covers n m o = Folding.inCase n c := by
  obtain ⟨start, stop, body⟩ := c
  simp only [Folding.isKnownCase, Bool.and_eq_true] at hknown
  obtain ⟨m', hm'⟩ := Option.isSome_iff_exists.mp hknown.1
  cases (value_of_int? hm').symm.trans hm
  cases ho with
  | none => simp [covers, Folding.inCase, hm']
  | @some e k hv =>
    obtain ⟨k', hk'⟩ := Option.isSome_iff_exists.mp hknown.2
    cases (value_of_int? hk').symm.trans hv
    simp [covers, Folding.inCase, hm', hk']

theorem caseFor_eq_find? {n : Int32} {body : List Stmt} :
    ∀ {cs : List Case}, cs.all Folding.isKnownCase = true → caseFor I σ n cs = .ok body →
      ((cs.find? (Folding.inCase n)).map Case.body).getD [] = body
  | [], _, h => by
    cases h
    rfl
  | c :: cs, hknown, h => by
    rw [List.all_cons, Bool.and_eq_true] at hknown
    obtain ⟨m, hm, o, ho, h⟩ := caseFor_cons.mp h
    rw [covers_eq_inCase hknown.1 hm ho] at h
    rcases h with ⟨hcase, rfl⟩ | ⟨hcase, h⟩
    · rw [List.find?_cons_of_pos hcase]
      rfl
    · rw [List.find?_cons_of_neg (by simp [hcase])]
      exact caseFor_eq_find? hknown.2 h

theorem Exec.choose {subject : Expr} {cs : List Case} {n : Int32} {body : List Stmt}
    {es : List Event} {span : Span} {trace : List Span} (hn : value I σ subject = .ok (.int n))
    (h : caseFor I σ n cs = .ok body) (hbody : Exec I σ body σ₁ es) :
    Exec I σ (Folding.choose subject cs span trace) σ₁ es := by
  have hselect : Exec I σ [⟨.select subject cs, span, trace⟩] σ₁ (es ++ []) :=
    .choice (Except.bind_eq_ok.mpr ⟨n, integer_eq_ok.mpr hn, h⟩) hbody .nil
  rw [List.append_nil] at hselect
  unfold Folding.choose
  split
  · exact hselect
  · next n' hn' =>
    cases (value_of_int? hn').symm.trans hn
    split_ifs with hknown
    · rwa [caseFor_eq_find? hknown h]
    · exact hselect

/-- **A folded choice runs what the choice ran**, folded. -/
theorem chosen_folded (hI : I.Respects Γ) (hσ : σ.Respects Γ) (hc : σ.Holds constants)
    {k : StmtKind} (ht : wellTyped Γ k = true) {body : List Stmt} {es : List Event} {span : Span}
    {trace : List Span} (h : chosen I σ k = .ok body)
    (hbody : Exec I σ (Folding.stmts constants body) σ₁ es) :
    Exec I σ (Folding.stmt constants ⟨k, span, trace⟩) σ₁ es := by
  cases k <;> try cases h
  case ifChain bs otherwise =>
    simp only [wellTyped, List.all_eq_true, beq_iff_eq] at ht
    cases bs with
    | nil =>
      cases h
      simp only [Folding.stmt]
      exact hbody
    | cons b rest =>
      obtain ⟨cond, body'⟩ := b
      simp only [Folding.stmt]
      split_ifs with hkept
      · -- The condition `1=1` is true, so the first body is what ran.
        have htrue : value I σ cond = .ok (.bool true) := value_of_isKeptCondition hkept
        rcases branchFor_cons.mp h with ⟨-, rfl⟩ | ⟨hfalse, -⟩
        · exact .chain (branchFor_cons.mpr (.inl ⟨htrue, rfl⟩)) hbody
        · cases htrue.symm.trans hfalse
      · exact .chain (branchFor_folded hI hσ hc ht h) hbody
  case select subject cs =>
    simp only [wellTyped, Bool.and_eq_true, beq_iff_eq, List.all_eq_true, Option.all_eq_true] at ht
    obtain ⟨n, hn, hcase⟩ := Except.bind_eq_ok.mp h
    simp only [Folding.stmt]
    exact .choose (value_expr hI hσ hc ht.1 (integer_eq_ok.mp hn))
      (caseFor_folded hI hσ hc ht.2 hcase) hbody

/-! ### Runs -/

/-- **Folded statements run as the statements did.** -/
theorem Exec.folded (hI : I.Respects Γ) {ss : List Stmt} {es : List Event}
    (h : Exec I σ ss σ₁ es) :
    stmtsMeet (typed Γ) ss → stmtsMeet (spares constants) ss → σ.Respects Γ → σ.Holds constants →
      Exec I σ (Folding.stmts constants ss) σ₁ es := by
  -- The induction is on the run, not on the statements, because a loop runs itself again.
  induction h with
  | nil =>
    intro _ _ _ _
    simp only [Folding.stmts]
    exact .nil
  | @effect σ σ₁ σ₂ s ss es es' hs _ ih =>
    rintro ⟨ht, htrest⟩ ⟨hk, hkrest⟩ hσ hc
    obtain ⟨kind, span, trace⟩ := s
    have hkind : wellTyped Γ kind = true ∧
        ∀ name ∈ assigned kind, constants.lookup name = none := by
      cases hs with
      | assign => exact ⟨(ht.resolve_left id).1, (hk.resolve_left id).1⟩
      | count | event | declare => exact ⟨ht.1, hk.1⟩
    simp only [Folding.stmts]
    exact (hs.folded hI hσ hc hkind.1 hkind.2).append
      (ih htrest hkrest (hs.respects hI hkind.1 hσ) (hs.holds hkind.2 hc))
  | @choice σ σ₁ σ₂ s ss body es es' hs hbody _ ihbody ih =>
    rintro ⟨ht, htrest⟩ ⟨hk, hkrest⟩ hσ hc
    have htbody := chosen_meets ht hs
    have hkbody := chosen_meets hk hs
    obtain ⟨kind, span, trace⟩ := s
    have hkind : wellTyped Γ kind = true := by
      cases kind <;> try cases hs
      case ifChain => exact ht.1
      case select => exact ht.1
    simp only [Folding.stmts]
    exact (chosen_folded hI hσ hc hkind hs (ihbody htbody hkbody hσ hc)).append
      (ih htrest hkrest (hbody.respects hI htbody hσ) (hbody.holds hkbody hc))
  | @whileTrue σ σ₁ σ₂ cond body span trace ss es es' hcond hbody _ ihbody ih =>
    intro ht hk hσ hc
    have htbody := ht.1.2.2.2
    have hkbody := hk.1.2.2.2
    have hcond' := value_expr hI hσ hc (beq_iff_eq.mp ht.1.1) hcond
    have hagain := ih ht hk (hbody.respects hI htbody hσ) (hbody.holds hkbody hc)
    simp only [Folding.stmts, Folding.stmt] at hagain ⊢
    split at hagain
    · next hfalse => cases eq_of_truth? hcond' hfalse
    · next hfalse =>
      rw [if_neg hfalse]
      exact .whileTrue hcond' (ihbody htbody hkbody hσ hc) hagain
  | @whileFalse σ σ' cond body span trace ss es hcond _ ih =>
    intro ht hk hσ hc
    have hcond' := value_expr hI hσ hc (beq_iff_eq.mp ht.1.1) hcond
    have hrest := ih ht.2 hk.2 hσ hc
    simp only [Folding.stmts, Folding.stmt]
    split_ifs
    · exact hrest
    · exact .whileFalse hcond' hrest

/-- **Folding a script keeps what its statements do.** Whatever the functions give, well-typed
statements that assign no constant run after folding as they ran before, from every store that
has the constants of the script: to the same store and with the same events, and to no other. -/
theorem folded_script_runs_alike (s : Script) (I : Interpretation) (Γ : Typing)
    (hI : I.Respects Γ) :
    (Folding.script s).blocks.map Block.body =
        s.blocks.map (fun b => Folding.stmts (Folding.constantsOf s) b.body) ∧
      ∀ ss σ σ' es, stmtsMeet (typed Γ) ss → stmtsMeet (spares (Folding.constantsOf s)) ss →
        σ.Respects Γ → σ.Holds (Folding.constantsOf s) → Exec I σ ss σ' es →
        Exec I σ (Folding.stmts (Folding.constantsOf s) ss) σ' es ∧
          ∀ σ₂ es₂, Exec I σ (Folding.stmts (Folding.constantsOf s) ss) σ₂ es₂ →
            σ₂ = σ' ∧ es₂ = es := by
  refine ⟨Folding.script_bodies s, fun ss σ σ' es ht hk hσ hc h => ?_⟩
  have hfolded := h.folded hI ht hk hσ hc
  refine ⟨hfolded, fun σ₂ es₂ h₂ => ?_⟩
  exact h₂.unique hfolded

/-! ### A sample -/

/-- A variable of the sample. -/
def sampleVar (name : String) : Expr := .var (.fixed name .zero) [] .zero

/-- A script with the constant 1, which counts a variable up to it and reports the variable. -/
def sampleBody : List Stmt :=
  [ .written (.declare ⟨.fixed "$n" .zero, ["const"], none, [], some (.single (.int 1 .zero))⟩)
      .zero,
    .written (.whileLoop (.binary .less (sampleVar "$x") (sampleVar "$n") .zero)
      [.written (.call (.plain (.fixed "inc" .zero) [sampleVar "$x"] true)) .zero]) .zero,
    .written (.ifChain [⟨.binary .equal (sampleVar "$n") (.int 1 .zero) .zero,
      [.written (.call (.plain (.fixed "message" .zero) [sampleVar "$x"] true)) .zero]⟩] [])
      .zero ]

/-- The sample as a script. -/
def sampleScript : Script := ⟨[.callback ⟨"init", none, sampleBody, .zero⟩]⟩

/-- A store with the constant, and with zero in the variable. -/
def sampleStore : Store := fun p =>
  if p = .var "$n" then some (.int 1) else if p = .var "$x" then some (.int 0) else none

/-- Everything is an integer. -/
def sampleTyping : Typing := ⟨fun _ => some .int, fun _ => some .int, fun _ => some .int⟩

/-- The store in the end. -/
def sampleEnd : Store := Function.update sampleStore (.var "$x") (some (.int 1))

theorem sampleStore_respects : sampleStore.Respects sampleTyping := by
  intro p τ v hp hv
  have hint : ∃ n, v = .int n := by
    unfold sampleStore at hv
    split_ifs at hv <;> exact ⟨_, (Option.some.inj hv).symm⟩
  obtain ⟨n, rfl⟩ := hint
  cases p <;> exact hp

theorem sampleBody_runs :
    Exec (fun _ _ => .int 0) sampleStore sampleBody sampleEnd
      [.declare "$n" ["const"] [.int 1], .call "message" false [.int 1]] := by
  have hinc : Effect (fun _ _ => .int 0) sampleStore
      (.call (.plain (.fixed "inc" .zero) [sampleVar "$x"] true)) sampleEnd [] := by
    have hname : counts? (.plain (.fixed "inc" .zero) [sampleVar "$x"] true) = some 1 := by decide
    exact .count hname rfl rfl (m := 0) rfl
  have hmessage : Exec (fun _ _ => .int 0) sampleEnd
      [.written (.call (.plain (.fixed "message" .zero) [sampleVar "$x"] true)) .zero] sampleEnd
      [.call "message" false [.int 1]] := by
    have hname : counts? (.plain (.fixed "message" .zero) [sampleVar "$x"] true) = none := by
      decide
    exact .single (.event hname rfl)
  have hlast : Exec (fun _ _ => .int 0) sampleEnd (sampleBody.drop 2) sampleEnd
      ([.call "message" false [.int 1]] ++ []) := by
    refine .choice ?_ hmessage .nil
    rfl
  have hloop : Exec (fun _ _ => .int 0) sampleStore (sampleBody.drop 1) sampleEnd
      ([] ++ ([.call "message" false [.int 1]] ++ [])) := by
    refine .whileTrue ?_ (.single hinc) (.whileFalse ?_ hlast)
    · rfl
    · rfl
  have hconst : Exec (fun _ _ => .int 0) sampleStore (sampleBody.take 1) sampleStore
      [.declare "$n" ["const"] ([] ++ [.int 1])] := by
    refine .single (.declare ?_ ?_)
    · rfl
    · rfl
  exact hconst.append hloop

/-- The sample satisfies what is asked for, and runs in its folded form. -/
theorem sampleBody_runs_alike :
    Exec (fun _ _ => .int 0) sampleStore
      (Folding.stmts (Folding.constantsOf sampleScript) sampleBody) sampleEnd
      [.declare "$n" ["const"] [.int 1], .call "message" false [.int 1]] := by
  have hconstants : Folding.constantsOf sampleScript = [("$n", .int 1)] := by decide
  have hI : Interpretation.Respects (fun _ _ => .int 0) sampleTyping := fun _ _ _ h => h
  refine ((folded_script_runs_alike sampleScript _ sampleTyping hI).2 sampleBody
    sampleStore sampleEnd _ ?_ ?_ sampleStore_respects ?_ sampleBody_runs).1
  · have hmute : (typed sampleTyping).Mute := fun _ => trivial
    exact ⟨⟨by decide, hmute.declaration _⟩,
      ⟨by decide, hmute.expr _, trivial, ⟨by decide, hmute.args _⟩, trivial⟩,
      ⟨by decide, ⟨hmute.expr _, trivial, ⟨⟨by decide, hmute.args _⟩, trivial⟩, trivial⟩, trivial,
        trivial⟩, trivial⟩
  · rw [hconstants]
    have hmute : (spares [("$n", .int 1)]).Mute := fun _ => trivial
    exact ⟨⟨by decide, hmute.declaration _⟩,
      ⟨by decide, hmute.expr _, trivial, ⟨by decide, hmute.args _⟩, trivial⟩,
      ⟨by decide, ⟨hmute.expr _, trivial, ⟨⟨by decide, hmute.args _⟩, trivial⟩, trivial⟩, trivial,
        trivial⟩, trivial⟩
  · intro name v hv
    rw [hconstants, List.lookup_cons] at hv
    split at hv
    · next hname =>
      rw [beq_iff_eq.mp hname]
      exact hv
    · cases hv

end FlatScript.Running
