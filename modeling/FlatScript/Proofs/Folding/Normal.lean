import FlatScript.Proofs.Folding

/-!
# Nothing is left to fold

Folding goes through an expression once, from its operands up: the laws of zero and one, then the
evaluation. Either of them can put something new in the place of a node, an operand or a literal, and
a second run would have to look at it again. It finds nothing. An operand that takes the place of an
operator has been folded before, and a literal has nothing to fold, so at no node that remains is
there a law to be used or a value to be written.

* `FlatScript.Folding.IsDone` is what is asked of a node, and `FlatScript.Folding.IsNormal` asks it of
  all of them.
* `FlatScript.Folding.isNormal_expr`: a folded expression is normal.
* `FlatScript.Folding.expr_of_isNormal`: folding does nothing to an expression that is normal.
* `FlatScript.Folding.folded_once` is both for one expression, with what it means for its values.
-/

namespace FlatScript.Folding

variable {constants : Constants} {e n : Expr} {op : BinaryOp} {left right : Expr} {span : Span}

/-- What the laws make of a node. -/
def lawful : Expr → Expr
  | .binary op left right span => simplify op left right span
  | e => e

/-- **A node where nothing is left to do**: no law can be used, and no value can be written. -/
structure IsDone (constants : Constants) (n : Expr) : Prop where
  lawful : lawful n = n
  evaluated : evaluated constants n = n

/-- **An expression with nothing left to do** at any of its nodes. -/
def IsNormal (constants : Constants) (e : Expr) : Prop := ∀ n ∈ e.nodes, IsDone constants n

/-! ### Values and their literals -/

/-- The literal of a value is one. -/
theorem isLiteral_of_toExpr? {v : Value} (h : v.toExpr? span = some e) : isLiteral e = true := by
  cases v <;> cases h <;> rfl

theorem isDone_of_isLiteral (h : isLiteral n = true) : IsDone constants n where
  lawful := by
    cases n with
    | int | real | str | bool | raw => rfl
    | binary | unary | var | call => cases h
  evaluated := if_pos h

theorem nodes_of_isLiteral (h : isLiteral e = true) : e.nodes = [e] := by
  cases e with
  | int | real | str | bool | raw => rfl
  | binary | unary | var | call => cases h

theorem isNormal_of_isLiteral (h : isLiteral e = true) : IsNormal constants e := by
  intro n hn
  rw [nodes_of_isLiteral h, List.mem_singleton] at hn
  exact hn ▸ isDone_of_isLiteral h

/-- **Evaluation leaves a node as it is, or a literal.** -/
theorem evaluated_cases (constants : Constants) (e : Expr) :
    evaluated constants e = e ∨ isLiteral (evaluated constants e) = true := by
  unfold evaluated
  split
  · exact .inl rfl
  · split
    next v _ =>
      cases hv : v.toExpr? e.span with
      | none => exact .inl rfl
      | some e' => exact .inr (isLiteral_of_toExpr? hv)
    next => exact .inl rfl

/-- **A node that evaluation leaves alone is written as its value**, if it has one that can be
written. -/
theorem toExpr?_of_evaluated {v : Value} (h : evaluated constants n = n)
    (hv : n.eval constants = .ok v) (hstr : ∀ s, v ≠ .str s) : v.toExpr? n.span = some n := by
  by_cases hliteral : isLiteral n = true
  · cases n with
    | int | real | bool => cases hv; rfl
    | str raw => cases hv; exact absurd rfl (hstr _)
    | raw => cases hv
    | binary | unary | var | call => cases hliteral
  · obtain ⟨e', he'⟩ : ∃ e', v.toExpr? n.span = some e' := by
      cases v with
      | int | real | bool => exact ⟨_, rfl⟩
      | str s => exact absurd rfl (hstr s)
    simp only [evaluated, hliteral, hv, he', Option.getD_some, Bool.false_eq_true, if_false] at h
    rw [he', h]

/-! ### Folded expressions are normal -/

theorem isNormal_binary : IsNormal constants (.binary op left right span) ↔
    IsDone constants (.binary op left right span) ∧ IsNormal constants left ∧
      IsNormal constants right := by
  simp only [IsNormal, Expr.nodes, List.forall_mem_cons, List.forall_mem_append]

/-- **Evaluation makes a node normal**, when its parts are and no law can be used. -/
theorem isNormal_evaluated (hlaw : lawful e = e)
    (hparts : IsDone constants e → IsNormal constants e) :
    IsNormal constants (evaluated constants e) := by
  rcases evaluated_cases constants e with heq | hliteral
  · rw [heq]
    exact hparts ⟨hlaw, heq⟩
  · exact isNormal_of_isLiteral hliteral

theorem isNormal_self (h : IsNormal constants e) : IsNormal constants (evaluated constants e) := by
  have hself : e ∈ e.nodes := by cases e <;> simp [Expr.nodes]
  rwa [(h e hself).evaluated]

mutual

/-- **A folded expression is normal.** -/
theorem isNormal_expr (constants : Constants) : ∀ e : Expr, IsNormal constants (expr constants e)
  | .binary op left right span => by
    have hleft := isNormal_expr constants left
    have hright := isNormal_expr constants right
    simp only [expr]
    rcases simplify_cases op (expr constants left) (expr constants right) span with
      heq | heq | heq
    · rw [heq]
      exact isNormal_self hleft
    · rw [heq]
      exact isNormal_self hright
    · rw [heq]
      exact isNormal_evaluated heq fun h => isNormal_binary.mpr ⟨h, hleft, hright⟩
  | .unary op operand span => by
    have hoperand := isNormal_expr constants operand
    simp only [expr]
    refine isNormal_evaluated rfl fun h => ?_
    simp only [IsNormal, Expr.nodes, List.forall_mem_cons]
    exact ⟨h, hoperand⟩
  | .var ident subscripts span => by
    have hsubscripts := forall_exprsNodes constants subscripts
    simp only [expr]
    refine isNormal_evaluated rfl fun h => ?_
    simp only [IsNormal, Expr.nodes, List.forall_mem_cons]
    exact ⟨h, hsubscripts⟩
  | .call name args isProcedure usingCall span => by
    have hargs := forall_exprsNodes constants args
    simp only [expr, IsNormal, Expr.nodes, List.forall_mem_cons]
    exact ⟨⟨rfl, rfl⟩, hargs⟩
  | .int _ _ | .real _ _ | .str _ _ | .bool _ _ | .raw _ _ => by
    simp only [expr]
    exact isNormal_of_isLiteral rfl

theorem forall_exprsNodes (constants : Constants) :
    ∀ es : List Expr, ∀ n ∈ exprsNodes (exprs constants es), IsDone constants n
  | [] => by simp [exprs, exprsNodes]
  | e :: es => by
    simp only [exprs, exprsNodes, List.forall_mem_append]
    exact ⟨isNormal_expr constants e, forall_exprsNodes constants es⟩

end

/-! ### Normal expressions stay as they are -/

mutual

/-- **Folding does nothing to a normal expression.** -/
theorem expr_of_isNormal : ∀ {e : Expr}, IsNormal constants e → expr constants e = e
  | .binary op left right span, h => by
    obtain ⟨hdone, hleft, hright⟩ := isNormal_binary.mp h
    rw [expr, expr_of_isNormal hleft, expr_of_isNormal hright]
    exact (congrArg _ hdone.lawful).trans hdone.evaluated
  | .unary op operand span, h => by
    simp only [IsNormal, Expr.nodes, List.forall_mem_cons] at h
    rw [expr, expr_of_isNormal h.2, h.1.evaluated]
  | .var ident subscripts span, h => by
    simp only [IsNormal, Expr.nodes, List.forall_mem_cons] at h
    rw [expr, exprs_of_isNormal h.2, h.1.evaluated]
  | .call name args isProcedure usingCall span, h => by
    simp only [IsNormal, Expr.nodes, List.forall_mem_cons] at h
    rw [expr, exprs_of_isNormal h.2]
  | .int _ _, _ | .real _ _, _ | .str _ _, _ | .bool _ _, _ | .raw _ _, _ => by
    simp only [expr]

theorem exprs_of_isNormal :
    ∀ {es : List Expr}, (∀ n ∈ exprsNodes es, IsDone constants n) → exprs constants es = es
  | [], _ => by simp only [exprs]
  | e :: es, h => by
    simp only [exprsNodes, List.forall_mem_append] at h
    rw [exprs, expr_of_isNormal h.1, exprs_of_isNormal h.2]

end

/-- **One run folds all that can be folded.** A second run changes nothing, and wherever a part of the
result has a value that can be written, it is the literal of this value. -/
theorem folded_once (constants : Constants) (e : Expr) :
    expr constants (expr constants e) = expr constants e ∧
      ∀ n ∈ (expr constants e).nodes, ∀ v, n.eval constants = .ok v → (∀ s, v ≠ .str s) →
        v.toExpr? n.span = some n := by
  have hnormal := isNormal_expr constants e
  exact ⟨expr_of_isNormal hnormal, fun n hn v hv hstr =>
    toExpr?_of_evaluated (hnormal n hn).evaluated hv hstr⟩

end FlatScript.Folding
