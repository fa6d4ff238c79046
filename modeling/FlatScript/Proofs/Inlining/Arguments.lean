import FlatScript.Inlining.Substitution
import FlatScript.Proofs.Leaves

/-!
# Rules and arguments in the place of parameters

A substitution goes through an expression and changes references and the names of functions; all
else stays as it is. So what it makes of a rule is decided at these two:
`FlatScript.Substitution.Carries` says what has to be known of them, and the theorems about it
extend this to expressions, arguments and targets.

A rule may take an operation as a whole, like the index of a cell. What a substitution makes of
such an operation has to be known as well.
-/

namespace FlatScript.Substitution

variable {env : Env} {σ : Substitution} {trace : List Span}

/-! ### One step -/

theorem mem_of_find? {name : String} {e : Expr} (h : σ.find? name = some e) :
    (Name.firstPart name, e) ∈ σ :=
  mem_of_lookup h

theorem exprs_eq_cons {x : Expr} {es es' : List Expr} (h : exprs env σ trace (x :: es) = .ok es') :
    ∃ x' rest, expr env σ trace x = .ok x' ∧ exprs env σ trace es = .ok rest ∧ es' = x' :: rest := by
  obtain ⟨x', hx, h⟩ := Except.bind_eq_ok.mp h
  obtain ⟨rest, hrest, h⟩ := Except.bind_eq_ok.mp h
  cases h
  exact ⟨x', rest, hx, hrest, rfl⟩

theorem call_eq_ok {c c' : Call} (h : call env σ trace c = .ok c') :
    ∃ name args, functionName env σ trace c.name c.span = .ok name ∧
      exprs env σ trace c.args = .ok args ∧ c' = { c with name, args } := by
  obtain ⟨name, hname, h⟩ := Except.bind_eq_ok.mp h
  obtain ⟨args, hargs, h⟩ := Except.bind_eq_ok.mp h
  cases h
  exact ⟨name, args, hname, hargs, rfl⟩

/-! ### Leaves of statements -/

theorem expr_of_target {v v' : VarRef} (h : target env σ trace v = .ok v') :
    expr env σ trace v.toExpr = .ok v'.toExpr := by
  unfold target at h
  simp only [VarRef.toExpr, expr]
  split at h
  · obtain ⟨es, hes, h⟩ := Except.bind_eq_ok.mp h
    cases h
    rw [hes]
    rfl
  · obtain ⟨es, hes, h⟩ := Except.bind_eq_ok.mp h
    cases h
    rw [hes]
    rfl
  · cases h

theorem expr_of_call {c c' : Call} (h : call env σ trace c = .ok c') :
    expr env σ trace c.toExpr = .ok c'.toExpr := by
  obtain ⟨name, args, hname, hargs, rfl⟩ := call_eq_ok h
  simp only [Call.toExpr, expr, hname, hargs]
  rfl

/-! ### Rules -/

variable {r r' : Rule}

/-- **A substitution carries a rule over to another one.** What it puts in the place of a reference
that meets the first rule meets the second one. -/
structure Carries (env : Env) (σ : Substitution) (r r' : Rule) : Prop where
  value : ∀ {i es span e}, r.expr (.var i es span) → σ.find? i.name = some e → e.Meets r'
  atom : ∀ {trace op left right span e'}, r.atom op left right →
    expr env σ trace (.binary op left right span) = .ok e' → e'.Meets r'
  binary : ∀ {op left right span left' right'}, r.expr (.binary op left right span) →
    r'.expr (.binary op left' right' span)
  unary : ∀ {op e span e'}, r.expr (.unary op e span) → r'.expr (.unary op e' span)
  literal : ∀ {e : Expr}, e.isLiteral = true → r.expr e → r'.expr e
  var : ∀ {trace i es span es'}, r.expr (.var i es span) → σ.find? i.name = none →
    exprs env σ trace es = .ok es' → r'.expr (.var i es' span)
  merged : ∀ {i es span rep own span' es'}, r.expr (.var i es span) →
    σ.find? i.name = some (.var rep own span') →
    r'.expr (.var (mergeIdent i rep) (es' ++ own) span)
  call : ∀ {trace name name' args args' isProcedure usingCall span},
    r.expr (.call name args isProcedure usingCall span) →
    functionName env σ trace name span = .ok name' → exprs env σ trace args = .ok args' →
    r'.expr (.call name' args' isProcedure usingCall span) ∧
      (r.skips name.name = true → r'.skips name'.name = true)

namespace Carries

mutual

/-- **An expression with arguments in the place of parameters meets the other rule.** -/
theorem ofExpr (h : Carries env σ r r') : ∀ (e : Expr) {e' : Expr}, e.Meets r →
    expr env σ trace e = .ok e' → e'.Meets r'
  | .binary _ _ _ _, _, .inl hatom, hrun => h.atom hatom hrun
  | .binary _ left right _, _, .inr ⟨hop, hl, hr⟩, hrun => by
    simp only [expr] at hrun
    obtain ⟨left', hleft, hrun⟩ := Except.bind_eq_ok.mp hrun
    obtain ⟨right', hright, hrun⟩ := Except.bind_eq_ok.mp hrun
    cases hrun
    exact .inr ⟨h.binary hop, h.ofExpr left hl hleft, h.ofExpr right hr hright⟩
  | .unary _ operand _, _, ⟨hop, ho⟩, hrun => by
    simp only [expr] at hrun
    obtain ⟨operand', hoperand, hrun⟩ := Except.bind_eq_ok.mp hrun
    cases hrun
    exact ⟨h.unary hop, h.ofExpr operand ho hoperand⟩
  | .var i subscripts _, _, ⟨hvar, hs⟩, hrun => by
    simp only [expr] at hrun
    -- A reference stays, takes on name and subscripts of another one, or gives way to a value.
    split at hrun
    · next hfind =>
      obtain ⟨subscripts', hsubscripts, hrun⟩ := Except.bind_eq_ok.mp hrun
      cases hrun
      exact ⟨h.var hvar hfind hsubscripts, h.ofExprs subscripts hs hsubscripts⟩
    · next rep own span hfind =>
      obtain ⟨subscripts', hsubscripts, hrun⟩ := Except.bind_eq_ok.mp hrun
      cases hrun
      exact ⟨h.merged hvar hfind,
        exprsMeet_append.mpr ⟨h.ofExprs subscripts hs hsubscripts, (h.value hvar hfind).2⟩⟩
    · next hfind =>
      cases hrun
      exact h.value hvar hfind
  | .call name args _ _ _, _, ⟨hcall, ha⟩, hrun => by
    simp only [expr] at hrun
    obtain ⟨name', hname, hrun⟩ := Except.bind_eq_ok.mp hrun
    obtain ⟨args', hargs, hrun⟩ := Except.bind_eq_ok.mp hrun
    cases hrun
    obtain ⟨hcall', hskips⟩ := h.call hcall hname hargs
    exact ⟨hcall', h.ofArgs hskips args ha hargs⟩
  | .int _ _, _, hm, hrun | .real _ _, _, hm, hrun | .str _ _, _, hm, hrun
  | .bool _ _, _, hm, hrun | .raw _ _, _, hm, hrun => by
    cases hrun
    exact h.literal rfl hm
termination_by structural e => e

theorem ofExprs (h : Carries env σ r r') : ∀ (es : List Expr) {es' : List Expr},
    exprsMeet r es → exprs env σ trace es = .ok es' → exprsMeet r' es'
  | [], _, _, hrun => by
    cases hrun
    trivial
  | e :: es, _, ⟨hm, hms⟩, hrun => by
    obtain ⟨e', rest, he, hrest, rfl⟩ := exprs_eq_cons hrun
    exact ⟨h.ofExpr e hm he, h.ofExprs es hms hrest⟩
termination_by structural es => es

theorem ofArgs (h : Carries env σ r r') {skip skip' : Bool} (hskip : skip = true → skip' = true) :
    ∀ (es : List Expr) {es' : List Expr}, argsMeet r skip es →
      exprs env σ trace es = .ok es' → argsMeet r' skip' es'
  | [], _, _, hrun => by
    cases hrun
    trivial
  | e :: es, _, ⟨hm, hms⟩, hrun => by
    obtain ⟨e', rest, he, hrest, rfl⟩ := exprs_eq_cons hrun
    exact ⟨hm.imp hskip fun hm => h.ofExpr e hm he, h.ofExprs es hms hrest⟩
termination_by structural es => es

end

/-- A target meets the other rule, like the expression it would be. -/
theorem ofTarget (h : Carries env σ r r') {v v' : VarRef} (hv : v.Meets r)
    (hrun : target env σ trace v = .ok v') : v'.Meets r' :=
  h.ofExpr v.toExpr hv (expr_of_target hrun)

end Carries

end FlatScript.Substitution
