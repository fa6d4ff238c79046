import FlatScript.Proofs.Leaves
import FlatScript.Sigils

/-!
# Rules and the sigils of references

Finding sigils gives names of references others and leaves everything else as it is; the first
argument of some calls is not looked at. `FlatScript.Sigils.Carries` says what has to be known of
references for a rule to be carried over to another one, and the theorems about it extend this to
expressions, arguments and targets.
-/

namespace FlatScript.Sigils

variable {env : Env} {p : Program} {scope : Scope} {r r' : Rule}

theorem resolve_of_ident {i j : Ident} {subscripted : Bool}
    (h : ident env p scope i subscripted = .ok j) :
    resolve env.builtins p scope.params i subscripted = .ok j := by
  unfold ident at h
  cases hresolve : resolve env.builtins p scope.params i subscripted with
  | error e =>
    rw [hresolve] at h
    cases h
  | ok j' =>
    rw [hresolve] at h
    cases h
    rfl

theorem exprs_eq_cons {x : Expr} {es es' : List Expr}
    (h : exprs env p scope (x :: es) = .ok es') :
    ∃ x' rest, expr env p scope x = .ok x' ∧ exprs env p scope es = .ok rest ∧
      es' = x' :: rest := by
  obtain ⟨x', hx, h⟩ := Except.bind_eq_ok.mp h
  obtain ⟨rest, hrest, h⟩ := Except.bind_eq_ok.mp h
  cases h
  exact ⟨x', rest, hx, hrest, rfl⟩

/-- The first argument has got its sigils, unless it is one that is not looked at. -/
theorem arguments_eq_cons {keepFirst : Bool} {x : Expr} {es es' : List Expr}
    (h : arguments env p scope keepFirst (x :: es) = .ok es') :
    ∃ x' rest, (if keepFirst then x' = x else expr env p scope x = .ok x') ∧
      exprs env p scope es = .ok rest ∧ es' = x' :: rest := by
  simp only [arguments] at h
  split at h
  · next hkeep =>
    obtain ⟨x', hx, h⟩ := Except.bind_eq_ok.mp h
    obtain ⟨rest, hrest, h⟩ := Except.bind_eq_ok.mp h
    cases hx
    cases h
    exact ⟨x, rest, by rw [if_pos hkeep], hrest, rfl⟩
  · next hkeep =>
    obtain ⟨x', hx, h⟩ := Except.bind_eq_ok.mp h
    obtain ⟨rest, hrest, h⟩ := Except.bind_eq_ok.mp h
    cases h
    exact ⟨x', rest, by rwa [if_neg hkeep], hrest, rfl⟩

theorem varRef_eq_ok {v v' : VarRef} (h : varRef env p scope v = .ok v') :
    ∃ j subscripts, exprs env p scope v.subscripts = .ok subscripts ∧
      ident env p scope v.ident (!subscripts.isEmpty) = .ok j ∧ v' = ⟨j, subscripts, v.span⟩ := by
  obtain ⟨subscripts, hsubscripts, h⟩ := Except.bind_eq_ok.mp h
  obtain ⟨j, hj, h⟩ := Except.bind_eq_ok.mp h
  cases h
  exact ⟨j, subscripts, hsubscripts, hj, rfl⟩

theorem call_eq_ok {c c' : Call} (h : call env p scope c = .ok c') :
    ∃ args, arguments env p scope (Builtins.keepsFirstArgument c.name.name) c.args = .ok args ∧
      c' = { c with args } := by
  obtain ⟨args, hargs, h⟩ := Except.bind_eq_ok.mp h
  cases h
  exact ⟨args, hargs, rfl⟩

/-- **Finding sigils carries a rule over to another one**, in a place of the script. -/
structure Carries (env : Env) (p : Program) (scope : Scope) (r r' : Rule) : Prop where
  atom : ∀ {op left right span e'}, r.atom op left right →
    expr env p scope (.binary op left right span) = .ok e' → e'.Meets r'
  binary : ∀ {op left right span left' right'}, r.expr (.binary op left right span) →
    r'.expr (.binary op left' right' span)
  unary : ∀ {op e span e'}, r.expr (.unary op e span) → r'.expr (.unary op e' span)
  literal : ∀ {e : Expr}, e.isLiteral = true → r.expr e → r'.expr e
  var : ∀ {i es span j es'}, r.expr (.var i es span) → exprs env p scope es = .ok es' →
    ident env p scope i (!es'.isEmpty) = .ok j → r'.expr (.var j es' span)
  call : ∀ {name args isProcedure usingCall span args'},
    r.expr (.call name args isProcedure usingCall span) →
    r'.expr (.call name args' isProcedure usingCall span)
  skips : ∀ {name}, r.skips name = true → r'.skips name = true
  /-- An argument that is not looked at is passed over, or the second rule asks no more. -/
  kept : ∀ {name}, Builtins.keepsFirstArgument name = true →
    r'.skips name = true ∨ ∀ e : Expr, e.Meets r → e.Meets r'

namespace Carries

mutual

/-- **An expression with the sigils of its references meets the other rule.** -/
theorem ofExpr (hr : Carries env p scope r r') : ∀ (e : Expr) {e' : Expr}, e.Meets r →
    expr env p scope e = .ok e' → e'.Meets r'
  | .binary _ _ _ _, _, .inl hatom, h => hr.atom hatom h
  | .binary _ left right _, _, .inr ⟨hop, hleft, hright⟩, h => by
    simp only [expr] at h
    obtain ⟨left', hl, h⟩ := Except.bind_eq_ok.mp h
    obtain ⟨right', hrt, h⟩ := Except.bind_eq_ok.mp h
    cases h
    exact .inr ⟨hr.binary hop, hr.ofExpr left hleft hl, hr.ofExpr right hright hrt⟩
  | .unary _ operand _, _, ⟨hop, ho⟩, h => by
    simp only [expr] at h
    obtain ⟨operand', hoperand, h⟩ := Except.bind_eq_ok.mp h
    cases h
    exact ⟨hr.unary hop, hr.ofExpr operand ho hoperand⟩
  | .var _ subscripts _, _, ⟨hvar, hs⟩, h => by
    simp only [expr] at h
    obtain ⟨subscripts', hsubscripts, h⟩ := Except.bind_eq_ok.mp h
    obtain ⟨j, hj, h⟩ := Except.bind_eq_ok.mp h
    cases h
    exact ⟨hr.var hvar hsubscripts hj, hr.ofExprs subscripts hs hsubscripts⟩
  | .call _ args _ _ _, _, ⟨hcall, ha⟩, h => by
    simp only [expr] at h
    obtain ⟨args', hargs, h⟩ := Except.bind_eq_ok.mp h
    cases h
    exact ⟨hr.call hcall, hr.ofArguments args ha hargs⟩
  | .int _ _, _, hm, h | .real _ _, _, hm, h | .str _ _, _, hm, h | .bool _ _, _, hm, h
  | .raw _ _, _, hm, h => by
    cases h
    exact hr.literal rfl hm
termination_by structural e => e

theorem ofExprs (hr : Carries env p scope r r') : ∀ (es : List Expr) {es' : List Expr},
    exprsMeet r es → exprs env p scope es = .ok es' → exprsMeet r' es'
  | [], _, _, h => by
    cases h
    trivial
  | e :: es, _, ⟨hm, hms⟩, h => by
    obtain ⟨e', rest, he, hrest, rfl⟩ := exprs_eq_cons h
    exact ⟨hr.ofExpr e hm he, hr.ofExprs es hms hrest⟩
termination_by structural es => es

theorem ofArguments (hr : Carries env p scope r r') {name : String} :
    ∀ (es : List Expr) {es' : List Expr}, argsMeet r (r.skips name) es →
      arguments env p scope (Builtins.keepsFirstArgument name) es = .ok es' →
      argsMeet r' (r'.skips name) es'
  | [], _, _, h => by
    cases h
    trivial
  | e :: es, _, ⟨hm, hms⟩, h => by
    obtain ⟨e', rest, he, hrest, rfl⟩ := arguments_eq_cons h
    refine ⟨?_, hr.ofExprs es hms hrest⟩
    split at he
    · next hkeep =>
      rcases hr.kept hkeep with hskips | hsame
      · exact .inl hskips
      · exact he ▸ hm.imp hr.skips (hsame e)
    · exact hm.imp hr.skips fun hm => hr.ofExpr e hm he
termination_by structural es => es

end

/-- A target meets the other rule. -/
theorem ofVarRef (hr : Carries env p scope r r') {v v' : VarRef} (hv : v.Meets r)
    (h : varRef env p scope v = .ok v') : v'.Meets r' := by
  obtain ⟨j, subscripts, hsubscripts, hj, rfl⟩ := varRef_eq_ok h
  exact ⟨hr.var hv.1 hsubscripts hj, hr.ofExprs _ hv.2 hsubscripts⟩

end Carries

end FlatScript.Sigils
