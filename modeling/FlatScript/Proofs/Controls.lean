import FlatScript.Controls
import FlatScript.Proofs.Leaves
import FlatScript.Proofs.Outcome

/-!
# Rules and the check of controls

The check of controls keeps every node of a script but for one thing: it puts a call around the
variable of a control. And where it succeeds, no reference has more than one subscript.
`FlatScript.Controls.Carries` says what a rule has to know of this to be carried over to another
one.
-/

namespace FlatScript.Controls

/-- **The check of controls carries one rule over to another.** -/
structure Carries (r r' : Rule) : Prop where
  binary : ∀ {op left right span left' right'}, r.expr (.binary op left right span) →
    r'.expr (.binary op left' right' span)
  unary : ∀ {op e span e'}, r.expr (.unary op e span) → r'.expr (.unary op e' span)
  var : ∀ {i es span es'}, r.expr (.var i es span) → es.length ≤ 1 → es'.length = es.length →
    r'.expr (.var i es' span)
  call : ∀ {name args isProcedure usingCall span args'},
    r.expr (.call name args isProcedure usingCall span) →
    r'.expr (.call name args' isProcedure usingCall span)
  literal : ∀ {e : Expr}, e.isLiteral = true → r.expr e → r'.expr e
  id : ∀ {control span}, r'.expr (.call (.fixed "get_ui_id" span) [control] false false span)
  callStmt : ∀ {c args'}, r.stmt (.call c) → r'.stmt (.call { c with args := args' })
  assign : ∀ {target value es' value'}, r.stmt (.assign target value) →
    r'.stmt (.assign { target with subscripts := es' } value')
  skips : ∀ name, r.skips name = true → r'.skips name = true
  noAtom : ∀ {op left right}, ¬ r.atom op left right
  noWhole : ∀ {target value}, ¬ r.whole target value
  reshape : ∀ {k k'}, k.Reshaped k' → r.stmt k → r'.stmt k'
  list : ∀ ss, r'.list ss

variable {r r' : Rule} {env : Env} {symbols : Symbols} {trace : List Span}

/-- A reference that has been checked has one subscript at most. -/
theorem length_le_of_checkSubscripts {i : Ident} {es : List Expr} {span : Span}
    (h : checkSubscripts env trace i es span = .ok ()) : es.length ≤ 1 := by
  unfold checkSubscripts at h
  split at h
  · cases h
  · omega

theorem length_exprs : ∀ (es : List Expr) {es' : List Expr},
    exprs env symbols trace es = .ok es' → es'.length = es.length
  | [], _, h => by
    cases h
    rfl
  | e :: es, _, h => by
    simp only [exprs] at h
    obtain ⟨e', -, h⟩ := Except.bind_eq_ok.mp h
    obtain ⟨es', hes, h⟩ := Except.bind_eq_ok.mp h
    cases h
    exact congrArg (· + 1) (length_exprs es hes)

namespace Carries

variable (hr : Carries r r')
include hr

/-! ### Arguments -/

theorem meets_idOf {e : Expr} (h : e.Meets r') : (idOf e).Meets r' :=
  ⟨hr.id, argsMeet_of_exprsMeet ⟨h, trivial⟩⟩

theorem meets_withId {e : Expr} (h : e.Meets r') : (withId symbols e).Meets r' := by
  unfold withId
  split
  · exact hr.meets_idOf h
  · exact h

theorem meets_withIds {isSetter skip : Bool} {args : List Expr} (h : argsMeet r' skip args) :
    argsMeet r' skip (withIds symbols isSetter args) := by
  unfold withIds
  split
  · split
    · refine ⟨h.1.imp_right hr.meets_idOf, ?_⟩
      split
      · obtain ⟨-, hparameter, hpanel, hrest⟩ := h
        refine ⟨hparameter, ?_, hrest⟩
        split
        · exact hr.meets_withId hpanel
        · exact hpanel
      · exact h.2
    · exact h
  · exact h

theorem meets_arguments {name : String} {usingCall skip : Bool} {args args' : List Expr}
    (hargs : argsMeet r' skip args)
    (h : arguments env symbols trace name usingCall args = .ok args') :
    argsMeet r' skip args' := by
  unfold arguments at h
  split at h
  · cases h
    exact hargs
  split at h
  · split at h <;> cases h
    exact hargs
  split at h
  · cases h
    exact hr.meets_withIds hargs
  split at h
  · cases h
    exact hr.meets_withIds hargs
  · cases h
    exact hargs

/-! ### Expressions -/

omit hr

mutual

theorem meets_expr (hr : Carries r r') : ∀ (e : Expr) {e' : Expr}, e.Meets r →
    expr env symbols trace e = .ok e' → e'.Meets r'
  | .binary _ _ _ _, _, .inl h, _ => (hr.noAtom h).elim
  | .binary _ left right _, _, .inr ⟨hn, hl, hrt⟩, h => by
    simp only [expr] at h
    obtain ⟨left', hleft, h⟩ := Except.bind_eq_ok.mp h
    obtain ⟨right', hright, h⟩ := Except.bind_eq_ok.mp h
    cases h
    exact .inr ⟨hr.binary hn, hr.meets_expr left hl hleft, hr.meets_expr right hrt hright⟩
  | .unary _ operand _, _, ⟨hn, ho⟩, h => by
    simp only [expr] at h
    obtain ⟨operand', hoperand, h⟩ := Except.bind_eq_ok.mp h
    cases h
    exact ⟨hr.unary hn, hr.meets_expr operand ho hoperand⟩
  | .var _ subscripts _, _, ⟨hn, hs⟩, h => by
    simp only [expr] at h
    obtain ⟨⟨⟩, hcheck, h⟩ := Except.bind_eq_ok.mp h
    obtain ⟨subscripts', hsubscripts, h⟩ := Except.bind_eq_ok.mp h
    cases h
    exact ⟨hr.var hn (length_le_of_checkSubscripts hcheck) (length_exprs _ hsubscripts),
      hr.meets_exprs subscripts hs hsubscripts⟩
  | .call _ args _ _ _, _, ⟨hn, ha⟩, h => by
    simp only [expr] at h
    obtain ⟨args', hargs, h⟩ := Except.bind_eq_ok.mp h
    obtain ⟨args'', hargs', h⟩ := Except.bind_eq_ok.mp h
    cases h
    exact ⟨hr.call hn, hr.meets_arguments (hr.meets_args (hr.skips _) args ha hargs) hargs'⟩
  | .int _ _, _, hn, h | .real _ _, _, hn, h | .str _ _, _, hn, h | .bool _ _, _, hn, h
  | .raw _ _, _, hn, h => by
    cases h
    exact hr.literal rfl hn
termination_by structural e => e

theorem meets_exprs (hr : Carries r r') : ∀ (es : List Expr) {es' : List Expr}, exprsMeet r es →
    exprs env symbols trace es = .ok es' → exprsMeet r' es'
  | [], _, _, h => by
    cases h
    trivial
  | e :: es, _, ⟨hm, hms⟩, h => by
    simp only [exprs] at h
    obtain ⟨e', he, h⟩ := Except.bind_eq_ok.mp h
    obtain ⟨es', hes, h⟩ := Except.bind_eq_ok.mp h
    cases h
    exact ⟨hr.meets_expr e hm he, hr.meets_exprs es hms hes⟩
termination_by structural es => es

theorem meets_args (hr : Carries r r') {skip skip' : Bool} (hskip : skip = true → skip' = true) :
    ∀ (es : List Expr) {es' : List Expr}, argsMeet r skip es →
      exprs env symbols trace es = .ok es' → argsMeet r' skip' es'
  | [], _, _, h => by
    cases h
    trivial
  | e :: es, _, ⟨hm, hms⟩, h => by
    simp only [exprs] at h
    obtain ⟨e', he, h⟩ := Except.bind_eq_ok.mp h
    obtain ⟨es', hes, h⟩ := Except.bind_eq_ok.mp h
    cases h
    exact ⟨hm.imp hskip fun hm => hr.meets_expr e hm he, hr.meets_exprs es hms hes⟩
termination_by structural es => es

end

include hr

/-! ### Leaves -/

/-- **The check of controls carries the rule over in all leaves.** -/
theorem leafMap (env : Env) (symbols : Symbols) : (Controls.leafMap env symbols).Carries r r' where
  expr _ hm h := hr.meets_expr _ hm h
  target {scope v v'} _ hm h := by
    obtain ⟨⟨⟩, hcheck, h⟩ := Except.bind_eq_ok.mp h
    obtain ⟨subscripts, hsubscripts, h⟩ := Except.bind_eq_ok.mp h
    cases h
    exact ⟨hr.var hm.1 (length_le_of_checkSubscripts hcheck) (length_exprs _ hsubscripts),
      hr.meets_exprs _ hm.2 hsubscripts⟩
  call _ hk hm h := by
    obtain ⟨args, hargs, h⟩ := Except.bind_eq_ok.mp h
    obtain ⟨args', hargs', h⟩ := Except.bind_eq_ok.mp h
    cases h
    exact ⟨hr.callStmt hk, hr.meets_arguments (hr.meets_args (hr.skips _) _ hm hargs) hargs'⟩
  assign hk ht hv := by
    obtain ⟨-, -, ht⟩ := Except.bind_eq_ok.mp ht
    obtain ⟨subscripts, -, ht⟩ := Except.bind_eq_ok.mp ht
    cases ht
    exact hr.assign hk
  whole _ h := (hr.noWhole h).elim
  accessors _ _ _ := trivial
  reshape := hr.reshape
  list _ _ := hr.list _

end Carries

end FlatScript.Controls
