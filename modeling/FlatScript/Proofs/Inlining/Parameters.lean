import FlatScript.Proofs.Frames
import FlatScript.Proofs.Inlining.Tracks

/-!
# Parameters and what stands in their places

Where a function is copied to a call, its arguments stand in the places of its parameters, and in a
task function it is the cells of the frame. What a reference belongs to is decided by the first part
of its name, without sigil. A function may have two parameters of which these are the same, `$a` and
`@a`, or `a.x` and `a.y`; then the last one takes all references, and the first one gets none.

* `FlatScript.Belongs` says what stands in the place of a name: the value of the last of the
  parameters that have its first part.
* `FlatScript.Expr.Replaced` is what becomes of an expression, reference by reference.
* `FlatScript.Inlining.Copied` and `FlatScript.Taskfunc.Celled` say this of the copy of a function,
  and of a task function that has got its frame.
* `FlatScript.parameters_replaced` puts it together: so it is for every call that is expanded and
  every task function, and every parameter has a value of its own exactly when the first parts are
  different.
-/

namespace FlatScript

open Stack (parameterCell slots_eq)

/-! ### The last parameter of a name -/

/-- **Every name has its own place** exactly when no name stands in two. -/
theorem isLast_iff_nodup {names : List String} :
    (∀ k name, names[k]? = some name → IsLast names name k) ↔ names.Nodup := by
  constructor
  · intro h
    rw [List.nodup_iff_getElem?_ne_getElem?]
    intro i j hij hj heq
    exact (h i _ (heq.trans (List.getElem?_eq_getElem hj))).2 j hij (List.getElem?_eq_getElem hj)
  · intro h k name hk
    refine ⟨hk, fun j hkj hj => ?_⟩
    have hlt : j < names.length := (List.getElem?_eq_some_iff.mp hj).1
    exact List.nodup_iff_getElem?_ne_getElem?.mp h k j hkj hlt (hk.trans hj.symm)

/-- The parameters of a function that has been accepted differ in their first parts, if none of
them has a dot in its name and all have the same sigil. -/
theorem nodup_slotNames {f : FunctionDef} {sigil : Option Sigil} (hnodup : f.paramNames.Nodup)
    (hplain : ∀ i ∈ f.params.map Param.name ++ f.result.toList,
      i.sigil = sigil ∧ '.' ∉ i.name.toList) : (Taskfunc.slotNames f).Nodup := by
  have hfull : f.paramNames = (f.params.map Param.name ++ f.result.toList).map Ident.full := by
    cases hresult : f.result <;> simp [FunctionDef.paramNames, hresult, Function.comp_def]
  rw [hfull] at hnodup
  refine (List.nodup_map_iff_inj_on hnodup.of_map).mpr fun i hi j hj heq => ?_
  have hfirst {i : Ident} (hi : '.' ∉ i.name.toList) : Name.firstPart i.name = i.name := by
    rw [Name.firstPart, List.takeWhile_eq_self_iff.mpr, String.ofList_toList]
    intro c hc
    exact decide_eq_true fun hdot => hi (hdot ▸ hc)
  rw [hfirst (hplain i hi).2, hfirst (hplain j hj).2] at heq
  refine List.inj_on_of_nodup_map hnodup hi hj ?_
  rw [Ident.full, Ident.full, (hplain i hi).1, (hplain j hj).1, heq]

/-! ### Values in the places of names -/

/-- **What stands in the place of a name**: the value of the last one of `names` that is its first
part. -/
def Belongs (names : List String) (values : List Expr) (name : String) (v : Expr) : Prop :=
  ∃ k, IsLast names (Name.firstPart name) k ∧ values[k]? = some v

/-- The name of a function that is called, with the values in the places of the names. -/
inductive Ident.Replaced (names : List String) (values : List Expr) : Ident → Ident → Prop
  /-- A name that stands for a reference. -/
  | reference {i rep : Ident} {own : List Expr} {span : Span}
    (h : Belongs names values i.name (.var rep own span)) :
    Replaced names values i ⟨none, rep.name ++ Name.lastPart i.name, i.span, true⟩
  /-- Any other name. -/
  | other {i : Ident} (h : Name.firstPart i.name ∉ names) : Replaced names values i i

mutual

/-- **What becomes of an expression** when values stand in the places of names. -/
inductive Expr.Replaced (names : List String) (values : List Expr) : Expr → Expr → Prop
  /-- A reference that stands for another one keeps its field and its subscripts. -/
  | reference {i rep : Ident} {es es' own : List Expr} {span span' : Span}
    (h : Belongs names values i.name (.var rep own span'))
    (hes : ExprsReplaced names values es es') :
    Expr.Replaced names values (.var i es span)
      (.var (Substitution.mergeIdent i rep) (es' ++ own) span)
  /-- A reference that stands for a value. -/
  | value {i : Ident} {es : List Expr} {span : Span} {v : Expr} (h : Belongs names values i.name v)
    (hv : v.asVar? = none) : Expr.Replaced names values (.var i es span) v
  /-- Any other reference. -/
  | other {i : Ident} {es es' : List Expr} {span : Span} (h : Name.firstPart i.name ∉ names)
    (hes : ExprsReplaced names values es es') :
    Expr.Replaced names values (.var i es span) (.var i es' span)
  | binary {op : BinaryOp} {left left' right right' : Expr} {span : Span}
    (hleft : Expr.Replaced names values left left')
    (hright : Expr.Replaced names values right right') :
    Expr.Replaced names values (.binary op left right span) (.binary op left' right' span)
  | unary {op : UnaryOp} {operand operand' : Expr} {span : Span}
    (h : Expr.Replaced names values operand operand') :
    Expr.Replaced names values (.unary op operand span) (.unary op operand' span)
  | call {name name' : Ident} {args args' : List Expr} {isProcedure usingCall : Bool} {span : Span}
    (hname : name.Replaced names values name') (hargs : ExprsReplaced names values args args') :
    Expr.Replaced names values (.call name args isProcedure usingCall span)
      (.call name' args' isProcedure usingCall span)
  | literal {x : Expr} (h : x.isLiteral = true) : Expr.Replaced names values x x

/-- What becomes of expressions when values stand in the places of names. -/
inductive ExprsReplaced (names : List String) (values : List Expr) : List Expr → List Expr → Prop
  | nil : ExprsReplaced names values [] []
  | cons {e e' : Expr} {es es' : List Expr} (he : e.Replaced names values e')
    (hes : ExprsReplaced names values es es') : ExprsReplaced names values (e :: es) (e' :: es')

end

namespace Substitution

variable {env : Env} {names : List String} {values : List Expr} {trace : List Span}

/-- The substitution of values for names, of which a later one counts first. -/
theorem find?_zip (hlen : names.length = values.length) (name : String) :
    (∃ v, Belongs names values name v ∧ find? (names.zip values).reverse name = some v) ∨
      Name.firstPart name ∉ names ∧ find? (names.zip values).reverse name = none := by
  have hzip : names.zip values = names.mapIdx fun i name => (name, values[i]?.getD default) := by
    refine List.ext_getElem (by simp [hlen]) fun i hi hi' => ?_
    have hvalue : i < values.length := by simp at hi; omega
    simp [List.getElem?_eq_getElem hvalue]
  rw [find?, hzip]
  rcases lookup_reverse_mapIdx (fun i => values[i]?.getD default) (Name.firstPart name) names with
    ⟨k, hk, hlookup⟩ | hnone
  · have hvalue : k < values.length := hlen ▸ (List.getElem?_eq_some_iff.mp hk.1).1
    refine .inl ⟨_, ⟨k, hk, ?_⟩, hlookup⟩
    rw [List.getElem?_eq_getElem hvalue, Option.getD_some]
  · exact .inr hnone

theorem functionName_replaced (hlen : names.length = values.length) {i j : Ident} {span : Span}
    (h : functionName env (names.zip values).reverse trace i span = .ok j) :
    i.Replaced names values j := by
  unfold functionName at h
  rcases find?_zip hlen i.name with ⟨v, hv, hfind⟩ | ⟨hnot, hfind⟩
  · rw [hfind] at h
    cases v with
    | var rep own span' =>
      cases h
      exact .reference hv
    | _ => cases h
  · rw [hfind] at h
    cases h
    exact .other hnot

mutual

theorem expr_replaced (hlen : names.length = values.length) : ∀ (x : Expr) {x' : Expr},
    expr env (names.zip values).reverse trace x = .ok x' → x.Replaced names values x'
  | .binary op left right span, _, h => by
    obtain ⟨left', hleft, h⟩ := Except.bind_eq_ok.mp h
    obtain ⟨right', hright, h⟩ := Except.bind_eq_ok.mp h
    cases h
    exact .binary (expr_replaced hlen left hleft) (expr_replaced hlen right hright)
  | .unary op operand span, _, h => by
    obtain ⟨operand', hoperand, h⟩ := Except.bind_eq_ok.mp h
    cases h
    exact .unary (expr_replaced hlen operand hoperand)
  | .var i es span, _, h => by
    simp only [expr] at h
    -- The name is that of a parameter, or it is none and the reference stays.
    rcases find?_zip hlen i.name with ⟨v, hv, hfind⟩ | ⟨hnot, hfind⟩
    · rw [hfind] at h
      cases v with
      | var rep own span' =>
        obtain ⟨es', hes', h⟩ := Except.bind_eq_ok.mp h
        cases h
        exact .reference hv (exprs_replaced hlen es hes')
      | _ =>
        cases h
        exact .value hv rfl
    · rw [hfind] at h
      obtain ⟨es', hes', h⟩ := Except.bind_eq_ok.mp h
      cases h
      exact .other hnot (exprs_replaced hlen es hes')
  | .call name args isProcedure usingCall span, _, h => by
    obtain ⟨name', hname, h⟩ := Except.bind_eq_ok.mp h
    obtain ⟨args', hargs, h⟩ := Except.bind_eq_ok.mp h
    cases h
    exact .call (functionName_replaced hlen hname) (exprs_replaced hlen args hargs)
  | .int _ _, _, h | .real _ _, _, h | .str _ _, _, h | .bool _ _, _, h | .raw _ _, _, h => by
    cases h
    exact .literal rfl

theorem exprs_replaced (hlen : names.length = values.length) :
    ∀ (es : List Expr) {es' : List Expr},
    exprs env (names.zip values).reverse trace es = .ok es' → ExprsReplaced names values es es'
  | [], _, h => by
    cases h
    exact .nil
  | x :: es, _, h => by
    obtain ⟨x', rest, hx, hrest, rfl⟩ := exprs_eq_cons h
    exact .cons (expr_replaced hlen x hx) (exprs_replaced hlen es hrest)

end

/-- **Every reference of the statements** is replaced by what belongs to it, whatever it stands in. -/
theorem stmts_replaced (hlen : names.length = values.length) {body body' : List Stmt}
    (h : stmts env (names.zip values).reverse body = .ok body') :
    List.Forall₂ (Expr.Replaced names values) (stmtsLeaves body) (stmtsLeaves body') := by
  refine (LeafMap.leaves_step body h).imp fun x x' hstep => ?_
  obtain ⟨trace, hexpr⟩ := expr_of_step hstep
  exact expr_replaced hlen x hexpr

end Substitution

/-! ### Copies -/

namespace Inlining

variable {env : Env} {inner : Expander} {at' : Place} {p p' : Program}

/-- The names that are replaced in a copy of a function: its parameters, and its result if the call
stands in an assignment. -/
def copyNames (f : FunctionDef) (result : Option VarRef) : List String :=
  f.params.map (fun q => Name.firstPart q.name.name) ++ (resultsOf f result).map Prod.fst

/-- They are the first parts of the names of parameters and result, or of those of the parameters. -/
theorem copyNames_prefix (f : FunctionDef) (result : Option VarRef) :
    copyNames f result <+: Taskfunc.slotNames f := by
  have hslots : Taskfunc.slotNames f = f.params.map (fun q => Name.firstPart q.name.name) ++
      f.result.toList.map fun r => Name.firstPart r.name := by
    rw [Taskfunc.slotNames, List.map_append, List.map_map]
    rfl
  rw [hslots, copyNames, List.prefix_append_right_inj]
  unfold resultsOf resultKey?
  cases f.result with
  | none => exact List.nil_prefix
  | some r =>
    cases result with
    | none => exact List.nil_prefix
    | some target => exact List.prefix_rfl

/-- **A copy of a function at a call**: what the arguments are passed as belongs to the parameters,
and the target of the assignment, if the call stands in one, to the result. -/
def Copied (e : FunctionEntry) (c : CallSite) (result : Option VarRef) (body : List Stmt) : Prop :=
  c.args.length = e.fn.params.length ∧
  ∃ values, List.Forall₂ (fun a v => ∃ q q', (passed a).run q = .ok (v, q')) c.args values ∧
    List.Forall₂ (Expr.Replaced (copyNames e.fn result)
        (values ++ (resultsOf e.fn result).map Prod.snd))
      (stmtsLeaves (stmtsCopiedTo c.span e.fn.body)) (stmtsLeaves body)

/-- The arguments stand behind one another, the last one in front. -/
theorem argumentSubstitution_zip : ∀ (params : List Param) (args : List Argument) {p p' : Program}
    {σ : Substitution}, args.length = params.length →
    (argumentSubstitution (params.zip args)).run p = .ok (σ, p') →
    ∃ values, List.Forall₂ (fun a v => ∃ q q', (passed a).run q = .ok (v, q')) args values ∧
      σ = ((params.map fun q => Name.firstPart q.name.name).zip values).reverse
  | [], [], _, _, _, _, h => by
    cases h
    exact ⟨[], .nil, rfl⟩
  | [], _ :: _, _, _, _, hlen, _ => absurd hlen (Nat.succ_ne_zero _)
  | _ :: _, [], _, _, _, hlen, _ => absurd hlen.symm (Nat.succ_ne_zero _)
  | param :: params, a :: args, p, _, _, hlen, h => by
    rw [List.zip_cons_cons, argumentSubstitution_cons] at h
    obtain ⟨v, p₁, hv, h⟩ := StateT.bind_eq_ok.mp h
    obtain ⟨σ, p₂, hσ, h⟩ := StateT.bind_eq_ok.mp h
    cases h
    obtain ⟨values, hvalues, rfl⟩ := argumentSubstitution_zip params args (Nat.succ.inj hlen) hσ
    exact ⟨v :: values, .cons ⟨p, p₁, hv⟩ hvalues, by simp⟩

/-- **A function that is copied** is so with its arguments in the places of its parameters, and the
copy is what is expanded. -/
theorem inlineBody_copied {e : FunctionEntry} {c : CallSite} {result : Option VarRef}
    {out : List Stmt} (hlen : c.args.length = e.fn.params.length)
    (h : (inlineBody env inner at' e c result).run p = .ok (out, p')) :
    ∃ decls body copy q, Copied e c result body ∧ out = decls ++ copy ∧
      (inner { at' with stack := at'.stack ++ [e.name] } body).run q = .ok (copy, p') := by
  rw [inlineBody_eq] at h
  obtain ⟨decls₀, p₁, -, h⟩ := StateT.bind_eq_ok.mp h
  obtain ⟨decls, p₂, -, h⟩ := StateT.bind_eq_ok.mp h
  obtain ⟨σ, p₃, hσ, h⟩ := StateT.bind_eq_ok.mp h
  obtain ⟨copy, p₄, hcopy, h⟩ := StateT.bind_eq_ok.mp h
  cases h
  obtain ⟨body, p₅, hbody, hexpand⟩ := StateT.bind_eq_ok.mp hcopy
  obtain ⟨hstmts, rfl⟩ := StateT.lift_eq_ok.mp hbody
  obtain ⟨values, hvalues, rfl⟩ := argumentSubstitution_zip _ _ hlen hσ
  have hcount : (e.fn.params.map fun q => Name.firstPart q.name.name).length = values.length := by
    rw [List.length_map, ← hlen, hvalues.length_eq]
  have hall : resultsOf e.fn result ++
      ((e.fn.params.map fun q => Name.firstPart q.name.name).zip values).reverse =
        ((copyNames e.fn result).zip (values ++ (resultsOf e.fn result).map Prod.snd)).reverse := by
    rw [copyNames, List.zip_append hcount, List.reverse_append]
    unfold resultsOf
    cases resultKey? e.fn <;> cases result <;> rfl
  rw [hall] at hstmts
  have hlength : (copyNames e.fn result).length =
      (values ++ (resultsOf e.fn result).map Prod.snd).length := by
    simp only [copyNames, List.length_append, hcount, List.length_map]
  exact ⟨decls, body, copy, _, ⟨hlen, values, hvalues, Substitution.stmts_replaced hlength hstmts⟩,
    rfl, hexpand⟩

/-- A call that is accepted has as many arguments as the function has parameters. -/
theorem enterCall_arity {c : CallSite} {use : Use} {e : FunctionEntry}
    (h : (enterCall env at' c use).run p = .ok (e, p')) :
    p.function? c.name.name = some e ∧ c.args.length = e.fn.params.length := by
  rw [enterCall_run] at h
  split at h
  · cases h
  · next e' hfind =>
    split at h
    · cases h
    · next hfault =>
      cases h
      refine ⟨hfind, ?_⟩
      by_contra hlen
      simp only [callFault?, ne_eq, hlen, not_false_eq_true, if_true] at hfault
      split at hfault <;> cases hfault

/-- **A call that is a statement, or stands in an assignment, and whose function is copied.** -/
theorem callStmts_copied {c : CallSite} {target : Option VarRef} {out : List Stmt}
    {e : FunctionEntry} (he : p.function? c.name.name = some e) (htask : e.fn.isTaskfunc = false)
    (huser : reachesBuiltin env p c = false) (hcall : c.usingCall = false)
    (h : (callStmts env inner at' c target).run p = .ok (out, p')) :
    ∃ decls body copy q, Copied e c target body ∧ out = decls ++ copy ∧
      (inner { at' with stack := at'.stack ++ [e.name] } body).run q = .ok (copy, p') := by
  rw [callStmts_eq] at h
  simp only [StateT.run_bind, StateT.run_get, pure_bind, huser, Bool.false_eq_true, if_false] at h
  obtain ⟨⟨e', p₁⟩, henter, h⟩ := Except.bind_eq_ok.mp h
  obtain ⟨he', hlen⟩ := enterCall_arity henter
  obtain rfl : e = e' := Option.some.inj (he.symm.trans he')
  simp only [htask, hcall, Bool.false_eq_true, if_false] at h
  exact inlineBody_copied hlen h

/-- **A call inside an expression.** -/
theorem callExpr_copied {c : CallSite} {v : Expr} (huser : reachesBuiltin env p c = false)
    (h : (callExpr env inner at' c).run p = .ok (v, p')) :
    ∃ e decls body copy q, p.function? c.name.name = some e ∧ Copied e c none body ∧
      (inner { at' with stack := at'.stack ++ [e.name] } body).run q = .ok (copy, p') ∧
      resultOf? e.fn (decls ++ copy) = some v := by
  rw [callExpr_eq] at h
  simp only [StateT.run_bind, StateT.run_get, pure_bind, huser, Bool.false_eq_true, if_false] at h
  obtain ⟨⟨e, p₁⟩, henter, h⟩ := Except.bind_eq_ok.mp h
  obtain ⟨he, hlen⟩ := enterCall_arity henter
  obtain ⟨⟨out, p₂⟩, hinline, h⟩ := Except.bind_eq_ok.mp h
  dsimp only at hinline h
  split at h
  · next value hvalue =>
    cases h
    obtain ⟨decls, body, copy, q, hcopied, rfl, hrun⟩ := inlineBody_copied hlen hinline
    exact ⟨e, decls, body, copy, q, he, hcopied, hrun, hvalue⟩
  · cases h

end Inlining

/-! ### Frames -/

namespace Taskfunc

/-- **A task function with its frame**: in the places of its parameters and of its result stand the
cells that belong to them, one behind the other. -/
def Celled (e e' : FunctionEntry) : Prop :=
  ∃ body, e'.fn.body = enter (frameSize e) e.fn.span ++ body ++ leave (frameSize e) e.fn.span ∧
    List.Forall₂ (Expr.Replaced (slotNames e.fn)
        ((List.range (slotNames e.fn).length).map (parameterCell e)))
      (stmtsLeaves e.fn.body) (stmtsLeaves body)

theorem withFrame_celled {env : Env} {e e' : FunctionEntry} (htask : e.fn.isTaskfunc = true)
    (h : withFrame env e = .ok e') : Celled e e' := by
  unfold withFrame at h
  rw [if_pos htask] at h
  simp only at h
  split at h
  · cases h
  · obtain ⟨body, hbody, h⟩ := Except.bind_eq_ok.mp h
    cases h
    have hslots : slots e = ((slotNames e.fn).zip
        ((List.range (slotNames e.fn).length).map (parameterCell e))).reverse := by
      rw [slots_eq]
      congr 1
      exact List.ext_getElem (by simp) fun i hi hi' => by simp
    rw [hslots] at hbody
    exact ⟨body, rfl, Substitution.stmts_replaced (by simp) hbody⟩

end Taskfunc

/-! ### Parameters of their own -/

open Inlining in
/-- **Parameters and what stands in their places.** In a copy of a function each reference, whatever
it stands in, is replaced by the argument of the last parameter that has the first part of its name,
or by the target of the assignment if it is the name of the result; so it is for calls that are
statements or stand in assignments and for calls inside expressions, and in a task function with the
cells of its frame. Every parameter has an argument and a cell of its own exactly when the first
parts of the names, without sigil, are all different. This is so when the names that a function is
accepted with have the same sigil and no dots, but `$a` and `@a` are accepted too. -/
theorem parameters_replaced (env : Env) (e : FunctionEntry) :
    ((∀ k name, (Taskfunc.slotNames e.fn)[k]? = some name →
        IsLast (Taskfunc.slotNames e.fn) name k) ↔ (Taskfunc.slotNames e.fn).Nodup) ∧
    (∀ sigil, e.fn.paramNames.Nodup →
      (∀ i ∈ e.fn.params.map Param.name ++ e.fn.result.toList,
        i.sigil = sigil ∧ '.' ∉ i.name.toList) → (Taskfunc.slotNames e.fn).Nodup) ∧
    (∀ result, copyNames e.fn result <+: Taskfunc.slotNames e.fn) ∧
    (∀ inner at' c target p p' out, p.function? c.name.name = some e →
      e.fn.isTaskfunc = false → reachesBuiltin env p c = false → c.usingCall = false →
      (callStmts env inner at' c target).run p = .ok (out, p') →
        ∃ decls body copy q, Copied e c target body ∧ out = decls ++ copy ∧
          (inner { at' with stack := at'.stack ++ [e.name] } body).run q = .ok (copy, p')) ∧
    (∀ inner at' c p p' v, reachesBuiltin env p c = false →
      (callExpr env inner at' c).run p = .ok (v, p') →
        ∃ callee decls body copy q, p.function? c.name.name = some callee ∧
          Copied callee c none body ∧
          (inner { at' with stack := at'.stack ++ [callee.name] } body).run q = .ok (copy, p') ∧
          resultOf? callee.fn (decls ++ copy) = some v) ∧
    (∀ e', e.fn.isTaskfunc = true → Taskfunc.withFrame env e = .ok e' → Taskfunc.Celled e e') :=
  ⟨isLast_iff_nodup, fun _ => nodup_slotNames, copyNames_prefix e.fn,
    fun _ _ _ _ _ _ _ he htask huser hcall h => callStmts_copied he htask huser hcall h,
    fun _ _ _ _ _ _ huser h => callExpr_copied huser h,
    fun _ htask h => Taskfunc.withFrame_celled htask h⟩

/-! ### Some functions -/

/-- A reference, by its spelling. -/
def referenceTo (x : String) : Expr := (VarRef.plain (.ofText x .zero)).toExpr

/-- A function that assigns its parameters to its result, one after the other. -/
def taker (params : List String) (isTaskfunc : Bool) : FunctionDef where
  name := .ofText "f" .zero
  params := params.map fun x => ⟨.ofText x .zero, .value⟩
  result := some (.ofText "r" .zero)
  body := params.map fun x => .written (.assign (.plain (.ofText "r" .zero)) (referenceTo x)) .zero
  isTaskfunc := isTaskfunc
  isOverride := false
  span := .zero

/-- Both are accepted, and only the parameters of the first have places of their own. -/
example : (taker ["a", "b"] false).paramNames.Nodup ∧
    (Taskfunc.slotNames (taker ["a", "b"] false)).Nodup ∧
    (taker ["$a", "@a"] false).paramNames.Nodup ∧
    ¬ (Taskfunc.slotNames (taker ["$a", "@a"] false)).Nodup := by
  decide +kernel

/-- The entry of such a function. -/
def takerEntry (params : List String) (isTaskfunc : Bool) : FunctionEntry where
  fn := taker params isTaskfunc

/-- A call of the function with numbers. -/
def takerCall (args : List Int32) : Inlining.CallSite where
  name := .ofText "f" .zero
  args := args.map fun v => ⟨.int v .zero, pure (.int v .zero), none⟩
  isProcedure := false
  usingCall := false
  span := .zero

open Inlining in
/-- Calls `x := f(1, 2)` and `f(1)`, and a task function with its frame. -/
theorem takerCall_replaced :
    (∀ k name, (Taskfunc.slotNames (taker ["a", "b"] false))[k]? = some name →
      IsLast (Taskfunc.slotNames (taker ["a", "b"] false)) name k) ∧
    (∃ out p' body, (callStmts ⟨{}, .empty⟩ (fun _ ss => pure ss) ⟨.callback false, [], []⟩
        (takerCall [1, 2]) (some (.plain (.ofText "x" .zero)))).run
          { functions := [takerEntry ["a", "b"] false] } = .ok (out, p') ∧
      Copied (takerEntry ["a", "b"] false) (takerCall [1, 2])
        (some (.plain (.ofText "x" .zero))) body) ∧
    (∃ v p' e body, (callExpr ⟨{}, .empty⟩ (fun _ ss => pure ss) ⟨.callback false, [], []⟩
        (takerCall [1])).run { functions := [takerEntry ["a"] false] } = .ok (v, p') ∧
      Copied e (takerCall [1]) none body) ∧
    ∃ e', Taskfunc.withFrame ⟨{}, .empty⟩ (takerEntry ["a", "b"] true) = .ok e' ∧
      Taskfunc.Celled (takerEntry ["a", "b"] true) e' := by
  obtain ⟨hown, hplain, -, hstmts, hexpr, -⟩ :=
    parameters_replaced ⟨{}, .empty⟩ (takerEntry ["a", "b"] false)
  refine ⟨?_, ?_, ?_, ?_⟩
  · refine hown.mpr (hplain none (by decide +kernel) ?_)
    decide +kernel
  · cases hrun : (callStmts ⟨{}, .empty⟩ (fun _ ss => pure ss) ⟨.callback false, [], []⟩
        (takerCall [1, 2]) (some (.plain (.ofText "x" .zero)))).run
          { functions := [takerEntry ["a", "b"] false] } with
    | error e => cases hrun
    | ok result =>
      obtain ⟨out, p'⟩ := result
      obtain ⟨decls, body, copy, q, hcopied, -⟩ :=
        hstmts _ _ _ _ _ _ _ rfl rfl rfl rfl hrun
      exact ⟨out, p', body, rfl, hcopied⟩
  · cases hrun : (callExpr ⟨{}, .empty⟩ (fun _ ss => pure ss) ⟨.callback false, [], []⟩
        (takerCall [1])).run { functions := [takerEntry ["a"] false] } with
    | error e => cases hrun
    | ok result =>
      obtain ⟨v, p'⟩ := result
      obtain ⟨e, decls, body, copy, q, -, hcopied, -⟩ := hexpr _ _ _ _ _ _ rfl hrun
      exact ⟨v, p', e, body, rfl, hcopied⟩
  · cases hrun : Taskfunc.withFrame ⟨{}, .empty⟩ (takerEntry ["a", "b"] true) with
    | error e => cases hrun
    | ok e' =>
      have hcelled := (parameters_replaced ⟨{}, .empty⟩ (takerEntry ["a", "b"] true)).2.2.2.2.2 e'
      exact ⟨e', rfl, hcelled rfl hrun⟩

end FlatScript
