import FlatScript.Proofs.Inlining.Echo

/-!
# The same apart from places

Expressions and statements keep their places, and identifiers remember whether they are qualified.
Neither has a part in what is written in the end, so two statements may be called the same when
they differ in nothing else: `FlatScript.Expr.Matches` and `FlatScript.Stmt.Matches`.

* `FlatScript.Substitution.stmts_match`: arguments that are the same apart from places, put into the
  same body, give bodies that are.
-/

namespace FlatScript

/-! ### Expressions -/

/-- **Identifiers that are the same apart from places.** -/
structure Ident.Matches (i i' : Ident) : Prop where
  sigil : i'.sigil = i.sigil
  name : i'.name = i.name

mutual

/-- **Expressions that are the same apart from places.** -/
inductive Expr.Matches : Expr → Expr → Prop
  | binary {op l l' r r' span span'} (hl : Expr.Matches l l') (hr : Expr.Matches r r') :
    Expr.Matches (.binary op l r span) (.binary op l' r' span')
  | unary {op e e' span span'} (he : Expr.Matches e e') :
    Expr.Matches (.unary op e span) (.unary op e' span')
  | int {v span span'} : Expr.Matches (.int v span) (.int v span')
  | real {v span span'} : Expr.Matches (.real v span) (.real v span')
  | str {raw span span'} : Expr.Matches (.str raw span) (.str raw span')
  | bool {v span span'} : Expr.Matches (.bool v span) (.bool v span')
  | var {i i' es es' span span'} (hi : i.Matches i') (hes : ExprsMatch es es') :
    Expr.Matches (.var i es span) (.var i' es' span')
  | call {name name' args args' isProcedure usingCall span span'} (hname : name.Matches name')
    (hargs : ExprsMatch args args') :
    Expr.Matches (.call name args isProcedure usingCall span)
      (.call name' args' isProcedure usingCall span')
  | raw {text span span'} : Expr.Matches (.raw text span) (.raw text span')

/-- **Lists of expressions that are the same apart from places.** -/
inductive ExprsMatch : List Expr → List Expr → Prop
  | nil : ExprsMatch [] []
  | cons {e e' es es'} (he : Expr.Matches e e') (hes : ExprsMatch es es') :
    ExprsMatch (e :: es) (e' :: es')

end

theorem Ident.Matches.refl (i : Ident) : i.Matches i := ⟨rfl, rfl⟩

theorem Ident.Matches.trans {i i' i'' : Ident} (h : i.Matches i') (h' : i'.Matches i'') :
    i.Matches i'' :=
  ⟨h'.sigil.trans h.sigil, h'.name.trans h.name⟩

mutual

theorem Expr.Matches.refl : ∀ e : Expr, e.Matches e
  | .binary _ l r _ => .binary (.refl l) (.refl r)
  | .unary _ e _ => .unary (.refl e)
  | .int _ _ => .int
  | .real _ _ => .real
  | .str _ _ => .str
  | .bool _ _ => .bool
  | .var i es _ => .var (.refl i) (.refl es)
  | .call name args _ _ _ => .call (.refl name) (.refl args)
  | .raw _ _ => .raw

theorem ExprsMatch.refl : ∀ es : List Expr, ExprsMatch es es
  | [] => .nil
  | e :: es => .cons (.refl e) (.refl es)

end

mutual

theorem Expr.Matches.trans : ∀ {e e' e'' : Expr}, e.Matches e' → e'.Matches e'' → e.Matches e''
  | _, _, _, .binary hl hr, .binary hl' hr' => .binary (hl.trans hl') (hr.trans hr')
  | _, _, _, .unary he, .unary he' => .unary (he.trans he')
  | _, _, _, .int, .int => .int
  | _, _, _, .real, .real => .real
  | _, _, _, .str, .str => .str
  | _, _, _, .bool, .bool => .bool
  | _, _, _, .var hi hes, .var hi' hes' => .var (hi.trans hi') (hes.trans hes')
  | _, _, _, .call hn ha, .call hn' ha' => .call (hn.trans hn') (ha.trans ha')
  | _, _, _, .raw, .raw => .raw

theorem ExprsMatch.trans : ∀ {es es' es'' : List Expr}, ExprsMatch es es' → ExprsMatch es' es'' →
    ExprsMatch es es''
  | _, _, _, .nil, .nil => .nil
  | _, _, _, .cons he hes, .cons he' hes' => .cons (he.trans he') (hes.trans hes')

end

theorem Ident.Matches.symm {i i' : Ident} (h : i.Matches i') : i'.Matches i :=
  ⟨h.sigil.symm, h.name.symm⟩

mutual

theorem Expr.Matches.symm : ∀ {e e' : Expr}, e.Matches e' → e'.Matches e
  | _, _, .binary hl hr => .binary hl.symm hr.symm
  | _, _, .unary he => .unary he.symm
  | _, _, .int => .int
  | _, _, .real => .real
  | _, _, .str => .str
  | _, _, .bool => .bool
  | _, _, .var hi hes => .var hi.symm hes.symm
  | _, _, .call hn ha => .call hn.symm ha.symm
  | _, _, .raw => .raw

theorem ExprsMatch.symm : ∀ {es es' : List Expr}, ExprsMatch es es' → ExprsMatch es' es
  | _, _, .nil => .nil
  | _, _, .cons he hes => .cons he.symm hes.symm

end

theorem ExprsMatch.append {es es' fs fs' : List Expr} (h : ExprsMatch es es')
    (hfs : ExprsMatch fs fs') : ExprsMatch (es ++ fs) (es' ++ fs') := by
  induction es generalizing es' with
  | nil =>
    cases h
    exact hfs
  | cons e es ih =>
    cases h with
    | cons he hes => exact .cons he (ih hes)

theorem ExprsMatch.isEmpty {es es' : List Expr} (h : ExprsMatch es es') :
    es'.isEmpty = es.isEmpty := by
  cases h <;> rfl

/-- **References that are the same apart from places.** -/
structure VarRef.Matches (v v' : VarRef) : Prop where
  ident : v.ident.Matches v'.ident
  subscripts : ExprsMatch v.subscripts v'.subscripts

theorem VarRef.Matches.refl (v : VarRef) : v.Matches v := ⟨.refl _, .refl _⟩

theorem VarRef.Matches.toExpr {v v' : VarRef} (h : v.Matches v') : v.toExpr.Matches v'.toExpr :=
  .var h.ident h.subscripts

/-- **Calls that are the same apart from places.** -/
structure Call.Matches (c c' : Call) : Prop where
  name : c.name.Matches c'.name
  args : ExprsMatch c.args c'.args
  isProcedure : c'.isProcedure = c.isProcedure
  usingCall : c'.usingCall = c.usingCall

theorem Call.Matches.toExpr {c c' : Call} (h : c.Matches c') : c.toExpr.Matches c'.toExpr := by
  unfold Call.toExpr
  rw [h.isProcedure, h.usingCall]
  exact .call h.name h.args

/-! ### Statements -/

/-- Values of declarations that are the same apart from places. -/
inductive Initializer.Matches : Initializer → Initializer → Prop
  | single {e e'} (h : e.Matches e') : Initializer.Matches (.single e) (.single e')
  | list {es es'} (h : ExprsMatch es es') : Initializer.Matches (.list es) (.list es')

/-- **Declarations that are the same apart from places.** -/
structure Declaration.Matches (d d' : Declaration) : Prop where
  name : d'.name = d.name
  modifiers : d'.modifiers = d.modifiers
  size : Option.Rel Expr.Matches d.size d'.size
  params : ExprsMatch d.params d'.params
  init : Option.Rel Initializer.Matches d.init d'.init

mutual

/-- **Statements that are the same apart from places**, and from the calls that they remember. -/
inductive Stmt.Matches : Stmt → Stmt → Prop
  | property {name fs fs' span span' trace trace'} (hfs : FunctionsMatch fs fs') :
    Stmt.Matches ⟨.property name fs, span, trace⟩ ⟨.property name fs', span', trace'⟩
  | synonym {name indices target target' span span' trace trace'} (ht : target.Matches target') :
    Stmt.Matches ⟨.synonym name indices target, span, trace⟩
      ⟨.synonym name indices target', span', trace'⟩
  | declare {d d' span span' trace trace'} (hd : d.Matches d') :
    Stmt.Matches ⟨.declare d, span, trace⟩ ⟨.declare d', span', trace'⟩
  | assign {target target' value value' span span' trace trace'} (ht : target.Matches target')
    (hv : value.Matches value') :
    Stmt.Matches ⟨.assign target value, span, trace⟩ ⟨.assign target' value', span', trace'⟩
  | call {c c' span span' trace trace'} (hc : c.Matches c') :
    Stmt.Matches ⟨.call c, span, trace⟩ ⟨.call c', span', trace'⟩
  | whileLoop {cond cond' body body' span span' trace trace'} (hc : cond.Matches cond')
    (hb : StmtsMatch body body') :
    Stmt.Matches ⟨.whileLoop cond body, span, trace⟩ ⟨.whileLoop cond' body', span', trace'⟩
  | forLoop {var var' start start' stop stop' step step' downto body body' span span' trace trace'}
    (hv : var.Matches var') (hstart : start.Matches start') (hstop : stop.Matches stop')
    (hstep : Option.Rel Expr.Matches step step') (hb : StmtsMatch body body') :
    Stmt.Matches ⟨.forLoop var start stop step downto body, span, trace⟩
      ⟨.forLoop var' start' stop' step' downto body', span', trace'⟩
  | family {name body body' span span' trace trace'} (hb : StmtsMatch body body') :
    Stmt.Matches ⟨.family name body, span, trace⟩ ⟨.family name body', span', trace'⟩
  | ifChain {bs bs' otherwise otherwise' span span' trace trace'} (hbs : BranchesMatch bs bs')
    (ho : StmtsMatch otherwise otherwise') :
    Stmt.Matches ⟨.ifChain bs otherwise, span, trace⟩ ⟨.ifChain bs' otherwise', span', trace'⟩
  | select {subject subject' cs cs' span span' trace trace'} (hs : subject.Matches subject')
    (hcs : CasesMatch cs cs') :
    Stmt.Matches ⟨.select subject cs, span, trace⟩ ⟨.select subject' cs', span', trace'⟩

/-- **Lists of statements that are the same apart from places.** -/
inductive StmtsMatch : List Stmt → List Stmt → Prop
  | nil : StmtsMatch [] []
  | cons {s s' ss ss'} (hs : Stmt.Matches s s') (hss : StmtsMatch ss ss') :
    StmtsMatch (s :: ss) (s' :: ss')

/-- Branches that are the same apart from places. -/
inductive BranchesMatch : List Branch → List Branch → Prop
  | nil : BranchesMatch [] []
  | cons {cond cond' body body' bs bs'} (hc : cond.Matches cond') (hb : StmtsMatch body body')
    (hbs : BranchesMatch bs bs') : BranchesMatch (⟨cond, body⟩ :: bs) (⟨cond', body'⟩ :: bs')

/-- Cases that are the same apart from places. -/
inductive CasesMatch : List Case → List Case → Prop
  | nil : CasesMatch [] []
  | cons {start start' stop stop' body body' cs cs'} (hstart : start.Matches start')
    (hstop : Option.Rel Expr.Matches stop stop') (hb : StmtsMatch body body')
    (hcs : CasesMatch cs cs') :
    CasesMatch (⟨start, stop, body⟩ :: cs) (⟨start', stop', body'⟩ :: cs')

/-- Functions that are the same apart from places. -/
inductive FunctionsMatch : List FunctionDef → List FunctionDef → Prop
  | nil : FunctionsMatch [] []
  | cons {name params result body body' isTaskfunc isOverride span fs fs'}
    (hb : StmtsMatch body body') (hfs : FunctionsMatch fs fs') :
    FunctionsMatch (⟨name, params, result, body, isTaskfunc, isOverride, span⟩ :: fs)
      (⟨name, params, result, body', isTaskfunc, isOverride, span⟩ :: fs')

end

theorem StmtsMatch.append {ss ss' rest rest' : List Stmt} (h : StmtsMatch ss ss')
    (hrest : StmtsMatch rest rest') : StmtsMatch (ss ++ rest) (ss' ++ rest') := by
  induction ss generalizing ss' with
  | nil =>
    cases h
    exact hrest
  | cons s ss ih =>
    cases h with
    | cons hs hss => exact .cons hs (ih hss)

theorem StmtsMatch.single {s s' : Stmt} (h : s.Matches s') : StmtsMatch [s] [s'] := .cons h .nil

/-- The right side of a single assignment to the result of a function. -/
theorem StmtsMatch.resultOf? {ss ss' : List Stmt} (h : StmtsMatch ss ss') (f : FunctionDef) :
    Option.Rel Expr.Matches (Inlining.resultOf? f ss) (Inlining.resultOf? f ss') := by
  cases h with
  | nil => exact .none
  | cons hs hss =>
    cases hss with
    | cons hs₂ hss => simpa only [Inlining.resultOf?] using .none
    | nil =>
      cases hs with
      | assign ht hv =>
        simp only [Inlining.resultOf?, ht.subscripts.isEmpty, ht.ident.name]
        split
        · exact .some hv
        · exact .none
      | _ => exact .none

theorem optionRel_refl {α : Type} {R : α → α → Prop} (h : ∀ a, R a a) (o : Option α) :
    Option.Rel R o o := by
  cases o with
  | none => exact .none
  | some a => exact .some (h a)

theorem Initializer.Matches.refl : ∀ i : Initializer, i.Matches i
  | .single e => .single (.refl e)
  | .list es => .list (.refl es)

theorem Declaration.Matches.refl (d : Declaration) : d.Matches d where
  name := rfl
  modifiers := rfl
  size := optionRel_refl Expr.Matches.refl _
  params := .refl _
  init := optionRel_refl Initializer.Matches.refl _

mutual

theorem Stmt.Matches.refl : ∀ s : Stmt, s.Matches s
  | ⟨.property _ fs, _, _⟩ => .property (.refl fs)
  | ⟨.synonym _ _ target, _, _⟩ => .synonym (.refl target)
  | ⟨.declare d, _, _⟩ => .declare (.refl d)
  | ⟨.assign target value, _, _⟩ => .assign (.refl target) (.refl value)
  | ⟨.call _, _, _⟩ => .call ⟨.refl _, .refl _, rfl, rfl⟩
  | ⟨.whileLoop cond body, _, _⟩ => .whileLoop (.refl cond) (.refl body)
  | ⟨.forLoop var start stop step _ body, _, _⟩ =>
    .forLoop (.refl var) (.refl start) (.refl stop) (optionRel_refl Expr.Matches.refl step)
      (.refl body)
  | ⟨.family _ body, _, _⟩ => .family (.refl body)
  | ⟨.ifChain bs otherwise, _, _⟩ => .ifChain (.refl bs) (.refl otherwise)
  | ⟨.select subject cs, _, _⟩ => .select (.refl subject) (.refl cs)

theorem StmtsMatch.refl : ∀ ss : List Stmt, StmtsMatch ss ss
  | [] => .nil
  | s :: ss => .cons (.refl s) (.refl ss)

theorem BranchesMatch.refl : ∀ bs : List Branch, BranchesMatch bs bs
  | [] => .nil
  | ⟨cond, body⟩ :: rest => .cons (.refl cond) (.refl body) (.refl rest)

theorem CasesMatch.refl : ∀ cs : List Case, CasesMatch cs cs
  | [] => .nil
  | ⟨start, stop, body⟩ :: rest =>
    .cons (.refl start) (optionRel_refl Expr.Matches.refl stop) (.refl body) (.refl rest)

theorem FunctionsMatch.refl : ∀ fs : List FunctionDef, FunctionsMatch fs fs
  | [] => .nil
  | ⟨_, _, _, body, _, _, _⟩ :: rest => .cons (.refl body) (.refl rest)

end

/-! ### Substitution -/

/-- **Substitutions with the same arguments apart from places.** -/
def Substitution.Matches (σ σ' : Substitution) : Prop :=
  List.Forall₂ (fun b b' => b'.1 = b.1 ∧ b.2.Matches b'.2) σ σ'

namespace Substitution

variable {env : Env} {σ σ' : Substitution} {tr tr' : List Span}

theorem Matches.find? (h : σ.Matches σ') (name : String) :
    Option.Rel Expr.Matches (σ.find? name) (σ'.find? name) := by
  unfold Substitution.find?
  induction h with
  | nil => exact .none
  | @cons b b' σ σ' hb _ ih =>
    obtain ⟨key, value⟩ := b
    obtain ⟨key', value'⟩ := b'
    obtain ⟨rfl, hvalue⟩ := hb
    simp only [List.lookup_cons]
    split
    · exact .some hvalue
    · exact ih

theorem mergeIdent_matches (i : Ident) {rep rep' : Ident} (h : rep.Matches rep') :
    (mergeIdent i rep).Matches (mergeIdent i rep') :=
  ⟨by simp only [mergeIdent, h.sigil], by simp only [mergeIdent, h.name]⟩

theorem functionName_matches (h : σ.Matches σ') {name r : Ident} {span span' : Span}
    (hrun : functionName env σ tr name span = .ok r) :
    ∃ r', functionName env σ' tr' name span' = .ok r' ∧ r.Matches r' := by
  have hfind := h.find? name.name
  unfold functionName at hrun ⊢
  generalize σ.find? name.name = o, σ'.find? name.name = o' at hfind hrun
  cases hfind with
  | none =>
    cases hrun
    exact ⟨_, rfl, .refl _⟩
  | some hvalue =>
    cases hvalue with
    | var hi _ =>
      cases hrun
      exact ⟨_, rfl, rfl, congrArg (· ++ _) hi.name⟩
    | _ => cases hrun

mutual

/-- An expression with arguments in the place of parameters. -/
theorem expr_matches (h : σ.Matches σ') : ∀ (e : Expr) {r : Expr}, expr env σ tr e = .ok r →
    ∃ r', expr env σ' tr' e = .ok r' ∧ r.Matches r'
  | .binary op left right span, _, hrun => by
    simp only [expr] at hrun ⊢
    obtain ⟨l, hl, hrun⟩ := Except.bind_eq_ok.mp hrun
    obtain ⟨r, hr, hrun⟩ := Except.bind_eq_ok.mp hrun
    cases hrun
    obtain ⟨l', hl', hml⟩ := expr_matches h left hl
    obtain ⟨r', hr', hmr⟩ := expr_matches h right hr
    exact ⟨_, by rw [hl', hr']; rfl, .binary hml hmr⟩
  | .unary op operand span, _, hrun => by
    simp only [expr] at hrun ⊢
    obtain ⟨o, ho, hrun⟩ := Except.bind_eq_ok.mp hrun
    cases hrun
    obtain ⟨o', ho', hm⟩ := expr_matches h operand ho
    exact ⟨_, by rw [ho']; rfl, .unary hm⟩
  | .var i subscripts span, _, hrun => by
    have hfind := h.find? i.name
    simp only [expr] at hrun ⊢
    -- Both find nothing for the name, or values that match.
    generalize σ.find? i.name = o, σ'.find? i.name = o' at hfind hrun
    cases hfind with
    | none =>
      obtain ⟨es, hes, hrun⟩ := Except.bind_eq_ok.mp hrun
      cases hrun
      obtain ⟨es', hes', hm⟩ := exprs_matches h subscripts hes
      exact ⟨_, by rw [hes']; rfl, .var (.refl i) hm⟩
    | some hvalue =>
      have hwhole := hvalue
      cases hvalue with
      | var hi hown =>
        obtain ⟨es, hes, hrun⟩ := Except.bind_eq_ok.mp hrun
        cases hrun
        obtain ⟨es', hes', hm⟩ := exprs_matches h subscripts hes
        exact ⟨_, by rw [hes']; rfl, .var (mergeIdent_matches i hi) (hm.append hown)⟩
      | _ =>
        cases hrun
        exact ⟨_, rfl, hwhole⟩
  | .call name args isProcedure usingCall span, _, hrun => by
    simp only [expr] at hrun ⊢
    obtain ⟨n, hn, hrun⟩ := Except.bind_eq_ok.mp hrun
    obtain ⟨as, has, hrun⟩ := Except.bind_eq_ok.mp hrun
    cases hrun
    obtain ⟨n', hn', hmn⟩ := functionName_matches h hn
    obtain ⟨as', has', hma⟩ := exprs_matches h args has
    exact ⟨_, by rw [hn', has']; rfl, .call hmn hma⟩
  | .int _ _, _, hrun | .real _ _, _, hrun | .str _ _, _, hrun | .bool _ _, _, hrun
  | .raw _ _, _, hrun => by
    cases hrun
    exact ⟨_, rfl, .refl _⟩

theorem exprs_matches (h : σ.Matches σ') : ∀ (es : List Expr) {rs : List Expr},
    exprs env σ tr es = .ok rs → ∃ rs', exprs env σ' tr' es = .ok rs' ∧ ExprsMatch rs rs'
  | [], _, hrun => by
    cases hrun
    exact ⟨_, rfl, .nil⟩
  | e :: es, _, hrun => by
    simp only [exprs] at hrun ⊢
    obtain ⟨r, hr, hrun⟩ := Except.bind_eq_ok.mp hrun
    obtain ⟨rs, hrs, hrun⟩ := Except.bind_eq_ok.mp hrun
    cases hrun
    obtain ⟨r', hr', hm⟩ := expr_matches h e hr
    obtain ⟨rs', hrs', hms⟩ := exprs_matches h es hrs
    exact ⟨_, by rw [hr', hrs']; rfl, .cons hm hms⟩

end

theorem target_matches (h : σ.Matches σ') {v r : VarRef} (hrun : target env σ tr v = .ok r) :
    ∃ r', target env σ' tr' v = .ok r' ∧ r.Matches r' := by
  have hfind := h.find? v.ident.name
  unfold target at hrun ⊢
  generalize σ.find? v.ident.name = o, σ'.find? v.ident.name = o' at hfind hrun
  cases hfind with
  | none =>
    obtain ⟨es, hes, hrun⟩ := Except.bind_eq_ok.mp hrun
    cases hrun
    obtain ⟨es', hes', hm⟩ := exprs_matches h v.subscripts hes
    exact ⟨{ v with subscripts := es' }, by rw [hes']; rfl, .refl _, hm⟩
  | some hvalue =>
    cases hvalue with
    | var hi hown =>
      obtain ⟨es, hes, hrun⟩ := Except.bind_eq_ok.mp hrun
      cases hrun
      obtain ⟨es', hes', hm⟩ := exprs_matches h v.subscripts hes
      exact ⟨⟨_, es' ++ _, v.span⟩, by rw [hes']; rfl, mergeIdent_matches _ hi, hm.append hown⟩
    | _ => cases hrun

theorem call_matches (h : σ.Matches σ') {c r : Call} (hrun : call env σ tr c = .ok r) :
    ∃ r', call env σ' tr' c = .ok r' ∧ r.Matches r' := by
  unfold call at hrun ⊢
  obtain ⟨n, hn, hrun⟩ := Except.bind_eq_ok.mp hrun
  obtain ⟨as, has, hrun⟩ := Except.bind_eq_ok.mp hrun
  cases hrun
  obtain ⟨n', hn', hmn⟩ := functionName_matches h hn
  obtain ⟨as', has', hma⟩ := exprs_matches h c.args has
  exact ⟨{ c with name := n', args := as' }, by rw [hn', has']; rfl, hmn, hma, rfl, rfl⟩

end Substitution

/-! ### Leaves -/

section Leaves

variable {ε : Type} {f f' : LeafMap ε}

/-- **Two changes of leaves tally**: where the first gives a leaf, the second gives one that is the
same apart from places. -/
structure LeafMap.Tally (f f' : LeafMap ε) : Prop where
  expr : ∀ {scope scope' e r}, f.expr scope e = .ok r →
    ∃ r', f'.expr scope' e = .ok r' ∧ r.Matches r'
  target : ∀ {scope scope' v r}, f.target scope v = .ok r →
    ∃ r', f'.target scope' v = .ok r' ∧ r.Matches r'
  call : ∀ {scope scope' c r}, f.call scope c = .ok r →
    ∃ r', f'.call scope' c = .ok r' ∧ r.Matches r'

namespace LeafMap.Tally

variable {scope scope' : Scope}

theorem exprs (h : f.Tally f') : ∀ {es rs : List Expr}, es.mapM (f.expr scope) = .ok rs →
    ∃ rs', es.mapM (f'.expr scope') = .ok rs' ∧ ExprsMatch rs rs'
  | [], _, hrun => by
    cases hrun
    exact ⟨[], rfl, .nil⟩
  | e :: es, _, hrun => by
    rw [List.mapM_cons] at hrun ⊢
    obtain ⟨r, hr, hrun⟩ := Except.bind_eq_ok.mp hrun
    obtain ⟨rs, hrs, hrun⟩ := Except.bind_eq_ok.mp hrun
    cases hrun
    obtain ⟨r', hr', hm⟩ := h.expr hr
    obtain ⟨rs', hrs', hms⟩ := h.exprs hrs
    exact ⟨r' :: rs', by rw [hr', hrs']; rfl, .cons hm hms⟩

theorem option (h : f.Tally f') {o r : Option Expr} (hrun : o.mapM (f.expr scope) = .ok r) :
    ∃ r', o.mapM (f'.expr scope') = .ok r' ∧ Option.Rel Expr.Matches r r' := by
  cases o with
  | none =>
    cases hrun
    exact ⟨none, rfl, .none⟩
  | some e =>
    rw [Option.mapM_some] at hrun ⊢
    obtain ⟨r, hr, hrun⟩ := Except.bind_eq_ok.mp hrun
    cases hrun
    obtain ⟨r', hr', hm⟩ := h.expr hr
    exact ⟨some r', by rw [hr']; rfl, .some hm⟩

theorem initializer (h : f.Tally f') {i r : Initializer} (hrun : f.initializer scope i = .ok r) :
    ∃ r', f'.initializer scope' i = .ok r' ∧ r.Matches r' := by
  cases i with
  | single e =>
    obtain ⟨r, hr, hrun⟩ := Except.bind_eq_ok.mp hrun
    cases hrun
    obtain ⟨r', hr', hm⟩ := h.expr hr
    exact ⟨.single r', by rw [LeafMap.initializer, hr']; rfl, .single hm⟩
  | list es =>
    obtain ⟨rs, hrs, hrun⟩ := Except.bind_eq_ok.mp hrun
    cases hrun
    obtain ⟨rs', hrs', hm⟩ := h.exprs hrs
    exact ⟨.list rs', by rw [LeafMap.initializer, hrs']; rfl, .list hm⟩

theorem declaration (h : f.Tally f') {d r : Declaration} (hrun : f.declaration scope d = .ok r) :
    ∃ r', f'.declaration scope' d = .ok r' ∧ r.Matches r' := by
  obtain ⟨size, hsize, hrun⟩ := Except.bind_eq_ok.mp hrun
  obtain ⟨params, hparams, hrun⟩ := Except.bind_eq_ok.mp hrun
  obtain ⟨init, hinit, hrun⟩ := Except.bind_eq_ok.mp hrun
  cases hrun
  obtain ⟨size', hsize', hmsize⟩ := h.option hsize
  obtain ⟨params', hparams', hmparams⟩ := h.exprs hparams
  have hvalues : ∃ init', d.init.mapM (f'.initializer scope') = .ok init' ∧
      Option.Rel Initializer.Matches init init' := by
    cases hd : d.init with
    | none =>
      rw [hd] at hinit
      cases hinit
      exact ⟨none, rfl, .none⟩
    | some i =>
      rw [hd, Option.mapM_some] at hinit
      obtain ⟨r, hr, hinit⟩ := Except.bind_eq_ok.mp hinit
      cases hinit
      obtain ⟨r', hr', hm⟩ := h.initializer hr
      exact ⟨some r', by rw [Option.mapM_some, hr']; rfl, .some hm⟩
  obtain ⟨init', hinit', hminit⟩ := hvalues
  refine ⟨{ d with size := size', params := params', init := init' }, ?_, rfl, rfl, hmsize,
    hmparams, hminit⟩
  rw [LeafMap.declaration, hsize', hparams', hinit']
  rfl

/-- Traces that differ in any way. -/
abbrev AnyTrace : List Span → List Span → Prop := fun _ _ => True

mutual

theorem stmt (h : f.Tally f') {params : List String} : ∀ {s s' r : Stmt}, s.Retraced AnyTrace s' →
    s.mapLeaves f params = .ok r → ∃ r', s'.mapLeaves f' params = .ok r' ∧ r.Matches r'
  | _, _, _, .property _ hfs, hrun => by
    simp only [Stmt.mapLeaves] at hrun ⊢
    obtain ⟨fs, hfs₁, hrun⟩ := Except.bind_eq_ok.mp hrun
    cases hrun
    obtain ⟨fs', hfs', hm⟩ := functions h hfs hfs₁
    exact ⟨_, by rw [hfs']; rfl, .property hm⟩
  | _, _, _, .synonym _, hrun => by
    simp only [Stmt.mapLeaves] at hrun ⊢
    obtain ⟨t, ht, hrun⟩ := Except.bind_eq_ok.mp hrun
    cases hrun
    obtain ⟨t', ht', hm⟩ := h.target ht
    exact ⟨_, by rw [ht']; rfl, .synonym hm⟩
  | _, _, _, .declare _, hrun => by
    simp only [Stmt.mapLeaves] at hrun ⊢
    obtain ⟨d, hd, hrun⟩ := Except.bind_eq_ok.mp hrun
    cases hrun
    obtain ⟨d', hd', hm⟩ := h.declaration hd
    exact ⟨_, by rw [hd']; rfl, .declare hm⟩
  | _, _, _, .assign _, hrun => by
    simp only [Stmt.mapLeaves] at hrun ⊢
    obtain ⟨t, ht, hrun⟩ := Except.bind_eq_ok.mp hrun
    obtain ⟨v, hv, hrun⟩ := Except.bind_eq_ok.mp hrun
    cases hrun
    obtain ⟨t', ht', hmt⟩ := h.target ht
    obtain ⟨v', hv', hmv⟩ := h.expr hv
    exact ⟨_, by rw [ht', hv']; rfl, .assign hmt hmv⟩
  | _, _, _, .call _, hrun => by
    simp only [Stmt.mapLeaves] at hrun ⊢
    obtain ⟨c, hc, hrun⟩ := Except.bind_eq_ok.mp hrun
    cases hrun
    obtain ⟨c', hc', hm⟩ := h.call hc
    exact ⟨_, by rw [hc']; rfl, .call hm⟩
  | _, _, _, .whileLoop _ hb, hrun => by
    simp only [Stmt.mapLeaves] at hrun ⊢
    obtain ⟨c, hc, hrun⟩ := Except.bind_eq_ok.mp hrun
    obtain ⟨b, hb₁, hrun⟩ := Except.bind_eq_ok.mp hrun
    cases hrun
    obtain ⟨c', hc', hmc⟩ := h.expr hc
    obtain ⟨b', hb', hmb⟩ := stmts h hb hb₁
    exact ⟨_, by rw [hc', hb']; rfl, .whileLoop hmc hmb⟩
  | _, _, _, .forLoop _ hb, hrun => by
    simp only [Stmt.mapLeaves] at hrun ⊢
    obtain ⟨v, hv, hrun⟩ := Except.bind_eq_ok.mp hrun
    obtain ⟨a, ha, hrun⟩ := Except.bind_eq_ok.mp hrun
    obtain ⟨z, hz, hrun⟩ := Except.bind_eq_ok.mp hrun
    obtain ⟨o, ho, hrun⟩ := Except.bind_eq_ok.mp hrun
    obtain ⟨b, hb₁, hrun⟩ := Except.bind_eq_ok.mp hrun
    cases hrun
    obtain ⟨v', hv', hmv⟩ := h.target hv
    obtain ⟨a', ha', hma⟩ := h.expr ha
    obtain ⟨z', hz', hmz⟩ := h.expr hz
    obtain ⟨o', ho', hmo⟩ := h.option ho
    obtain ⟨b', hb', hmb⟩ := stmts h hb hb₁
    exact ⟨_, by rw [hv', ha', hz', ho', hb']; rfl, .forLoop hmv hma hmz hmo hmb⟩
  | _, _, _, .family _ hb, hrun => by
    simp only [Stmt.mapLeaves] at hrun ⊢
    obtain ⟨b, hb₁, hrun⟩ := Except.bind_eq_ok.mp hrun
    cases hrun
    obtain ⟨b', hb', hmb⟩ := stmts h hb hb₁
    exact ⟨_, by rw [hb']; rfl, .family hmb⟩
  | _, _, _, .ifChain _ hbs ho, hrun => by
    simp only [Stmt.mapLeaves] at hrun ⊢
    obtain ⟨bs, hbs₁, hrun⟩ := Except.bind_eq_ok.mp hrun
    obtain ⟨o, ho₁, hrun⟩ := Except.bind_eq_ok.mp hrun
    cases hrun
    obtain ⟨bs', hbs', hmbs⟩ := branches h hbs hbs₁
    obtain ⟨o', ho', hmo⟩ := stmts h ho ho₁
    exact ⟨_, by rw [hbs', ho']; rfl, .ifChain hmbs hmo⟩
  | _, _, _, .select _ hcs, hrun => by
    simp only [Stmt.mapLeaves] at hrun ⊢
    obtain ⟨e, he, hrun⟩ := Except.bind_eq_ok.mp hrun
    obtain ⟨cs, hcs₁, hrun⟩ := Except.bind_eq_ok.mp hrun
    cases hrun
    obtain ⟨e', he', hme⟩ := h.expr he
    obtain ⟨cs', hcs', hmcs⟩ := cases h hcs hcs₁
    exact ⟨_, by rw [he', hcs']; rfl, .select hme hmcs⟩

/-- **Statements whose leaves change in ways that tally.** -/
theorem stmts (h : f.Tally f') {params : List String} : ∀ {ss ss' rs : List Stmt},
    StmtsRetraced AnyTrace ss ss' → mapLeavesStmts f params ss = .ok rs →
      ∃ rs', mapLeavesStmts f' params ss' = .ok rs' ∧ StmtsMatch rs rs'
  | _, _, _, .nil, hrun => by
    cases hrun
    exact ⟨_, rfl, .nil⟩
  | _, _, _, .cons hs hss, hrun => by
    simp only [mapLeavesStmts] at hrun ⊢
    obtain ⟨r, hr, hrun⟩ := Except.bind_eq_ok.mp hrun
    obtain ⟨rs, hrs, hrun⟩ := Except.bind_eq_ok.mp hrun
    cases hrun
    obtain ⟨r', hr', hm⟩ := stmt h hs hr
    obtain ⟨rs', hrs', hms⟩ := stmts h hss hrs
    exact ⟨_, by rw [hr', hrs']; rfl, .cons hm hms⟩

theorem branches (h : f.Tally f') {params : List String} {tr tr' : List Span} :
    ∀ {bs bs' rs : List Branch}, BranchesRetraced AnyTrace bs bs' →
      mapLeavesBranches f ⟨params, tr⟩ bs = .ok rs →
      ∃ rs', mapLeavesBranches f' ⟨params, tr'⟩ bs' = .ok rs' ∧ BranchesMatch rs rs'
  | _, _, _, .nil, hrun => by
    cases hrun
    exact ⟨_, rfl, .nil⟩
  | _, _, _, .cons hb hbs, hrun => by
    simp only [mapLeavesBranches] at hrun ⊢
    obtain ⟨c, hc, hrun⟩ := Except.bind_eq_ok.mp hrun
    obtain ⟨b, hb₁, hrun⟩ := Except.bind_eq_ok.mp hrun
    obtain ⟨rs, hrs, hrun⟩ := Except.bind_eq_ok.mp hrun
    cases hrun
    obtain ⟨c', hc', hmc⟩ := h.expr hc
    obtain ⟨b', hb', hmb⟩ := stmts h hb hb₁
    obtain ⟨rs', hrs', hms⟩ := branches h hbs hrs
    exact ⟨_, by rw [hc', hb', hrs']; rfl, .cons hmc hmb hms⟩

theorem cases (h : f.Tally f') {params : List String} {tr tr' : List Span} :
    ∀ {cs cs' rs : List Case}, CasesRetraced AnyTrace cs cs' →
      mapLeavesCases f ⟨params, tr⟩ cs = .ok rs →
      ∃ rs', mapLeavesCases f' ⟨params, tr'⟩ cs' = .ok rs' ∧ CasesMatch rs rs'
  | _, _, _, .nil, hrun => by
    cases hrun
    exact ⟨_, rfl, .nil⟩
  | _, _, _, .cons hb hcs, hrun => by
    simp only [mapLeavesCases] at hrun ⊢
    obtain ⟨a, ha, hrun⟩ := Except.bind_eq_ok.mp hrun
    obtain ⟨o, ho, hrun⟩ := Except.bind_eq_ok.mp hrun
    obtain ⟨b, hb₁, hrun⟩ := Except.bind_eq_ok.mp hrun
    obtain ⟨rs, hrs, hrun⟩ := Except.bind_eq_ok.mp hrun
    cases hrun
    obtain ⟨a', ha', hma⟩ := h.expr ha
    obtain ⟨o', ho', hmo⟩ := h.option ho
    obtain ⟨b', hb', hmb⟩ := stmts h hb hb₁
    obtain ⟨rs', hrs', hms⟩ := cases h hcs hrs
    exact ⟨_, by rw [ha', ho', hb', hrs']; rfl, .cons hma hmo hmb hms⟩

theorem functions (h : f.Tally f') : ∀ {fs fs' rs : List FunctionDef},
    FunctionsRetraced AnyTrace fs fs' → mapLeavesFunctions f fs = .ok rs →
      ∃ rs', mapLeavesFunctions f' fs' = .ok rs' ∧ FunctionsMatch rs rs'
  | _, _, _, .nil, hrun => by
    cases hrun
    exact ⟨_, rfl, .nil⟩
  | _, _, _, .cons hb hfs, hrun => by
    simp only [mapLeavesFunctions] at hrun ⊢
    obtain ⟨b, hb₁, hrun⟩ := Except.bind_eq_ok.mp hrun
    obtain ⟨rs, hrs, hrun⟩ := Except.bind_eq_ok.mp hrun
    cases hrun
    obtain ⟨b', hb', hmb⟩ := stmts h hb hb₁
    obtain ⟨rs', hrs', hms⟩ := functions h hfs hrs
    exact ⟨_, by rw [hb', hrs']; rfl, .cons hmb hms⟩

end

end LeafMap.Tally

end Leaves

/-! ### Copies -/

mutual

theorem Stmt.retraced_copiedTo (site site' : Span) : ∀ s : Stmt,
    (s.copiedTo site).Retraced LeafMap.Tally.AnyTrace (s.copiedTo site')
  | ⟨.property _ fs, _, _⟩ => .property trivial (functionsRetraced_copiedTo site site' fs)
  | ⟨.synonym _ _ _, _, _⟩ => .synonym trivial
  | ⟨.declare _, _, _⟩ => .declare trivial
  | ⟨.assign _ _, _, _⟩ => .assign trivial
  | ⟨.call _, _, _⟩ => .call trivial
  | ⟨.whileLoop _ body, _, _⟩ => .whileLoop trivial (stmtsRetraced_copiedTo site site' body)
  | ⟨.forLoop _ _ _ _ _ body, _, _⟩ => .forLoop trivial (stmtsRetraced_copiedTo site site' body)
  | ⟨.family _ body, _, _⟩ => .family trivial (stmtsRetraced_copiedTo site site' body)
  | ⟨.ifChain bs otherwise, _, _⟩ => .ifChain trivial (branchesRetraced_copiedTo site site' bs)
    (stmtsRetraced_copiedTo site site' otherwise)
  | ⟨.select _ cs, _, _⟩ => .select trivial (casesRetraced_copiedTo site site' cs)

/-- Statements that are copied to different calls are the same apart from traces. -/
theorem stmtsRetraced_copiedTo (site site' : Span) : ∀ ss : List Stmt,
    StmtsRetraced LeafMap.Tally.AnyTrace (stmtsCopiedTo site ss) (stmtsCopiedTo site' ss)
  | [] => .nil
  | s :: ss => .cons (s.retraced_copiedTo site site') (stmtsRetraced_copiedTo site site' ss)

theorem branchesRetraced_copiedTo (site site' : Span) : ∀ bs : List Branch,
    BranchesRetraced LeafMap.Tally.AnyTrace (branchesCopiedTo site bs) (branchesCopiedTo site' bs)
  | [] => .nil
  | ⟨_, body⟩ :: rest => .cons (stmtsRetraced_copiedTo site site' body)
    (branchesRetraced_copiedTo site site' rest)

theorem casesRetraced_copiedTo (site site' : Span) : ∀ cs : List Case,
    CasesRetraced LeafMap.Tally.AnyTrace (casesCopiedTo site cs) (casesCopiedTo site' cs)
  | [] => .nil
  | ⟨_, _, body⟩ :: rest => .cons (stmtsRetraced_copiedTo site site' body)
    (casesRetraced_copiedTo site site' rest)

theorem functionsRetraced_copiedTo (site site' : Span) : ∀ fs : List FunctionDef,
    FunctionsRetraced LeafMap.Tally.AnyTrace (functionsCopiedTo site fs)
      (functionsCopiedTo site' fs)
  | [] => .nil
  | ⟨_, _, _, body, _, _, _⟩ :: rest => .cons (stmtsRetraced_copiedTo site site' body)
    (functionsRetraced_copiedTo site site' rest)

end

/-- **A body with arguments in the place of parameters**, copied to another call with the same
arguments apart from places. -/
theorem Substitution.stmts_match {env : Env} {σ σ' : Substitution} (h : σ.Matches σ')
    (site site' : Span) {body r : List Stmt}
    (hrun : Substitution.stmts env σ (stmtsCopiedTo site body) = .ok r) :
    ∃ r', Substitution.stmts env σ' (stmtsCopiedTo site' body) = .ok r' ∧ StmtsMatch r r' := by
  have htally : (Substitution.leafMap env σ).Tally (Substitution.leafMap env σ') :=
    ⟨fun hr => Substitution.expr_matches h _ hr, fun hr => Substitution.target_matches h hr,
      fun hr => Substitution.call_matches h hr⟩
  exact htally.stmts (stmtsRetraced_copiedTo site site' body) hrun

end FlatScript
