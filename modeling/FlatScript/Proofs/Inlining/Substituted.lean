import FlatScript.Proofs.Mentions

/-!
# What arguments leave of the code around them

Where arguments are put in the places of parameters, a reference to a parameter is more than its
name: it may have a field and subscripts, and code may stand in these. When the argument is a
reference, they are kept. When it is none, it can only be read, and then it takes the place of the
whole reference, with the field and the subscripts; and a target or the name of a function in such a
place is an error.

* `FlatScript.Leaf.Substituted` says what becomes of a leaf, and `FlatScript.Leaf.Fault` what can be
  wrong with it.
* `FlatScript.LeafMap.ends_stmts` goes from leaves to statements, for any change of leaves.
* `FlatScript.substitution_ends` is the statement, for any statements and any arguments.
-/

namespace FlatScript

/-! ### Leaves by their kind -/

/-- **A leaf of a statement**, by what it is. -/
inductive Leaf where
  /-- An expression that is read. -/
  | expr (e : Expr)
  /-- The target of an assignment, the variable of a loop, or what a property stands for. -/
  | target (v : VarRef)
  /-- A call that is a statement. -/
  | call (c : Call)

/-- The expression that a leaf would be. -/
def Leaf.toExpr : Leaf → Expr
  | .expr e => e
  | .target v => v.toExpr
  | .call c => c.toExpr

mutual

/-- The leaves of a statement, by their kind. -/
def Stmt.parts : Stmt → List Leaf
  | ⟨.property _ functions, _, _⟩ => functionsParts functions
  | ⟨.synonym _ _ target, _, _⟩ => [.target target]
  | ⟨.declare d, _, _⟩ => d.leaves.map .expr
  | ⟨.assign target value, _, _⟩ => [.target target, .expr value]
  | ⟨.call c, _, _⟩ => [.call c]
  | ⟨.whileLoop cond body, _, _⟩ => .expr cond :: stmtsParts body
  | ⟨.forLoop var start stop step _ body, _, _⟩ =>
    .target var :: .expr start :: .expr stop :: (step.toList.map .expr ++ stmtsParts body)
  | ⟨.family _ body, _, _⟩ => stmtsParts body
  | ⟨.ifChain branches otherwise, _, _⟩ => branchesParts branches ++ stmtsParts otherwise
  | ⟨.select subject cases, _, _⟩ => .expr subject :: casesParts cases

/-- **The leaves of statements**, by their kind, in the order in which they are written. -/
def stmtsParts : List Stmt → List Leaf
  | [] => []
  | s :: ss => s.parts ++ stmtsParts ss

/-- The leaves of branches, by their kind. -/
def branchesParts : List Branch → List Leaf
  | [] => []
  | ⟨cond, body⟩ :: rest => .expr cond :: (stmtsParts body ++ branchesParts rest)

/-- The leaves of cases, by their kind. -/
def casesParts : List Case → List Leaf
  | [] => []
  | ⟨start, stop, body⟩ :: rest =>
    .expr start :: (stop.toList.map .expr ++ (stmtsParts body ++ casesParts rest))

/-- The leaves of functions, by their kind. -/
def functionsParts : List FunctionDef → List Leaf
  | [] => []
  | ⟨_, _, _, body, _, _, _⟩ :: rest => stmtsParts body ++ functionsParts rest

end

/-! ### How steps end -/

/-- **How a step ends**: with a result of one kind or with an error of one kind. -/
def EndsIn {ε α : Type} (Q : α → Prop) (E : ε → Prop) : Except ε α → Prop
  | .ok a => Q a
  | .error e => E e

namespace EndsIn

variable {ε α β : Type} {P : α → Prop} {Q : β → Prop} {E E' : ε → Prop} {m : Except ε α}

theorem bind {k : α → Except ε β} (hm : EndsIn P E m) (hk : ∀ a, P a → EndsIn Q E (k a)) :
    EndsIn Q E (m >>= k) := by
  cases m with
  | error e => exact hm
  | ok a => exact hk a hm

theorem imp {P' : α → Prop} (hm : EndsIn P E m) (hP : ∀ a, P a → P' a) (hE : ∀ e, E e → E' e) :
    EndsIn P' E' m := by
  cases m with
  | error e => exact hE e hm
  | ok a => exact hP a hm

/-- Only the errors are told apart further. -/
theorem imp_error (hm : EndsIn P E m) (hE : ∀ e, E e → E' e) : EndsIn P E' m :=
  hm.imp (fun _ h => h) hE

end EndsIn

namespace LeafMap

variable {ε α β : Type} {f : LeafMap ε} {R : Leaf → Leaf → Prop} {F : Leaf → ε → Prop}
  {xs ys : List Leaf}

/-- A step treats leaves: each of them becomes one that is related to it, or one has a fault. -/
def Treats (R : Leaf → Leaf → Prop) (F : Leaf → ε → Prop) (xs : List Leaf) (out : α → List Leaf)
    (m : Except ε α) : Prop :=
  EndsIn (fun a => List.Forall₂ R xs (out a)) (fun e => ∃ x ∈ xs, F x e) m

namespace Treats

variable {out : α → List Leaf} {Q : β → Prop} {m : Except ε α}

/-- One step after the other: the leaves of the first one come first. -/
theorem bind {k : α → Except ε β} (hm : Treats R F xs out m)
    (hk : ∀ a, List.Forall₂ R xs (out a) → EndsIn Q (fun e => ∃ x ∈ ys, F x e) (k a)) :
    EndsIn Q (fun e => ∃ x ∈ xs ++ ys, F x e) (m >>= k) := by
  refine EndsIn.bind (EndsIn.imp_error hm ?_) fun a ha => (hk a ha).imp_error ?_
  · rintro e ⟨x, hx, hfault⟩
    exact ⟨x, List.mem_append_left _ hx, hfault⟩
  · rintro e ⟨x, hx, hfault⟩
    exact ⟨x, List.mem_append_right _ hx, hfault⟩

/-- The last step. -/
theorem map {g : α → β} (hm : Treats R F xs out m)
    (hg : ∀ a, List.Forall₂ R xs (out a) → Q (g a)) :
    EndsIn Q (fun e => ∃ x ∈ xs, F x e) (m >>= fun a => pure (g a)) :=
  EndsIn.bind hm hg

/-- A step on one leaf. -/
theorem single {x : Leaf} {out : α → Leaf} (h : EndsIn (fun a => R x (out a)) (F x) m) :
    Treats R F [x] (fun a => [out a]) m :=
  h.imp (fun _ ha => .cons ha .nil) fun _ he => ⟨x, List.mem_singleton_self x, he⟩

end Treats

/-- **How a change of leaves ends**, leaf by leaf. -/
structure EndsWith (f : LeafMap ε) (R : Leaf → Leaf → Prop) (F : Leaf → ε → Prop) : Prop where
  expr : ∀ scope e, EndsIn (fun e' => R (.expr e) (.expr e')) (F (.expr e)) (f.expr scope e)
  target : ∀ scope v, EndsIn (fun v' => R (.target v) (.target v')) (F (.target v)) (f.target scope v)
  call : ∀ scope c, EndsIn (fun c' => R (.call c) (.call c')) (F (.call c)) (f.call scope c)

namespace EndsWith

section

variable (hf : f.EndsWith R F)
include hf

theorem ends_expr (scope : Scope) (e : Expr) :
    Treats R F [.expr e] (fun e' => [.expr e']) (f.expr scope e) :=
  .single (hf.expr scope e)

theorem ends_target (scope : Scope) (v : VarRef) :
    Treats R F [.target v] (fun v' => [.target v']) (f.target scope v) :=
  .single (hf.target scope v)

theorem ends_call (scope : Scope) (c : Call) :
    Treats R F [.call c] (fun c' => [.call c']) (f.call scope c) :=
  .single (hf.call scope c)

theorem ends_exprs (scope : Scope) (es : List Expr) :
    Treats R F (es.map .expr) (fun es' => es'.map .expr) (es.mapM (f.expr scope)) := by
  induction es with
  | nil => exact .nil
  | cons e es ih =>
    rw [List.mapM_cons]
    exact (hf.ends_expr scope e).bind fun e' he => ih.map fun es' hes => List.rel_append he hes

theorem ends_option (scope : Scope) (o : Option Expr) :
    Treats R F (o.toList.map .expr) (fun o' => o'.toList.map .expr) (o.mapM (f.expr scope)) := by
  cases o with
  | none => exact .nil
  | some e =>
    rw [Option.mapM_some, map_eq_pure_bind]
    exact (hf.ends_expr scope e).map fun e' he => he

theorem ends_initializer (scope : Scope) (i : Initializer) :
    Treats R F (i.leaves.map .expr) (fun i' => i'.leaves.map .expr) (f.initializer scope i) := by
  cases i with
  | single e => exact (hf.ends_expr scope e).map fun e' he => he
  | list es => exact (hf.ends_exprs scope es).map fun es' hes => hes

theorem ends_values (scope : Scope) (o : Option Initializer) :
    Treats R F (((o.map Initializer.leaves).getD []).map .expr)
      (fun o' => ((o'.map Initializer.leaves).getD []).map .expr)
      (o.mapM (f.initializer scope)) := by
  cases o with
  | none => exact .nil
  | some i =>
    rw [Option.mapM_some, map_eq_pure_bind]
    exact (hf.ends_initializer scope i).map fun i' hi => hi

theorem ends_declaration (scope : Scope) (d : Declaration) :
    Treats R F (d.leaves.map .expr) (fun d' => d'.leaves.map .expr) (f.declaration scope d) := by
  simp only [Declaration.leaves, List.map_append, List.append_assoc]
  refine (hf.ends_option scope d.size).bind fun size hsize => ?_
  refine (hf.ends_exprs scope d.params).bind fun params hparams => ?_
  exact (hf.ends_values scope d.init).map fun init hinit =>
    List.rel_append hsize (List.rel_append hparams hinit)

end

mutual

theorem ends_stmt (hf : f.EndsWith R F) (params : List String) : ∀ s : Stmt,
    Treats R F s.parts Stmt.parts (s.mapLeaves f params)
  | ⟨.property name fs, span, trace⟩ => by
    simp only [Stmt.mapLeaves]
    exact (ends_functions hf fs).map fun fs' hfs => hfs
  | ⟨.synonym name indices target, span, trace⟩ => by
    simp only [Stmt.mapLeaves]
    exact (hf.ends_target _ target).map fun target' ht => ht
  | ⟨.declare d, span, trace⟩ => by
    simp only [Stmt.mapLeaves]
    exact (hf.ends_declaration _ d).map fun d' hd => hd
  | ⟨.assign target value, span, trace⟩ => by
    simp only [Stmt.mapLeaves]
    exact (hf.ends_target _ target).bind fun _ ht => (hf.ends_expr _ value).map fun _ hv =>
      List.rel_append ht hv
  | ⟨.call c, span, trace⟩ => by
    simp only [Stmt.mapLeaves]
    exact (hf.ends_call _ c).map fun c' hc => hc
  | ⟨.whileLoop cond body, span, trace⟩ => by
    simp only [Stmt.mapLeaves]
    exact (hf.ends_expr _ cond).bind fun _ hc => (ends_stmts hf params body).map fun _ hb =>
      List.rel_append hc hb
  | ⟨.forLoop var start stop step downto body, span, trace⟩ => by
    simp only [Stmt.mapLeaves]
    refine (hf.ends_target _ var).bind fun _ hvar => ?_
    refine (hf.ends_expr _ start).bind fun _ hstart => ?_
    refine (hf.ends_expr _ stop).bind fun _ hstop => ?_
    refine (hf.ends_option _ step).bind fun _ hstep => ?_
    exact (ends_stmts hf params body).map fun _ hbody =>
      List.rel_append hvar (List.rel_append hstart (List.rel_append hstop
        (List.rel_append hstep hbody)))
  | ⟨.family name body, span, trace⟩ => by
    simp only [Stmt.mapLeaves]
    exact (ends_stmts hf params body).map fun _ hb => hb
  | ⟨.ifChain bs otherwise, span, trace⟩ => by
    simp only [Stmt.mapLeaves]
    exact (ends_branches hf _ bs).bind fun _ hbs => (ends_stmts hf params otherwise).map fun _ ho =>
      List.rel_append hbs ho
  | ⟨.select subject cs, span, trace⟩ => by
    simp only [Stmt.mapLeaves]
    exact (hf.ends_expr _ subject).bind fun _ hs => (ends_cases hf _ cs).map fun _ hcs =>
      List.rel_append hs hcs
termination_by structural s => s

/-- **Statements end as their leaves do.** -/
theorem ends_stmts (hf : f.EndsWith R F) (params : List String) : ∀ ss : List Stmt,
    Treats R F (stmtsParts ss) stmtsParts (mapLeavesStmts f params ss)
  | [] => .nil
  | s :: ss => by
    simp only [mapLeavesStmts]
    exact (ends_stmt hf params s).bind fun _ hs => (ends_stmts hf params ss).map fun _ hss =>
      List.rel_append hs hss
termination_by structural ss => ss

theorem ends_branches (hf : f.EndsWith R F) (scope : Scope) : ∀ bs : List Branch,
    Treats R F (branchesParts bs) branchesParts (mapLeavesBranches f scope bs)
  | [] => .nil
  | ⟨cond, body⟩ :: rest => by
    simp only [mapLeavesBranches]
    refine (hf.ends_expr _ cond).bind fun _ hc => ?_
    refine (ends_stmts hf _ body).bind fun _ hb => ?_
    exact (ends_branches hf scope rest).map fun _ hrest =>
      List.rel_append hc (List.rel_append hb hrest)
termination_by structural bs => bs

theorem ends_cases (hf : f.EndsWith R F) (scope : Scope) : ∀ cs : List Case,
    Treats R F (casesParts cs) casesParts (mapLeavesCases f scope cs)
  | [] => .nil
  | ⟨start, stop, body⟩ :: rest => by
    simp only [mapLeavesCases]
    refine (hf.ends_expr _ start).bind fun _ hstart => ?_
    refine (hf.ends_option _ stop).bind fun _ hstop => ?_
    refine (ends_stmts hf _ body).bind fun _ hb => ?_
    exact (ends_cases hf scope rest).map fun _ hrest =>
      List.rel_append hstart (List.rel_append hstop (List.rel_append hb hrest))
termination_by structural cs => cs

theorem ends_functions (hf : f.EndsWith R F) : ∀ fs : List FunctionDef,
    Treats R F (functionsParts fs) functionsParts (mapLeavesFunctions f fs)
  | [] => .nil
  | ⟨name, params, result, body, isTaskfunc, isOverride, span⟩ :: rest => by
    simp only [mapLeavesFunctions]
    refine (ends_stmts hf _ body).bind fun _ hb => ?_
    exact (ends_functions hf rest).map fun _ hrest => List.rel_append hb hrest
termination_by structural fs => fs

end

end EndsWith

end LeafMap

/-! ### What references become -/

namespace Substitution

/-- The argument for a name is no reference. -/
def IsValue (σ : Substitution) (name : String) : Prop :=
  ∃ value, σ.find? name = some value ∧ value.asVar? = none

/-- **What the name of a reference becomes**, and the subscripts that it gets behind its own. The
dotted tail is kept. -/
inductive Refers (σ : Substitution) (i : Ident) : Ident → List Expr → Prop
  | free (h : σ.find? i.name = none) : Refers σ i i []
  | argument {rep : Ident} {own : List Expr} {span : Span}
    (h : σ.find? i.name = some (.var rep own span)) :
    Refers σ i ⟨rep.sigil <|> i.sigil, rep.name ++ Name.lastPart i.name, i.span, true⟩ own

/-- **What the name of a function becomes**: a name without a sigil, with the dotted tail. -/
inductive Names (σ : Substitution) (i : Ident) : Ident → Prop
  | free (h : σ.find? i.name = none) : Names σ i i
  | argument {rep : Ident} {own : List Expr} {span : Span}
    (h : σ.find? i.name = some (.var rep own span)) :
    Names σ i ⟨none, rep.name ++ Name.lastPart i.name, i.span, true⟩

end Substitution

mutual

/-- **What an expression becomes.** A reference keeps its subscripts, with arguments in them, unless
the argument for its name is no reference: then the argument is all there is. -/
inductive Expr.Substituted (σ : Substitution) : Expr → Expr → Prop
  | reference {i i' : Ident} {es es' own : List Expr} {span : Span} (hname : σ.Refers i i' own)
    (hes : ExprsSubstituted σ es es') :
    Expr.Substituted σ (.var i es span) (.var i' (es' ++ own) span)
  | value {i : Ident} {es : List Expr} {span : Span} {value : Expr}
    (hfind : σ.find? i.name = some value) (hvalue : value.asVar? = none) :
    Expr.Substituted σ (.var i es span) value
  | call {name name' : Ident} {args args' : List Expr} {isProcedure usingCall : Bool} {span : Span}
    (hname : σ.Names name name') (hargs : ExprsSubstituted σ args args') :
    Expr.Substituted σ (.call name args isProcedure usingCall span)
      (.call name' args' isProcedure usingCall span)
  | binary {op : BinaryOp} {left right left' right' : Expr} {span : Span}
    (hleft : Expr.Substituted σ left left') (hright : Expr.Substituted σ right right') :
    Expr.Substituted σ (.binary op left right span) (.binary op left' right' span)
  | unary {op : UnaryOp} {operand operand' : Expr} {span : Span}
    (hoperand : Expr.Substituted σ operand operand') :
    Expr.Substituted σ (.unary op operand span) (.unary op operand' span)
  | literal {e : Expr} (h : e.isLiteral = true) : Expr.Substituted σ e e

/-- What expressions become. -/
inductive ExprsSubstituted (σ : Substitution) : List Expr → List Expr → Prop
  | nil : ExprsSubstituted σ [] []
  | cons {e e' : Expr} {es es' : List Expr} (he : Expr.Substituted σ e e')
    (hes : ExprsSubstituted σ es es') : ExprsSubstituted σ (e :: es) (e' :: es')

end

/-- **What a leaf becomes.** A target stays a reference, with its subscripts. -/
inductive Leaf.Substituted (σ : Substitution) : Leaf → Leaf → Prop
  | expr {e e' : Expr} (he : Expr.Substituted σ e e') : Leaf.Substituted σ (.expr e) (.expr e')
  | target {i i' : Ident} {es es' own : List Expr} {span : Span} (hname : σ.Refers i i' own)
    (hes : ExprsSubstituted σ es es') :
    Leaf.Substituted σ (.target ⟨i, es, span⟩) (.target ⟨i', es' ++ own, span⟩)
  | call {name name' : Ident} {args args' : List Expr} {isProcedure usingCall : Bool} {span : Span}
    (hname : σ.Names name name') (hargs : ExprsSubstituted σ args args') :
    Leaf.Substituted σ (.call ⟨name, args, isProcedure, usingCall, span⟩)
      (.call ⟨name', args', isProcedure, usingCall, span⟩)

/-- **What can be wrong with a leaf**: an argument that is no reference, for a target or for the name
of a function. -/
inductive Leaf.Fault (env : Env) (σ : Substitution) : Leaf → CompileError → Prop
  | target {v : VarRef} {trace : List Span} (h : σ.IsValue v.ident.name) :
    Leaf.Fault env σ (.target v) (env.errorAt .assignTargetNotVariable v.span trace)
  | call {x : Leaf} {c : Call} {trace : List Span} (hc : c ∈ x.toExpr.calls)
    (h : σ.IsValue c.name.name) :
    Leaf.Fault env σ x
      (env.errorAt (.functionNameExpected (Name.firstPart c.name.name)) c.span trace)

namespace Substitution

variable {env : Env} {σ : Substitution} {trace : List Span}

/-- What an argument is that is no reference. -/
theorem isValue_of_ne {name : String} {value : Expr} (hfind : σ.find? name = some value)
    (hne : ∀ rep own span, value ≠ .var rep own span) : σ.IsValue name := by
  refine ⟨value, hfind, ?_⟩
  cases value with
  | var rep own span => exact (hne rep own span rfl).elim
  | _ => rfl

/-- An error is about one of some calls, whose function is named by what is no reference. -/
def Misnamed (env : Env) (σ : Substitution) (trace : List Span) (cs : List Call)
    (e : CompileError) : Prop :=
  ∃ c ∈ cs, σ.IsValue c.name.name ∧
    e = env.errorAt (.functionNameExpected (Name.firstPart c.name.name)) c.span trace

theorem Misnamed.mono {cs cs' : List Call} (hcs : cs ⊆ cs') (e : CompileError)
    (h : σ.Misnamed env trace cs e) : σ.Misnamed env trace cs' e := by
  obtain ⟨c, hc, h⟩ := h
  exact ⟨c, hcs hc, h⟩

theorem Misnamed.fault {x : Leaf} (e : CompileError) (h : σ.Misnamed env trace x.toExpr.calls e) :
    x.Fault env σ e := by
  obtain ⟨c, hc, hvalue, rfl⟩ := h
  exact .call hc hvalue

theorem functionName_ends (c : Call) :
    EndsIn (fun name => σ.Names c.name name)
      (fun e => σ.IsValue c.name.name ∧
        e = env.errorAt (.functionNameExpected (Name.firstPart c.name.name)) c.span trace)
      (functionName env σ trace c.name c.span) := by
  unfold functionName
  split
  · next hfind => exact .free hfind
  · next hfind => exact .argument hfind
  · next hne hfind => exact ⟨isValue_of_ne hfind hne, rfl⟩

mutual

/-- **How an expression ends.** -/
theorem expr_ends : ∀ e : Expr,
    EndsIn (Expr.Substituted σ e) (Misnamed env σ trace e.calls) (expr env σ trace e)
  | .binary op left right span => by
    simp only [expr, Expr.calls_binary]
    refine ((expr_ends left).imp_error (Misnamed.mono (List.subset_append_left _ _))).bind
      fun left' hleft => ?_
    exact ((expr_ends right).imp_error (Misnamed.mono (List.subset_append_right _ _))).bind
      fun right' hright => .binary hleft hright
  | .unary op operand span => by
    simp only [expr, Expr.calls_unary]
    exact (expr_ends operand).bind fun operand' hoperand => .unary hoperand
  | .var i es span => by
    simp only [expr, Expr.calls_var]
    split
    · next hfind =>
      refine (exprs_ends es).bind fun es' hes => ?_
      show Expr.Substituted σ _ _
      simpa using Expr.Substituted.reference (.free hfind) hes
    · next rep own _ hfind =>
      exact (exprs_ends es).bind fun es' hes => .reference (.argument hfind) hes
    · next value hne hfind =>
      obtain ⟨_, hvalue, hnone⟩ := isValue_of_ne hfind hne
      cases hfind.symm.trans hvalue
      exact .value hfind hnone
  | .call name args isProcedure usingCall span => by
    simp only [expr, Expr.calls_call]
    refine ((functionName_ends ⟨name, args, isProcedure, usingCall, span⟩).imp_error fun e he =>
      ⟨_, List.mem_cons_self, he⟩).bind fun name' hname => ?_
    exact ((exprs_ends args).imp_error (Misnamed.mono (List.subset_cons_self _ _))).bind
      fun args' hargs => .call hname hargs
  | .int _ _ | .real _ _ | .str _ _ | .bool _ _ | .raw _ _ => .literal rfl
termination_by structural e => e

/-- How expressions end. -/
theorem exprs_ends : ∀ es : List Expr,
    EndsIn (ExprsSubstituted σ es) (Misnamed env σ trace (exprsCalls es)) (exprs env σ trace es)
  | [] => .nil
  | e :: es => by
    simp only [exprs, exprsCalls_cons]
    refine ((expr_ends e).imp_error (Misnamed.mono (List.subset_append_left _ _))).bind
      fun e' he => ?_
    exact ((exprs_ends es).imp_error (Misnamed.mono (List.subset_append_right _ _))).bind
      fun es' hes => .cons he hes
termination_by structural es => es

end

/-- **How a leaf ends.** -/
theorem leafMap_endsWith :
    (leafMap env σ).EndsWith (Leaf.Substituted σ) (Leaf.Fault env σ) where
  expr scope e := (expr_ends e).imp (fun _ => .expr) (Misnamed.fault (x := .expr e))
  target scope v := by
    obtain ⟨i, es, span⟩ := v
    have hes : EndsIn (ExprsSubstituted σ es) (Leaf.Fault env σ (.target ⟨i, es, span⟩))
        (exprs env σ scope.trace es) :=
      (exprs_ends es).imp_error fun e he => Misnamed.fault (x := .target ⟨i, es, span⟩) e
        (by rwa [Leaf.toExpr, VarRef.toExpr, Expr.calls_var])
    simp only [leafMap, target]
    split
    · next hfind =>
      refine hes.bind fun es' hes => ?_
      show Leaf.Substituted σ _ (.target _)
      simpa using Leaf.Substituted.target (.free hfind) hes
    · next rep own _ hfind =>
      exact hes.bind fun es' hes => .target (.argument hfind) hes
    · next value hne hfind => exact .target (isValue_of_ne hfind hne)
  call scope c := by
    have hcalls : (Leaf.call c).toExpr.calls = c :: exprsCalls c.args := Expr.calls_call
    simp only [leafMap, call]
    refine ((functionName_ends c).imp_error fun e he => ?_).bind fun name' hname => ?_
    · exact Misnamed.fault (x := .call c) e ⟨c, by simp [hcalls], he⟩
    · refine ((exprs_ends c.args).imp_error fun e he => ?_).bind fun args' hargs =>
        .call hname hargs
      exact Misnamed.fault (x := .call c) e (he.mono (by simp [hcalls]) e)

end Substitution

/-- **Substitution drops no code but that of references which are read and whose arguments are no
references.** Where arguments are put in the places of parameters, every leaf becomes what
`FlatScript.Leaf.Substituted` says: a reference keeps its dotted tail and its subscripts, with
arguments in them. Else the error is about a target or about the name of a function, with an
argument that is no reference. -/
theorem substitution_ends (env : Env) (σ : Substitution) (body : List Stmt) :
    EndsIn (fun body' => List.Forall₂ (Leaf.Substituted σ) (stmtsParts body) (stmtsParts body'))
      (fun e => ∃ x ∈ stmtsParts body, x.Fault env σ e) (σ.stmts env body) :=
  LeafMap.EndsWith.ends_stmts Substitution.leafMap_endsWith [] body

/-- The statement `message(n[2])`. -/
def subscriptedRead : Stmt where
  kind := .call (.plain (.ofText "message" ⟨1, 1, 7⟩)
    [.var (.ofText "n" ⟨1, 9, 1⟩) [.int 2 ⟨1, 11, 1⟩] ⟨1, 9, 4⟩] true)
  span := ⟨1, 1, 13⟩
  trace := []

/-- An element is read of a parameter, whose argument is a number: there is no error, and the number
takes the place of the element. -/
theorem subscriptedRead_replaced :
    ¬ ∀ (env : Env) (σ : Substitution) (body body' : List Stmt), σ.stmts env body = .ok body' →
      ∀ e ∈ stmtsLeaves body, ∀ i es span, .var i es span ∈ e.nodes → σ.IsValue i.name →
        es = [] ∧ Name.lastPart i.name = "" := by
  intro h
  obtain ⟨hnil, -⟩ := h ⟨{}, .empty⟩ [("n", .int 5 ⟨4, 3, 1⟩)] [subscriptedRead] _ rfl _
    (List.mem_singleton_self _) (.ofText "n" ⟨1, 9, 1⟩) [.int 2 ⟨1, 11, 1⟩] ⟨1, 9, 4⟩
    (.tail _ (.head _)) ⟨.int 5 ⟨4, 3, 1⟩, rfl, rfl⟩
  cases hnil

end FlatScript
