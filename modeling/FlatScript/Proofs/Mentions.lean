import FlatScript.Proofs.Inlining.Copies
import FlatScript.Proofs.Leaves

/-!
# The leaves of statements, one after the other

A step that changes only the leaves of statements keeps their number and their order. So the
leaves of some statements are a list, `FlatScript.stmtsLeaves`, and such a step takes it to the
list of what the leaves become; this is `FlatScript.LeafMap.leaves_step`.

`FlatScript.stmtsMentions` are all variables that the leaves mention. They include the first
argument of a function that takes it as a key, which is none of the references of
`FlatScript.stmtsReferences`. `FlatScript.exprsCalls` are the calls in them, at any depth.
-/

namespace FlatScript

/-! ### Leaves -/

/-- The values of a declaration. -/
def Initializer.leaves : Initializer → List Expr
  | .single e => [e]
  | .list es => es

/-- The expressions of a declaration. -/
def Declaration.leaves (d : Declaration) : List Expr :=
  d.size.toList ++ d.params ++ (d.init.map Initializer.leaves).getD []

mutual

/-- The leaves of a statement. A target or a call counts as the expression it would be. -/
def Stmt.leaves : Stmt → List Expr
  | ⟨.property _ functions, _, _⟩ => functionsLeaves functions
  | ⟨.synonym _ _ target, _, _⟩ => [target.toExpr]
  | ⟨.declare d, _, _⟩ => d.leaves
  | ⟨.assign target value, _, _⟩ => [target.toExpr, value]
  | ⟨.call c, _, _⟩ => [c.toExpr]
  | ⟨.whileLoop cond body, _, _⟩ => cond :: stmtsLeaves body
  | ⟨.forLoop var start stop step _ body, _, _⟩ =>
    [var.toExpr, start, stop] ++ step.toList ++ stmtsLeaves body
  | ⟨.family _ body, _, _⟩ => stmtsLeaves body
  | ⟨.ifChain branches otherwise, _, _⟩ => branchesLeaves branches ++ stmtsLeaves otherwise
  | ⟨.select subject cases, _, _⟩ => subject :: casesLeaves cases

/-- **The leaves of statements**, in the order in which they are written. -/
def stmtsLeaves : List Stmt → List Expr
  | [] => []
  | s :: ss => s.leaves ++ stmtsLeaves ss

/-- The leaves of branches. -/
def branchesLeaves : List Branch → List Expr
  | [] => []
  | ⟨cond, body⟩ :: rest => cond :: (stmtsLeaves body ++ branchesLeaves rest)

/-- The leaves of cases. -/
def casesLeaves : List Case → List Expr
  | [] => []
  | ⟨start, stop, body⟩ :: rest =>
    start :: (stop.toList ++ stmtsLeaves body ++ casesLeaves rest)

/-- The leaves of functions. -/
def functionsLeaves : List FunctionDef → List Expr
  | [] => []
  | ⟨_, _, _, body, _, _, _⟩ :: rest => stmtsLeaves body ++ functionsLeaves rest

end

/-! ### Leaves that change -/

namespace LeafMap

variable {ε : Type}

/-- **What one leaf becomes.** -/
inductive Step (f : LeafMap ε) : Expr → Expr → Prop
  | expr {scope : Scope} {e e' : Expr} (h : f.expr scope e = .ok e') : Step f e e'
  | target {scope : Scope} {v v' : VarRef} (h : f.target scope v = .ok v') :
    Step f v.toExpr v'.toExpr
  | call {scope : Scope} {c c' : Call} (h : f.call scope c = .ok c') : Step f c.toExpr c'.toExpr

variable {f : LeafMap ε} {scope : Scope}

theorem toList_step {o o' : Option Expr} (h : o.mapM (f.expr scope) = .ok o') :
    List.Forall₂ f.Step o.toList o'.toList := by
  cases Except.mapM_option_eq_ok.mp h with
  | none => exact .nil
  | some he => exact .cons (.expr he) .nil

theorem exprs_step {es es' : List Expr} (h : es.mapM (f.expr scope) = .ok es') :
    List.Forall₂ f.Step es es' :=
  (Except.mapM_eq_ok.mp h).imp fun _ _ he => .expr he

theorem initializer_step {i i' : Initializer} (h : f.initializer scope i = .ok i') :
    List.Forall₂ f.Step i.leaves i'.leaves := by
  cases i with
  | single e =>
    obtain ⟨e', he', h⟩ := Except.bind_eq_ok.mp h
    cases h
    exact .cons (.expr he') .nil
  | list es =>
    obtain ⟨es', hes', h⟩ := Except.bind_eq_ok.mp h
    cases h
    exact exprs_step hes'

theorem declaration_step {d d' : Declaration} (h : f.declaration scope d = .ok d') :
    List.Forall₂ f.Step d.leaves d'.leaves := by
  obtain ⟨size, hsize, h⟩ := Except.bind_eq_ok.mp h
  obtain ⟨params, hparams, h⟩ := Except.bind_eq_ok.mp h
  obtain ⟨init, hinit, h⟩ := Except.bind_eq_ok.mp h
  cases h
  refine List.rel_append (List.rel_append (toList_step hsize) (exprs_step hparams)) ?_
  have hrel := Except.mapM_option_eq_ok.mp hinit
  dsimp only
  generalize d.init = o at hrel ⊢
  cases hrel with
  | none => exact .nil
  | some hi => exact initializer_step hi

mutual

theorem stmt_step {params : List String} : ∀ (s : Stmt) {s' : Stmt},
    s.mapLeaves f params = .ok s' → List.Forall₂ f.Step s.leaves s'.leaves
  | ⟨.property name fs, span, trace⟩, _, h => by
    simp only [Stmt.mapLeaves] at h
    obtain ⟨fs', hfs', h⟩ := Except.bind_eq_ok.mp h
    cases h
    exact functions_step fs hfs'
  | ⟨.synonym name indices target, span, trace⟩, _, h => by
    simp only [Stmt.mapLeaves] at h
    obtain ⟨t', ht', h⟩ := Except.bind_eq_ok.mp h
    cases h
    exact .cons (.target ht') .nil
  | ⟨.declare d, span, trace⟩, _, h => by
    simp only [Stmt.mapLeaves] at h
    obtain ⟨d', hd', h⟩ := Except.bind_eq_ok.mp h
    cases h
    exact declaration_step hd'
  | ⟨.assign target value, span, trace⟩, _, h => by
    simp only [Stmt.mapLeaves] at h
    obtain ⟨t', ht', h⟩ := Except.bind_eq_ok.mp h
    obtain ⟨v', hv', h⟩ := Except.bind_eq_ok.mp h
    cases h
    exact .cons (.target ht') (.cons (.expr hv') .nil)
  | ⟨.call c, span, trace⟩, _, h => by
    simp only [Stmt.mapLeaves] at h
    obtain ⟨c', hc', h⟩ := Except.bind_eq_ok.mp h
    cases h
    exact .cons (.call hc') .nil
  | ⟨.whileLoop cond body, span, trace⟩, _, h => by
    simp only [Stmt.mapLeaves] at h
    obtain ⟨c', hc', h⟩ := Except.bind_eq_ok.mp h
    obtain ⟨b', hb', h⟩ := Except.bind_eq_ok.mp h
    cases h
    exact .cons (.expr hc') (leaves_step body hb')
  | ⟨.forLoop var start stop step downto body, span, trace⟩, _, h => by
    simp only [Stmt.mapLeaves] at h
    obtain ⟨v', hv', h⟩ := Except.bind_eq_ok.mp h
    obtain ⟨start', hstart, h⟩ := Except.bind_eq_ok.mp h
    obtain ⟨stop', hstop, h⟩ := Except.bind_eq_ok.mp h
    obtain ⟨step', hstep, h⟩ := Except.bind_eq_ok.mp h
    obtain ⟨b', hb', h⟩ := Except.bind_eq_ok.mp h
    cases h
    exact List.rel_append (List.rel_append (.cons (.target hv') (.cons (.expr hstart)
      (.cons (.expr hstop) .nil))) (toList_step hstep)) (leaves_step body hb')
  | ⟨.family name body, span, trace⟩, _, h => by
    simp only [Stmt.mapLeaves] at h
    obtain ⟨b', hb', h⟩ := Except.bind_eq_ok.mp h
    cases h
    exact leaves_step body hb'
  | ⟨.ifChain bs otherwise, span, trace⟩, _, h => by
    simp only [Stmt.mapLeaves] at h
    obtain ⟨bs', hbs', h⟩ := Except.bind_eq_ok.mp h
    obtain ⟨o', ho', h⟩ := Except.bind_eq_ok.mp h
    cases h
    exact List.rel_append (branches_step bs hbs') (leaves_step otherwise ho')
  | ⟨.select subject cs, span, trace⟩, _, h => by
    simp only [Stmt.mapLeaves] at h
    obtain ⟨s', hs', h⟩ := Except.bind_eq_ok.mp h
    obtain ⟨cs', hcs', h⟩ := Except.bind_eq_ok.mp h
    cases h
    exact .cons (.expr hs') (cases_step cs hcs')
termination_by structural s => s

/-- **Leaves change one after the other**, and none is added or dropped. -/
theorem leaves_step {params : List String} : ∀ (ss : List Stmt) {ss' : List Stmt},
    mapLeavesStmts f params ss = .ok ss' → List.Forall₂ f.Step (stmtsLeaves ss) (stmtsLeaves ss')
  | [], _, h => by
    cases h
    exact .nil
  | s :: ss, _, h => by
    simp only [mapLeavesStmts] at h
    obtain ⟨s', hs', h⟩ := Except.bind_eq_ok.mp h
    obtain ⟨ss', hss', h⟩ := Except.bind_eq_ok.mp h
    cases h
    exact List.rel_append (stmt_step s hs') (leaves_step ss hss')
termination_by structural ss => ss

theorem branches_step {scope : Scope} : ∀ (bs : List Branch) {bs' : List Branch},
    mapLeavesBranches f scope bs = .ok bs' →
      List.Forall₂ f.Step (branchesLeaves bs) (branchesLeaves bs')
  | [], _, h => by
    cases h
    exact .nil
  | ⟨cond, body⟩ :: rest, _, h => by
    simp only [mapLeavesBranches] at h
    obtain ⟨c', hc', h⟩ := Except.bind_eq_ok.mp h
    obtain ⟨b', hb', h⟩ := Except.bind_eq_ok.mp h
    obtain ⟨rest', hrest', h⟩ := Except.bind_eq_ok.mp h
    cases h
    exact .cons (.expr hc') (List.rel_append (leaves_step body hb') (branches_step rest hrest'))
termination_by structural bs => bs

theorem cases_step {scope : Scope} : ∀ (cs : List Case) {cs' : List Case},
    mapLeavesCases f scope cs = .ok cs' → List.Forall₂ f.Step (casesLeaves cs) (casesLeaves cs')
  | [], _, h => by
    cases h
    exact .nil
  | ⟨start, stop, body⟩ :: rest, _, h => by
    simp only [mapLeavesCases] at h
    obtain ⟨start', hstart, h⟩ := Except.bind_eq_ok.mp h
    obtain ⟨stop', hstop, h⟩ := Except.bind_eq_ok.mp h
    obtain ⟨b', hb', h⟩ := Except.bind_eq_ok.mp h
    obtain ⟨rest', hrest', h⟩ := Except.bind_eq_ok.mp h
    cases h
    exact .cons (.expr hstart) (List.rel_append (List.rel_append (toList_step hstop)
      (leaves_step body hb')) (cases_step rest hrest'))
termination_by structural cs => cs

theorem functions_step : ∀ (fs : List FunctionDef) {fs' : List FunctionDef},
    mapLeavesFunctions f fs = .ok fs' →
      List.Forall₂ f.Step (functionsLeaves fs) (functionsLeaves fs')
  | [], _, h => by
    cases h
    exact .nil
  | ⟨name, params, result, body, isTaskfunc, isOverride, span⟩ :: rest, _, h => by
    simp only [mapLeavesFunctions] at h
    obtain ⟨b', hb', h⟩ := Except.bind_eq_ok.mp h
    obtain ⟨rest', hrest', h⟩ := Except.bind_eq_ok.mp h
    cases h
    exact List.rel_append (leaves_step body hb') (functions_step rest hrest')
termination_by structural fs => fs

end

end LeafMap

/-! ### Calls at any depth -/

/-- The call that an expression is, if it is one. -/
def Expr.asCall? : Expr → Option Call
  | .call name args isProcedure usingCall span => some ⟨name, args, isProcedure, usingCall, span⟩
  | _ => none

/-- **The calls in an expression**, at any depth. -/
def Expr.calls (e : Expr) : List Call := e.nodes.filterMap Expr.asCall?

/-- The calls in expressions. -/
def exprsCalls (es : List Expr) : List Call := (exprsNodes es).filterMap Expr.asCall?

/-- **The calls in a script**, at any depth. -/
def Script.calls (s : Script) : List Call :=
  s.blocks.flatMap fun b => exprsCalls (stmtsLeaves b.body)

section Calls

variable {op : BinaryOp} {uop : UnaryOp} {left right e : Expr} {es es' : List Expr} {i : Ident}
  {span : Span}

@[simp] theorem Expr.calls_binary :
    (Expr.binary op left right span).calls = left.calls ++ right.calls := by
  rw [Expr.calls, Expr.nodes, List.filterMap_cons_none rfl, List.filterMap_append]
  rfl

@[simp] theorem Expr.calls_unary : (Expr.unary uop e span).calls = e.calls := by
  rw [Expr.calls, Expr.nodes, List.filterMap_cons_none rfl]
  rfl

@[simp] theorem Expr.calls_var : (Expr.var i es span).calls = exprsCalls es := by
  rw [Expr.calls, Expr.nodes, List.filterMap_cons_none rfl]
  rfl

@[simp] theorem Expr.calls_call {name : Ident} {isProcedure usingCall : Bool} :
    (Expr.call name es isProcedure usingCall span).calls =
      ⟨name, es, isProcedure, usingCall, span⟩ :: exprsCalls es := by
  rw [Expr.calls, Expr.nodes]
  exact List.filterMap_cons_some rfl

@[simp] theorem exprsCalls_nil : exprsCalls [] = [] := rfl

@[simp] theorem exprsCalls_cons : exprsCalls (e :: es) = e.calls ++ exprsCalls es := by
  simp [exprsCalls, Expr.calls, exprsNodes]

theorem exprsCalls_eq_flatMap (es : List Expr) : exprsCalls es = es.flatMap Expr.calls := by
  induction es with
  | nil => rfl
  | cons e es ih => rw [exprsCalls_cons, ih, List.flatMap_cons]

end Calls

/-! ### Mentioned variables -/

mutual

/-- **The variables that an expression mentions.** -/
def Expr.mentions : Expr → List Ident
  | .binary _ left right _ => left.mentions ++ right.mentions
  | .unary _ operand _ => operand.mentions
  | .var i subscripts _ => i :: exprsMentions subscripts
  | .call _ args _ _ _ => exprsMentions args
  | .int _ _ | .real _ _ | .str _ _ | .bool _ _ | .raw _ _ => []

/-- The variables that expressions mention. -/
def exprsMentions : List Expr → List Ident
  | [] => []
  | e :: es => e.mentions ++ exprsMentions es

end

/-- **The variables that statements mention.** -/
def stmtsMentions (ss : List Stmt) : List Ident := (stmtsLeaves ss).flatMap Expr.mentions

/-- **The rule that something holds of every variable that is mentioned.** -/
def mention (P : Ident → Prop) : Rule where
  expr
    | .var i _ _ => P i
    | _ => True
  stmt _ := True
  list _ := True
  skips _ := false
  atom _ _ _ := False

theorem mention_shallow (P : Ident → Prop) : (mention P).Shallow :=
  ⟨fun _ _ => trivial, fun _ => trivial⟩

section Mention

variable {P : Ident → Prop}

mutual

theorem Expr.meets_mention : ∀ e : Expr, e.Meets (mention P) ↔ ∀ i ∈ e.mentions, P i
  | .binary _ left right _ => by
    simp [Expr.Meets, mention, Expr.mentions, or_imp, forall_and, ← left.meets_mention,
      ← right.meets_mention]
  | .unary _ operand _ => by simp [Expr.Meets, mention, Expr.mentions, ← operand.meets_mention]
  | .var i subscripts _ => by
    simp [Expr.Meets, mention, Expr.mentions, ← exprsMeet_mention subscripts]
  | .call name args _ _ _ => by
    simp only [Expr.Meets, Expr.mentions, ← exprsMeet_mention args]
    simp [mention]
  | .int _ _ | .real _ _ | .str _ _ | .bool _ _ | .raw _ _ => by
    simp [Expr.Meets, mention, Expr.mentions]

theorem exprsMeet_mention : ∀ es : List Expr,
    exprsMeet (mention P) es ↔ ∀ i ∈ exprsMentions es, P i
  | [] => by simp [exprsMeet, exprsMentions]
  | e :: es => by
    simp [exprsMeet, exprsMentions, or_imp, forall_and, ← e.meets_mention,
      ← exprsMeet_mention es]

end

theorem Declaration.meets_mention_iff (d : Declaration) :
    d.Meets (mention P) ↔ ∀ e ∈ d.leaves, e.Meets (mention P) := by
  have hinit : (∀ x ∈ d.init, x.Meets (mention P)) ↔
      ∀ e ∈ (d.init.map Initializer.leaves).getD [], e.Meets (mention P) := by
    cases d.init with
    | none => simp
    | some x => cases x <;> simp [Initializer.leaves, Initializer.Meets, exprsMeet_iff]
  simp only [Declaration.Meets, Declaration.leaves, List.forall_mem_append, hinit, exprsMeet_iff,
    Option.mem_toList, and_assoc]
  exact Iff.rfl

mutual

theorem Stmt.meets_mention_iff : ∀ s : Stmt,
    s.Meets (mention P) ↔ ∀ e ∈ s.leaves, e.Meets (mention P)
  | ⟨.property _ functions, _, _⟩ => by
    simp only [Stmt.Meets, Stmt.leaves, ← functionsMeet_mention_iff functions]
    exact and_iff_right trivial
  | ⟨.synonym _ _ target, _, _⟩ => by
    simp only [Stmt.Meets, Stmt.leaves, List.forall_mem_singleton]
    exact and_iff_right trivial
  | ⟨.declare d, _, _⟩ => by
    simp only [Stmt.Meets, Stmt.leaves, ← d.meets_mention_iff]
    exact and_iff_right trivial
  | ⟨.assign target value, _, _⟩ => by
    simp only [Stmt.Meets, Stmt.leaves, List.forall_mem_cons]
    simp [mention, VarRef.Meets]
  | ⟨.call c, _, _⟩ => by
    simp only [Stmt.Meets, Stmt.leaves, List.forall_mem_singleton, Call.toExpr, Expr.Meets]
    exact Iff.rfl
  | ⟨.whileLoop cond body, _, _⟩ => by
    simp only [Stmt.Meets, Stmt.leaves, List.forall_mem_cons, ← stmtsMeet_mention_iff body]
    simp [mention]
  | ⟨.forLoop var start stop step _ body, _, _⟩ => by
    simp only [Stmt.Meets, Stmt.leaves, List.forall_mem_append, List.forall_mem_cons,
      ← stmtsMeet_mention_iff body, Option.mem_toList]
    simp [mention, VarRef.Meets, and_assoc]
  | ⟨.family _ body, _, _⟩ => by
    simp only [Stmt.Meets, Stmt.leaves, ← stmtsMeet_mention_iff body]
    simp [mention]
  | ⟨.ifChain branches otherwise, _, _⟩ => by
    simp only [Stmt.Meets, Stmt.leaves, List.forall_mem_append,
      ← branchesMeet_mention_iff branches, ← stmtsMeet_mention_iff otherwise]
    simp [mention]
  | ⟨.select subject cases, _, _⟩ => by
    simp only [Stmt.Meets, Stmt.leaves, List.forall_mem_cons, ← casesMeet_mention_iff cases]
    simp [mention]

theorem stmtsMeet_mention_iff : ∀ ss : List Stmt,
    stmtsMeet (mention P) ss ↔ ∀ e ∈ stmtsLeaves ss, e.Meets (mention P)
  | [] => by simp [stmtsMeet, stmtsLeaves]
  | s :: ss => by
    simp only [stmtsMeet, stmtsLeaves, List.forall_mem_append, ← s.meets_mention_iff,
      ← stmtsMeet_mention_iff ss]

theorem branchesMeet_mention_iff : ∀ bs : List Branch,
    branchesMeet (mention P) bs ↔ ∀ e ∈ branchesLeaves bs, e.Meets (mention P)
  | [] => by simp [branchesMeet, branchesLeaves]
  | ⟨cond, body⟩ :: rest => by
    simp only [branchesMeet, branchesLeaves, List.forall_mem_append, List.forall_mem_cons,
      ← stmtsMeet_mention_iff body, ← branchesMeet_mention_iff rest]
    simp [mention]

theorem casesMeet_mention_iff : ∀ cs : List Case,
    casesMeet (mention P) cs ↔ ∀ e ∈ casesLeaves cs, e.Meets (mention P)
  | [] => by simp [casesMeet, casesLeaves]
  | ⟨start, stop, body⟩ :: rest => by
    simp only [casesMeet, casesLeaves, List.forall_mem_append, List.forall_mem_cons,
      ← stmtsMeet_mention_iff body, ← casesMeet_mention_iff rest, Option.mem_toList]
    simp [mention, and_assoc]

theorem functionsMeet_mention_iff : ∀ fs : List FunctionDef,
    functionsMeet (mention P) fs ↔ ∀ e ∈ functionsLeaves fs, e.Meets (mention P)
  | [] => by simp [functionsMeet, functionsLeaves]
  | ⟨_, _, _, body, _, _, _⟩ :: rest => by
    simp only [functionsMeet, functionsLeaves, List.forall_mem_append,
      ← stmtsMeet_mention_iff body, ← functionsMeet_mention_iff rest]
    simp [mention]

end

/-- **A rule on mentioned variables**, by the list of them. -/
theorem stmtsMeet_mention (ss : List Stmt) :
    stmtsMeet (mention P) ss ↔ ∀ i ∈ stmtsMentions ss, P i := by
  simp only [stmtsMeet_mention_iff, Expr.meets_mention, stmtsMentions, List.mem_flatMap]
  exact ⟨fun h i ⟨e, he, hi⟩ => h e he i hi, fun h e he i hi => h i ⟨e, he, hi⟩⟩

end Mention

end FlatScript
