import FlatScript.Proofs.Outcome
import FlatScript.Syntax.Leaves

/-!
# Rules that hold all over a script

Most of what can be said about a script says something of every node in it: of each
expression, each statement and each list of statements, at any depth. A `FlatScript.Rule`
collects what is asked of the nodes, and `FlatScript.Expr.Meets` and `FlatScript.Stmt.Meets`
ask it everywhere. The target of an assignment counts as the expression it would be.

A rule may pass over the first argument of some calls, because it is the name of a key rather
than an expression, and it may take some operations and some assignments as a whole.

Steps of the compilation keep the construct of most statements and change what stands in
them; `FlatScript.StmtKind.Reshaped` is that relation.
-/

namespace FlatScript

/-- **What is asked of the nodes of a script.** -/
structure Rule where
  /-- What is asked of an expression, apart from its parts. -/
  expr : Expr → Prop
  /-- What is asked of a statement, apart from its parts. -/
  stmt : StmtKind → Prop
  /-- What is asked of a list of statements, apart from the statements. -/
  list : List Stmt → Prop
  /-- The functions whose calls may have anything as their first argument. -/
  skips : String → Bool
  /-- The operations that are taken as a whole: nothing is asked of their parts. -/
  atom : BinaryOp → Expr → Expr → Prop
  /-- The assignments that are taken as a whole. -/
  whole : VarRef → Expr → Prop := fun _ _ => False

/-- The rule that asks for nothing. -/
def Rule.trivial : Rule where
  expr _ := True
  stmt _ := True
  list _ := True
  skips _ := false
  atom _ _ _ := False

@[simp] theorem Rule.trivial_skips (name : String) : Rule.trivial.skips name = false := rfl

/-! ### Expressions -/

/-- Whether an expression has no parts. -/
def Expr.isLiteral : Expr → Bool
  | .int _ _ | .real _ _ | .str _ _ | .bool _ _ | .raw _ _ => true
  | .binary _ _ _ _ | .unary _ _ _ | .var _ _ _ | .call _ _ _ _ _ => false

mutual

/-- **An expression meets a rule.** -/
def Expr.Meets (r : Rule) : Expr → Prop
  | .binary op left right span =>
    r.atom op left right ∨ (r.expr (.binary op left right span) ∧ left.Meets r ∧ right.Meets r)
  | .unary op operand span => r.expr (.unary op operand span) ∧ operand.Meets r
  | .var i subscripts span => r.expr (.var i subscripts span) ∧ exprsMeet r subscripts
  | .call name args isProcedure usingCall span =>
    r.expr (.call name args isProcedure usingCall span) ∧ argsMeet r (r.skips name.name) args
  | .int v span => r.expr (.int v span)
  | .real v span => r.expr (.real v span)
  | .str raw span => r.expr (.str raw span)
  | .bool v span => r.expr (.bool v span)
  | .raw text span => r.expr (.raw text span)

/-- Expressions meet a rule. -/
def exprsMeet (r : Rule) : List Expr → Prop
  | [] => True
  | e :: es => e.Meets r ∧ exprsMeet r es

/-- Arguments meet a rule; the first one may be passed over. -/
def argsMeet (r : Rule) (skip : Bool) : List Expr → Prop
  | [] => True
  | e :: es => (skip = true ∨ e.Meets r) ∧ exprsMeet r es

end

/-- A target of an assignment meets a rule. -/
def VarRef.Meets (r : Rule) (v : VarRef) : Prop := v.toExpr.Meets r

/-- The values of a declaration meet a rule. -/
def Initializer.Meets (r : Rule) : Initializer → Prop
  | .single e => e.Meets r
  | .list es => exprsMeet r es

/-- The expressions of a declaration meet a rule. -/
def Declaration.Meets (r : Rule) (d : Declaration) : Prop :=
  (∀ e ∈ d.size, e.Meets r) ∧ exprsMeet r d.params ∧ ∀ i ∈ d.init, i.Meets r

/-! ### Statements -/

mutual

/-- **A statement meets a rule.** -/
def Stmt.Meets (r : Rule) : Stmt → Prop
  | ⟨.property name functions, _, _⟩ =>
    r.stmt (.property name functions) ∧ functionsMeet r functions
  | ⟨.synonym name indices target, _, _⟩ =>
    r.stmt (.synonym name indices target) ∧ target.Meets r
  | ⟨.declare d, _, _⟩ => r.stmt (.declare d) ∧ d.Meets r
  | ⟨.assign target value, _, _⟩ =>
    r.whole target value ∨ (r.stmt (.assign target value) ∧ target.Meets r ∧ value.Meets r)
  | ⟨.call c, _, _⟩ => r.stmt (.call c) ∧ argsMeet r (r.skips c.name.name) c.args
  | ⟨.whileLoop cond body, _, _⟩ =>
    r.stmt (.whileLoop cond body) ∧ cond.Meets r ∧ r.list body ∧ stmtsMeet r body
  | ⟨.forLoop var start stop step downto body, _, _⟩ =>
    r.stmt (.forLoop var start stop step downto body) ∧ var.Meets r ∧ start.Meets r ∧
      stop.Meets r ∧ (∀ e ∈ step, e.Meets r) ∧ r.list body ∧ stmtsMeet r body
  | ⟨.family name body, _, _⟩ => r.stmt (.family name body) ∧ r.list body ∧ stmtsMeet r body
  | ⟨.ifChain branches otherwise, _, _⟩ =>
    r.stmt (.ifChain branches otherwise) ∧ branchesMeet r branches ∧ r.list otherwise ∧
      stmtsMeet r otherwise
  | ⟨.select subject cases, _, _⟩ =>
    r.stmt (.select subject cases) ∧ subject.Meets r ∧ casesMeet r cases

/-- Statements meet a rule. -/
def stmtsMeet (r : Rule) : List Stmt → Prop
  | [] => True
  | s :: ss => s.Meets r ∧ stmtsMeet r ss

/-- Branches meet a rule. -/
def branchesMeet (r : Rule) : List Branch → Prop
  | [] => True
  | ⟨cond, body⟩ :: rest => cond.Meets r ∧ r.list body ∧ stmtsMeet r body ∧ branchesMeet r rest

/-- Cases meet a rule. -/
def casesMeet (r : Rule) : List Case → Prop
  | [] => True
  | ⟨start, stop, body⟩ :: rest =>
    start.Meets r ∧ (∀ e ∈ stop, e.Meets r) ∧ r.list body ∧ stmtsMeet r body ∧ casesMeet r rest

/-- The bodies of functions meet a rule. -/
def functionsMeet (r : Rule) : List FunctionDef → Prop
  | [] => True
  | ⟨_, _, _, body, _, _, _⟩ :: rest => r.list body ∧ stmtsMeet r body ∧ functionsMeet r rest

end

/-- **A body meets a rule**: as a list, and in all its statements. -/
def bodyMeets (r : Rule) (body : List Stmt) : Prop := r.list body ∧ stmtsMeet r body

/-! ### Lists -/

section Lists

variable {r : Rule}

theorem exprsMeet_iff {es : List Expr} : exprsMeet r es ↔ ∀ e ∈ es, e.Meets r := by
  induction es with
  | nil => simp [exprsMeet]
  | cons e es ih => simp [exprsMeet, ih]

theorem stmtsMeet_iff {ss : List Stmt} : stmtsMeet r ss ↔ ∀ s ∈ ss, s.Meets r := by
  induction ss with
  | nil => simp [stmtsMeet]
  | cons s ss ih => simp [stmtsMeet, ih]

@[simp] theorem exprsMeet_append {es es' : List Expr} :
    exprsMeet r (es ++ es') ↔ exprsMeet r es ∧ exprsMeet r es' := by
  simp only [exprsMeet_iff, List.forall_mem_append]

@[simp] theorem stmtsMeet_append {ss ss' : List Stmt} :
    stmtsMeet r (ss ++ ss') ↔ stmtsMeet r ss ∧ stmtsMeet r ss' := by
  simp only [stmtsMeet_iff, List.forall_mem_append]

/-- Arguments that meet a rule do so also when the first one may be passed over. -/
theorem argsMeet_of_exprsMeet {skip : Bool} {es : List Expr} (h : exprsMeet r es) :
    argsMeet r skip es := by
  cases es with
  | nil => trivial
  | cons e es => exact ⟨.inr h.1, h.2⟩

@[simp] theorem argsMeet_false {es : List Expr} : argsMeet r false es ↔ exprsMeet r es := by
  cases es <;> simp [argsMeet, exprsMeet]

end Lists

/-! ### Nodes -/

mutual

/-- **An expression and all parts of it.** -/
def Expr.nodes : Expr → List Expr
  | .binary op left right span => .binary op left right span :: (left.nodes ++ right.nodes)
  | .unary op operand span => .unary op operand span :: operand.nodes
  | .var i subscripts span => .var i subscripts span :: exprsNodes subscripts
  | .call name args isProcedure usingCall span =>
    .call name args isProcedure usingCall span :: exprsNodes args
  | .int v span => [.int v span]
  | .real v span => [.real v span]
  | .str raw span => [.str raw span]
  | .bool v span => [.bool v span]
  | .raw text span => [.raw text span]

/-- Expressions and all parts of them. -/
def exprsNodes : List Expr → List Expr
  | [] => []
  | e :: es => e.nodes ++ exprsNodes es

end

section Nodes

variable {r : Rule}

mutual

/-- A rule can be checked node by node. -/
theorem Expr.meets_of_nodes : ∀ e : Expr, (∀ n ∈ e.nodes, r.expr n) → e.Meets r
  | .binary _ left right _, h => by
    simp only [Expr.nodes, List.forall_mem_cons, List.forall_mem_append] at h
    exact .inr ⟨h.1, left.meets_of_nodes h.2.1, right.meets_of_nodes h.2.2⟩
  | .unary _ operand _, h => by
    simp only [Expr.nodes, List.forall_mem_cons] at h
    exact ⟨h.1, operand.meets_of_nodes h.2⟩
  | .var _ subscripts _, h => by
    simp only [Expr.nodes, List.forall_mem_cons] at h
    exact ⟨h.1, exprsMeet_of_nodes subscripts h.2⟩
  | .call _ args _ _ _, h => by
    simp only [Expr.nodes, List.forall_mem_cons] at h
    exact ⟨h.1, argsMeet_of_exprsMeet (exprsMeet_of_nodes args h.2)⟩
  | .int _ _, h | .real _ _, h | .str _ _, h | .bool _ _, h | .raw _ _, h => by
    simp only [Expr.nodes, List.forall_mem_singleton] at h
    exact h

theorem exprsMeet_of_nodes : ∀ es : List Expr, (∀ n ∈ exprsNodes es, r.expr n) → exprsMeet r es
  | [], _ => trivial
  | e :: es, h => by
    simp only [exprsNodes, List.forall_mem_append] at h
    exact ⟨e.meets_of_nodes h.1, exprsMeet_of_nodes es h.2⟩

end

end Nodes

/-! ### The rule that asks for nothing -/

mutual

theorem Expr.meets_trivial : ∀ e : Expr, e.Meets .trivial
  | .binary _ left right _ => .inr ⟨trivial, left.meets_trivial, right.meets_trivial⟩
  | .unary _ operand _ => ⟨trivial, operand.meets_trivial⟩
  | .var _ subscripts _ => ⟨trivial, exprsMeet_trivial subscripts⟩
  | .call _ args _ _ _ => ⟨trivial, argsMeet_trivial args⟩
  | .int _ _ | .real _ _ | .str _ _ | .bool _ _ | .raw _ _ => trivial

theorem exprsMeet_trivial : ∀ es : List Expr, exprsMeet .trivial es
  | [] => trivial
  | e :: es => ⟨e.meets_trivial, exprsMeet_trivial es⟩

theorem argsMeet_trivial {skip : Bool} : ∀ es : List Expr, argsMeet .trivial skip es
  | [] => trivial
  | e :: es => ⟨.inr e.meets_trivial, exprsMeet_trivial es⟩

end

theorem Declaration.meets_trivial (d : Declaration) : d.Meets .trivial := by
  refine ⟨fun e _ => e.meets_trivial, exprsMeet_trivial _, fun i _ => ?_⟩
  cases i with
  | single e => exact e.meets_trivial
  | list es => exact exprsMeet_trivial es

mutual

theorem Stmt.meets_trivial : ∀ s : Stmt, s.Meets .trivial
  | ⟨.property _ functions, _, _⟩ => ⟨trivial, functionsMeet_trivial functions⟩
  | ⟨.synonym _ _ target, _, _⟩ => ⟨trivial, target.toExpr.meets_trivial⟩
  | ⟨.declare d, _, _⟩ => ⟨trivial, d.meets_trivial⟩
  | ⟨.assign target value, _, _⟩ =>
    .inr ⟨trivial, target.toExpr.meets_trivial, value.meets_trivial⟩
  | ⟨.call c, _, _⟩ => ⟨trivial, argsMeet_trivial c.args⟩
  | ⟨.whileLoop cond body, _, _⟩ => ⟨trivial, cond.meets_trivial, trivial, stmtsMeet_trivial body⟩
  | ⟨.forLoop var start stop _ _ body, _, _⟩ =>
    ⟨trivial, var.toExpr.meets_trivial, start.meets_trivial, stop.meets_trivial,
      fun e _ => e.meets_trivial, trivial, stmtsMeet_trivial body⟩
  | ⟨.family _ body, _, _⟩ => ⟨trivial, trivial, stmtsMeet_trivial body⟩
  | ⟨.ifChain branches otherwise, _, _⟩ =>
    ⟨trivial, branchesMeet_trivial branches, trivial, stmtsMeet_trivial otherwise⟩
  | ⟨.select subject cases, _, _⟩ =>
    ⟨trivial, subject.meets_trivial, casesMeet_trivial cases⟩

theorem stmtsMeet_trivial : ∀ ss : List Stmt, stmtsMeet .trivial ss
  | [] => trivial
  | s :: ss => ⟨s.meets_trivial, stmtsMeet_trivial ss⟩

theorem branchesMeet_trivial : ∀ bs : List Branch, branchesMeet .trivial bs
  | [] => trivial
  | ⟨cond, body⟩ :: rest =>
    ⟨cond.meets_trivial, trivial, stmtsMeet_trivial body, branchesMeet_trivial rest⟩

theorem casesMeet_trivial : ∀ cs : List Case, casesMeet .trivial cs
  | [] => trivial
  | ⟨start, _, body⟩ :: rest =>
    ⟨start.meets_trivial, fun e _ => e.meets_trivial, trivial, stmtsMeet_trivial body,
      casesMeet_trivial rest⟩

theorem functionsMeet_trivial : ∀ fs : List FunctionDef, functionsMeet .trivial fs
  | [] => trivial
  | ⟨_, _, _, body, _, _, _⟩ :: rest =>
    ⟨trivial, stmtsMeet_trivial body, functionsMeet_trivial rest⟩

end

/-! ### Stronger and weaker rules -/

/-- A rule asks at least as much as another one. -/
structure Rule.Implies (r r' : Rule) : Prop where
  expr : ∀ e, r.expr e → r'.expr e
  stmt : ∀ k, r.stmt k → r'.stmt k
  list : ∀ ss, r.list ss → r'.list ss
  skips : ∀ name, r.skips name = true → r'.skips name = true
  atom : ∀ op left right, r.atom op left right → r'.atom op left right
  whole : ∀ target value, r.whole target value → r'.whole target value

section Implies

variable {r r' : Rule}

theorem Rule.Implies.refl (r : Rule) : r.Implies r :=
  ⟨fun _ h => h, fun _ h => h, fun _ h => h, fun _ h => h, fun _ _ _ h => h, fun _ _ h => h⟩

/-- What a rule asks of expressions is asked by another one too. -/
structure Rule.ImpliesExpr (r r' : Rule) : Prop where
  expr : ∀ e, r.expr e → r'.expr e
  skips : ∀ name, r.skips name = true → r'.skips name = true
  atom : ∀ op left right, r.atom op left right → r'.atom op left right

theorem Rule.Implies.toExpr (hr : r.Implies r') : r.ImpliesExpr r' :=
  ⟨hr.expr, hr.skips, hr.atom⟩

mutual

theorem Expr.Meets.imp (hr : r.ImpliesExpr r') : ∀ {e : Expr}, e.Meets r → e.Meets r'
  | .binary _ _ _ _, .inl h => .inl (hr.atom _ _ _ h)
  | .binary _ _ _ _, .inr ⟨h, hl, hright⟩ => .inr ⟨hr.expr _ h, hl.imp hr, hright.imp hr⟩
  | .unary _ _ _, ⟨h, ho⟩ => ⟨hr.expr _ h, ho.imp hr⟩
  | .var _ _ _, ⟨h, hs⟩ => ⟨hr.expr _ h, exprsMeet_imp hr hs⟩
  | .call name _ _ _ _, ⟨h, ha⟩ => ⟨hr.expr _ h, argsMeet_imp hr (hr.skips name.name) ha⟩
  | .int _ _, h | .real _ _, h | .str _ _, h | .bool _ _, h | .raw _ _, h => hr.expr _ h

theorem exprsMeet_imp (hr : r.ImpliesExpr r') :
    ∀ {es : List Expr}, exprsMeet r es → exprsMeet r' es
  | [], _ => trivial
  | _ :: _, ⟨h, hs⟩ => ⟨h.imp hr, exprsMeet_imp hr hs⟩

theorem argsMeet_imp (hr : r.ImpliesExpr r') {skip skip' : Bool}
    (hskip : skip = true → skip' = true) :
    ∀ {es : List Expr}, argsMeet r skip es → argsMeet r' skip' es
  | [], _ => trivial
  | _ :: _, ⟨.inl h, hs⟩ => ⟨.inl (hskip h), exprsMeet_imp hr hs⟩
  | _ :: _, ⟨.inr h, hs⟩ => ⟨.inr (h.imp hr), exprsMeet_imp hr hs⟩

end

theorem Expr.Meets.mono (hr : r.Implies r') {e : Expr} (h : e.Meets r) : e.Meets r' :=
  h.imp hr.toExpr

theorem exprsMeet_mono (hr : r.Implies r') {es : List Expr} (h : exprsMeet r es) :
    exprsMeet r' es :=
  exprsMeet_imp hr.toExpr h

theorem argsMeet_mono (hr : r.Implies r') {skip skip' : Bool} (hskip : skip = true → skip' = true)
    {es : List Expr} (h : argsMeet r skip es) : argsMeet r' skip' es :=
  argsMeet_imp hr.toExpr hskip h

theorem Declaration.Meets.mono (hr : r.Implies r') {d : Declaration} (h : d.Meets r) :
    d.Meets r' := by
  refine ⟨fun e he => (h.1 e he).mono hr, exprsMeet_mono hr h.2.1, fun i hi => ?_⟩
  have hm := h.2.2 i hi
  cases i with
  | single e => exact Expr.Meets.mono hr hm
  | list es => exact exprsMeet_mono hr hm

mutual

theorem Stmt.Meets.mono (hr : r.Implies r') : ∀ {s : Stmt}, s.Meets r → s.Meets r'
  | ⟨.property _ _, _, _⟩, ⟨h, hf⟩ => ⟨hr.stmt _ h, functionsMeet_mono hr hf⟩
  | ⟨.synonym _ _ _, _, _⟩, ⟨h, ht⟩ => ⟨hr.stmt _ h, Expr.Meets.mono hr ht⟩
  | ⟨.declare _, _, _⟩, ⟨h, hd⟩ => ⟨hr.stmt _ h, hd.mono hr⟩
  | ⟨.assign _ _, _, _⟩, .inl h => .inl (hr.whole _ _ h)
  | ⟨.assign _ _, _, _⟩, .inr ⟨h, ht, hv⟩ =>
    .inr ⟨hr.stmt _ h, Expr.Meets.mono hr ht, hv.mono hr⟩
  | ⟨.call c, _, _⟩, ⟨h, ha⟩ => ⟨hr.stmt _ h, argsMeet_mono hr (hr.skips c.name.name) ha⟩
  | ⟨.whileLoop _ _, _, _⟩, ⟨h, hc, hl, hb⟩ =>
    ⟨hr.stmt _ h, hc.mono hr, hr.list _ hl, stmtsMeet_mono hr hb⟩
  | ⟨.forLoop _ _ _ _ _ _, _, _⟩, ⟨h, hv, h₁, h₂, h₃, hl, hb⟩ =>
    ⟨hr.stmt _ h, Expr.Meets.mono hr hv, h₁.mono hr, h₂.mono hr,
      fun e he => (h₃ e he).mono hr, hr.list _ hl, stmtsMeet_mono hr hb⟩
  | ⟨.family _ _, _, _⟩, ⟨h, hl, hb⟩ => ⟨hr.stmt _ h, hr.list _ hl, stmtsMeet_mono hr hb⟩
  | ⟨.ifChain _ _, _, _⟩, ⟨h, hbs, hl, hb⟩ =>
    ⟨hr.stmt _ h, branchesMeet_mono hr hbs, hr.list _ hl, stmtsMeet_mono hr hb⟩
  | ⟨.select _ _, _, _⟩, ⟨h, hs, hc⟩ => ⟨hr.stmt _ h, hs.mono hr, casesMeet_mono hr hc⟩

theorem stmtsMeet_mono (hr : r.Implies r') : ∀ {ss : List Stmt}, stmtsMeet r ss → stmtsMeet r' ss
  | [], _ => trivial
  | _ :: _, ⟨h, hs⟩ => ⟨h.mono hr, stmtsMeet_mono hr hs⟩

theorem branchesMeet_mono (hr : r.Implies r') :
    ∀ {bs : List Branch}, branchesMeet r bs → branchesMeet r' bs
  | [], _ => trivial
  | ⟨_, _⟩ :: _, ⟨hc, hl, hb, h⟩ =>
    ⟨hc.mono hr, hr.list _ hl, stmtsMeet_mono hr hb, branchesMeet_mono hr h⟩

theorem casesMeet_mono (hr : r.Implies r') : ∀ {cs : List Case}, casesMeet r cs → casesMeet r' cs
  | [], _ => trivial
  | ⟨_, _, _⟩ :: _, ⟨h₁, h₂, hl, hb, h⟩ =>
    ⟨h₁.mono hr, fun e he => (h₂ e he).mono hr, hr.list _ hl, stmtsMeet_mono hr hb,
      casesMeet_mono hr h⟩

theorem functionsMeet_mono (hr : r.Implies r') :
    ∀ {fs : List FunctionDef}, functionsMeet r fs → functionsMeet r' fs
  | [], _ => trivial
  | ⟨_, _, _, _, _, _, _⟩ :: _, ⟨hl, hb, h⟩ =>
    ⟨hr.list _ hl, stmtsMeet_mono hr hb, functionsMeet_mono hr h⟩

end

theorem bodyMeets.mono (hr : r.Implies r') {body : List Stmt} (h : bodyMeets r body) :
    bodyMeets r' body :=
  ⟨hr.list _ h.1, stmtsMeet_mono hr h.2⟩

end Implies

/-! ### Rules about statements alone -/

/-- **A rule that asks nothing of expressions.** -/
def Rule.Mute (r : Rule) : Prop := ∀ e, r.expr e

namespace Rule.Mute

variable {r : Rule}

theorem expr (hr : r.Mute) (e : Expr) : e.Meets r :=
  e.meets_trivial.imp
    ⟨fun e _ => hr e, fun _ h => absurd h Bool.false_ne_true, fun _ _ _ h => False.elim h⟩

theorem exprs (hr : r.Mute) (es : List Expr) : exprsMeet r es :=
  exprsMeet_iff.mpr fun e _ => hr.expr e

theorem args (hr : r.Mute) {skip : Bool} (es : List Expr) : argsMeet r skip es :=
  argsMeet_of_exprsMeet (hr.exprs es)

theorem varRef (hr : r.Mute) (v : VarRef) : v.Meets r := hr.expr v.toExpr

theorem declaration (hr : r.Mute) (d : Declaration) : d.Meets r := by
  refine ⟨fun e _ => hr.expr e, hr.exprs _, fun i _ => ?_⟩
  cases i with
  | single e => exact hr.expr e
  | list es => exact hr.exprs es

end Rule.Mute

/-- **A rule about statements alone that follows from another one**, with what that one says of the
parts of a statement. -/
structure Rule.ImpliesStmt (r r' : Rule) : Prop where
  mute : r'.Mute
  list : ∀ ss, r'.list ss
  stmt : ∀ s : Stmt, s.Meets r → r'.stmt s.kind

section ImpliesStmt

variable {r r' : Rule}

mutual

theorem Stmt.Meets.imp (hr : r.ImpliesStmt r') : ∀ s : Stmt, s.Meets r → s.Meets r'
  | ⟨.property _ functions, _, _⟩, h => ⟨hr.stmt ⟨_, _, _⟩ h, functionsMeet_imp hr functions h.2⟩
  | ⟨.synonym _ _ _, _, _⟩, h => ⟨hr.stmt ⟨_, _, _⟩ h, hr.mute.varRef _⟩
  | ⟨.declare d, _, _⟩, h => ⟨hr.stmt ⟨_, _, _⟩ h, hr.mute.declaration d⟩
  | ⟨.assign _ _, _, _⟩, h => .inr ⟨hr.stmt ⟨_, _, _⟩ h, hr.mute.varRef _, hr.mute.expr _⟩
  | ⟨.call _, _, _⟩, h => ⟨hr.stmt ⟨_, _, _⟩ h, hr.mute.args _⟩
  | ⟨.whileLoop _ body, _, _⟩, h =>
    ⟨hr.stmt ⟨_, _, _⟩ h, hr.mute.expr _, hr.list _, stmtsMeet_imp hr body h.2.2.2⟩
  | ⟨.forLoop _ _ _ _ _ body, _, _⟩, h =>
    ⟨hr.stmt ⟨_, _, _⟩ h, hr.mute.varRef _, hr.mute.expr _, hr.mute.expr _, fun e _ => hr.mute.expr e,
      hr.list _, stmtsMeet_imp hr body h.2.2.2.2.2.2⟩
  | ⟨.family _ body, _, _⟩, h => ⟨hr.stmt ⟨_, _, _⟩ h, hr.list _, stmtsMeet_imp hr body h.2.2⟩
  | ⟨.ifChain bs otherwise, _, _⟩, h =>
    ⟨hr.stmt ⟨_, _, _⟩ h, branchesMeet_imp hr bs h.2.1, hr.list _, stmtsMeet_imp hr otherwise h.2.2.2⟩
  | ⟨.select _ cs, _, _⟩, h => ⟨hr.stmt ⟨_, _, _⟩ h, hr.mute.expr _, casesMeet_imp hr cs h.2.2⟩

/-- **What follows from a rule statement by statement holds of statements that meet it.** -/
theorem stmtsMeet_imp (hr : r.ImpliesStmt r') : ∀ ss : List Stmt, stmtsMeet r ss → stmtsMeet r' ss
  | [], _ => trivial
  | s :: ss, h => ⟨Stmt.Meets.imp hr s h.1, stmtsMeet_imp hr ss h.2⟩

theorem branchesMeet_imp (hr : r.ImpliesStmt r') :
    ∀ bs : List Branch, branchesMeet r bs → branchesMeet r' bs
  | [], _ => trivial
  | ⟨_, body⟩ :: rest, h =>
    ⟨hr.mute.expr _, hr.list _, stmtsMeet_imp hr body h.2.2.1, branchesMeet_imp hr rest h.2.2.2⟩

theorem casesMeet_imp (hr : r.ImpliesStmt r') : ∀ cs : List Case, casesMeet r cs → casesMeet r' cs
  | [], _ => trivial
  | ⟨_, _, body⟩ :: rest, h =>
    ⟨hr.mute.expr _, fun e _ => hr.mute.expr e, hr.list _, stmtsMeet_imp hr body h.2.2.2.1,
      casesMeet_imp hr rest h.2.2.2.2⟩

theorem functionsMeet_imp (hr : r.ImpliesStmt r') :
    ∀ fs : List FunctionDef, functionsMeet r fs → functionsMeet r' fs
  | [], _ => trivial
  | ⟨_, _, _, body, _, _, _⟩ :: rest, h =>
    ⟨hr.list _, stmtsMeet_imp hr body h.2.1, functionsMeet_imp hr rest h.2.2⟩

end

end ImpliesStmt

/-! ### Rules together -/

/-- What two rules ask together, when they pass over the same arguments. -/
def Rule.both (r r' : Rule) : Rule where
  expr e := r.expr e ∧ r'.expr e
  stmt k := r.stmt k ∧ r'.stmt k
  list ss := r.list ss ∧ r'.list ss
  skips := r.skips
  atom op left right := r.atom op left right ∧ r'.atom op left right

/-- A rule that takes nothing as a whole. -/
structure Rule.Plain (r : Rule) : Prop where
  noAtom : ∀ {op left right}, ¬ r.atom op left right
  noWhole : ∀ {target value}, ¬ r.whole target value

theorem Rule.Plain.both {r r' : Rule} (hr : r.Plain) : (r.both r').Plain where
  noAtom h := hr.noAtom h.1
  noWhole := id

section Both

variable {r r' : Rule}

mutual

theorem Expr.Meets.both (hr : r.Plain) (hr' : r'.Plain) (hskips : r'.skips = r.skips) :
    ∀ {e : Expr}, e.Meets r → e.Meets r' → e.Meets (r.both r')
  | .binary _ _ _ _, .inl h, _ => (hr.noAtom h).elim
  | .binary _ _ _ _, .inr _, .inl h => (hr'.noAtom h).elim
  | .binary _ _ _ _, .inr ⟨h, h₁, h₂⟩, .inr ⟨h', h₁', h₂'⟩ =>
    .inr ⟨⟨h, h'⟩, h₁.both hr hr' hskips h₁', h₂.both hr hr' hskips h₂'⟩
  | .unary _ _ _, ⟨h, ho⟩, ⟨h', ho'⟩ => ⟨⟨h, h'⟩, ho.both hr hr' hskips ho'⟩
  | .var _ _ _, ⟨h, hs⟩, ⟨h', hs'⟩ => ⟨⟨h, h'⟩, exprsMeet_both hr hr' hskips hs hs'⟩
  | .call _ _ _ _ _, ⟨h, ha⟩, ⟨h', ha'⟩ =>
    ⟨⟨h, h'⟩, argsMeet_both hr hr' hskips ha (hskips ▸ ha')⟩
  | .int _ _, h, h' | .real _ _, h, h' | .str _ _, h, h' | .bool _ _, h, h' | .raw _ _, h, h' =>
    ⟨h, h'⟩

theorem exprsMeet_both (hr : r.Plain) (hr' : r'.Plain) (hskips : r'.skips = r.skips) :
    ∀ {es : List Expr}, exprsMeet r es → exprsMeet r' es → exprsMeet (r.both r') es
  | [], _, _ => trivial
  | _ :: _, ⟨h, hs⟩, ⟨h', hs'⟩ => ⟨h.both hr hr' hskips h', exprsMeet_both hr hr' hskips hs hs'⟩

theorem argsMeet_both (hr : r.Plain) (hr' : r'.Plain) (hskips : r'.skips = r.skips) {skip : Bool} :
    ∀ {es : List Expr}, argsMeet r skip es → argsMeet r' skip es → argsMeet (r.both r') skip es
  | [], _, _ => trivial
  | _ :: _, ⟨.inl h, hs⟩, ⟨_, hs'⟩ => ⟨.inl h, exprsMeet_both hr hr' hskips hs hs'⟩
  | _ :: _, ⟨.inr _, hs⟩, ⟨.inl h', hs'⟩ => ⟨.inl h', exprsMeet_both hr hr' hskips hs hs'⟩
  | _ :: _, ⟨.inr h, hs⟩, ⟨.inr h', hs'⟩ =>
    ⟨.inr (h.both hr hr' hskips h'), exprsMeet_both hr hr' hskips hs hs'⟩

end

theorem Declaration.Meets.both (hr : r.Plain) (hr' : r'.Plain) (hskips : r'.skips = r.skips)
    {d : Declaration} (h : d.Meets r) (h' : d.Meets r') : d.Meets (r.both r') := by
  refine ⟨fun e he => (h.1 e he).both hr hr' hskips (h'.1 e he),
    exprsMeet_both hr hr' hskips h.2.1 h'.2.1, fun i hi => ?_⟩
  have hm := h.2.2 i hi
  have hm' := h'.2.2 i hi
  cases i with
  | single e => exact Expr.Meets.both hr hr' hskips hm hm'
  | list es => exact exprsMeet_both hr hr' hskips hm hm'

mutual

theorem Stmt.Meets.both (hr : r.Plain) (hr' : r'.Plain) (hskips : r'.skips = r.skips) :
    ∀ {s : Stmt}, s.Meets r → s.Meets r' → s.Meets (r.both r')
  | ⟨.property _ _, _, _⟩, ⟨h, hf⟩, ⟨h', hf'⟩ =>
    ⟨⟨h, h'⟩, functionsMeet_both hr hr' hskips hf hf'⟩
  | ⟨.synonym _ _ _, _, _⟩, ⟨h, ht⟩, ⟨h', ht'⟩ => ⟨⟨h, h'⟩, Expr.Meets.both hr hr' hskips ht ht'⟩
  | ⟨.declare _, _, _⟩, ⟨h, hd⟩, ⟨h', hd'⟩ => ⟨⟨h, h'⟩, hd.both hr hr' hskips hd'⟩
  | ⟨.assign _ _, _, _⟩, .inl h, _ => (hr.noWhole h).elim
  | ⟨.assign _ _, _, _⟩, .inr _, .inl h => (hr'.noWhole h).elim
  | ⟨.assign _ _, _, _⟩, .inr ⟨h, ht, hv⟩, .inr ⟨h', ht', hv'⟩ =>
    .inr ⟨⟨h, h'⟩, Expr.Meets.both hr hr' hskips ht ht', hv.both hr hr' hskips hv'⟩
  | ⟨.call _, _, _⟩, ⟨h, ha⟩, ⟨h', ha'⟩ =>
    ⟨⟨h, h'⟩, argsMeet_both hr hr' hskips ha (hskips ▸ ha')⟩
  | ⟨.whileLoop _ _, _, _⟩, ⟨h, hc, hl, hb⟩, ⟨h', hc', hl', hb'⟩ =>
    ⟨⟨h, h'⟩, hc.both hr hr' hskips hc', ⟨hl, hl'⟩, stmtsMeet_both hr hr' hskips hb hb'⟩
  | ⟨.forLoop _ _ _ _ _ _, _, _⟩, ⟨h, hv, h₁, h₂, h₃, hl, hb⟩, ⟨h', hv', h₁', h₂', h₃', hl', hb'⟩ =>
    ⟨⟨h, h'⟩, Expr.Meets.both hr hr' hskips hv hv', h₁.both hr hr' hskips h₁',
      h₂.both hr hr' hskips h₂', fun e he => (h₃ e he).both hr hr' hskips (h₃' e he), ⟨hl, hl'⟩,
      stmtsMeet_both hr hr' hskips hb hb'⟩
  | ⟨.family _ _, _, _⟩, ⟨h, hl, hb⟩, ⟨h', hl', hb'⟩ =>
    ⟨⟨h, h'⟩, ⟨hl, hl'⟩, stmtsMeet_both hr hr' hskips hb hb'⟩
  | ⟨.ifChain _ _, _, _⟩, ⟨h, hbs, hl, hb⟩, ⟨h', hbs', hl', hb'⟩ =>
    ⟨⟨h, h'⟩, branchesMeet_both hr hr' hskips hbs hbs', ⟨hl, hl'⟩,
      stmtsMeet_both hr hr' hskips hb hb'⟩
  | ⟨.select _ _, _, _⟩, ⟨h, hs, hc⟩, ⟨h', hs', hc'⟩ =>
    ⟨⟨h, h'⟩, hs.both hr hr' hskips hs', casesMeet_both hr hr' hskips hc hc'⟩

/-- **Statements that meet two rules meet both of them together.** -/
theorem stmtsMeet_both (hr : r.Plain) (hr' : r'.Plain) (hskips : r'.skips = r.skips) :
    ∀ {ss : List Stmt}, stmtsMeet r ss → stmtsMeet r' ss → stmtsMeet (r.both r') ss
  | [], _, _ => trivial
  | _ :: _, ⟨h, hs⟩, ⟨h', hs'⟩ => ⟨h.both hr hr' hskips h', stmtsMeet_both hr hr' hskips hs hs'⟩

theorem branchesMeet_both (hr : r.Plain) (hr' : r'.Plain) (hskips : r'.skips = r.skips) :
    ∀ {bs : List Branch}, branchesMeet r bs → branchesMeet r' bs → branchesMeet (r.both r') bs
  | [], _, _ => trivial
  | ⟨_, _⟩ :: _, ⟨hc, hl, hb, h⟩, ⟨hc', hl', hb', h'⟩ =>
    ⟨hc.both hr hr' hskips hc', ⟨hl, hl'⟩, stmtsMeet_both hr hr' hskips hb hb',
      branchesMeet_both hr hr' hskips h h'⟩

theorem casesMeet_both (hr : r.Plain) (hr' : r'.Plain) (hskips : r'.skips = r.skips) :
    ∀ {cs : List Case}, casesMeet r cs → casesMeet r' cs → casesMeet (r.both r') cs
  | [], _, _ => trivial
  | ⟨_, _, _⟩ :: _, ⟨h₁, h₂, hl, hb, h⟩, ⟨h₁', h₂', hl', hb', h'⟩ =>
    ⟨h₁.both hr hr' hskips h₁', fun e he => (h₂ e he).both hr hr' hskips (h₂' e he), ⟨hl, hl'⟩,
      stmtsMeet_both hr hr' hskips hb hb', casesMeet_both hr hr' hskips h h'⟩

theorem functionsMeet_both (hr : r.Plain) (hr' : r'.Plain) (hskips : r'.skips = r.skips) :
    ∀ {fs : List FunctionDef}, functionsMeet r fs → functionsMeet r' fs →
      functionsMeet (r.both r') fs
  | [], _, _ => trivial
  | ⟨_, _, _, _, _, _, _⟩ :: _, ⟨hl, hb, h⟩, ⟨hl', hb', h'⟩ =>
    ⟨⟨hl, hl'⟩, stmtsMeet_both hr hr' hskips hb hb', functionsMeet_both hr hr' hskips h h'⟩

end

end Both

/-! ### Checking a rule -/

/-- **A rule that can be checked.** -/
class Rule.Decides (r : Rule) where
  expr : DecidablePred r.expr
  stmt : DecidablePred r.stmt
  list : DecidablePred r.list
  atom : ∀ op left right, Decidable (r.atom op left right)
  whole : ∀ target value, Decidable (r.whole target value)

section Decides

variable (r : Rule) [hr : r.Decides]

instance : DecidablePred r.expr := hr.expr
instance : DecidablePred r.stmt := hr.stmt
instance : DecidablePred r.list := hr.list
instance (op : BinaryOp) (left right : Expr) : Decidable (r.atom op left right) :=
  hr.atom op left right
instance (target : VarRef) (value : Expr) : Decidable (r.whole target value) :=
  hr.whole target value

mutual

def Expr.decideMeets : ∀ e : Expr, Decidable (e.Meets r)
  | .binary _ left right _ =>
    have := left.decideMeets
    have := right.decideMeets
    inferInstanceAs (Decidable (_ ∨ _ ∧ _ ∧ _))
  | .unary _ operand _ =>
    have := operand.decideMeets
    inferInstanceAs (Decidable (_ ∧ _))
  | .var _ subscripts _ =>
    have := decideExprsMeet subscripts
    inferInstanceAs (Decidable (_ ∧ _))
  | .call name args _ _ _ =>
    have := decideArgsMeet (r.skips name.name) args
    inferInstanceAs (Decidable (_ ∧ _))
  | .int _ _ | .real _ _ | .str _ _ | .bool _ _ | .raw _ _ =>
    inferInstanceAs (Decidable (r.expr _))

def decideExprsMeet : ∀ es : List Expr, Decidable (exprsMeet r es)
  | [] => inferInstanceAs (Decidable True)
  | e :: es =>
    have := e.decideMeets
    have := decideExprsMeet es
    inferInstanceAs (Decidable (_ ∧ _))

def decideArgsMeet (skip : Bool) : ∀ es : List Expr, Decidable (argsMeet r skip es)
  | [] => inferInstanceAs (Decidable True)
  | e :: es =>
    have := e.decideMeets
    have := decideExprsMeet es
    inferInstanceAs (Decidable ((_ ∨ _) ∧ _))

end

instance : DecidablePred (Expr.Meets r) := Expr.decideMeets r
instance : DecidablePred (exprsMeet r) := decideExprsMeet r
instance (skip : Bool) : DecidablePred (argsMeet r skip) := decideArgsMeet r skip
instance (v : VarRef) : Decidable (v.Meets r) := inferInstanceAs (Decidable (v.toExpr.Meets r))

instance : ∀ i : Initializer, Decidable (i.Meets r)
  | .single e => inferInstanceAs (Decidable (e.Meets r))
  | .list es => inferInstanceAs (Decidable (exprsMeet r es))

instance (d : Declaration) : Decidable (d.Meets r) := inferInstanceAs (Decidable (_ ∧ _ ∧ _))

mutual

def Stmt.decideMeets : ∀ s : Stmt, Decidable (s.Meets r)
  | ⟨.property _ functions, _, _⟩ =>
    have := decideFunctionsMeet functions
    inferInstanceAs (Decidable (_ ∧ _))
  | ⟨.synonym _ _ _, _, _⟩ | ⟨.declare _, _, _⟩ | ⟨.call _, _, _⟩ =>
    inferInstanceAs (Decidable (_ ∧ _))
  | ⟨.assign _ _, _, _⟩ => inferInstanceAs (Decidable (_ ∨ _ ∧ _ ∧ _))
  | ⟨.whileLoop _ body, _, _⟩ =>
    have := decideStmtsMeet body
    inferInstanceAs (Decidable (_ ∧ _ ∧ _ ∧ _))
  | ⟨.forLoop _ _ _ _ _ body, _, _⟩ =>
    have := decideStmtsMeet body
    inferInstanceAs (Decidable (_ ∧ _ ∧ _ ∧ _ ∧ (∀ e ∈ _, _) ∧ _ ∧ _))
  | ⟨.family _ body, _, _⟩ =>
    have := decideStmtsMeet body
    inferInstanceAs (Decidable (_ ∧ _ ∧ _))
  | ⟨.ifChain branches otherwise, _, _⟩ =>
    have := decideBranchesMeet branches
    have := decideStmtsMeet otherwise
    inferInstanceAs (Decidable (_ ∧ _ ∧ _ ∧ _))
  | ⟨.select _ cases, _, _⟩ =>
    have := decideCasesMeet cases
    inferInstanceAs (Decidable (_ ∧ _ ∧ _))

def decideStmtsMeet : ∀ ss : List Stmt, Decidable (stmtsMeet r ss)
  | [] => inferInstanceAs (Decidable True)
  | s :: ss =>
    have := s.decideMeets
    have := decideStmtsMeet ss
    inferInstanceAs (Decidable (_ ∧ _))

def decideBranchesMeet : ∀ bs : List Branch, Decidable (branchesMeet r bs)
  | [] => inferInstanceAs (Decidable True)
  | ⟨_, body⟩ :: rest =>
    have := decideStmtsMeet body
    have := decideBranchesMeet rest
    inferInstanceAs (Decidable (_ ∧ _ ∧ _ ∧ _))

def decideCasesMeet : ∀ cs : List Case, Decidable (casesMeet r cs)
  | [] => inferInstanceAs (Decidable True)
  | ⟨_, _, body⟩ :: rest =>
    have := decideStmtsMeet body
    have := decideCasesMeet rest
    inferInstanceAs (Decidable (_ ∧ (∀ e ∈ _, _) ∧ _ ∧ _ ∧ _))

def decideFunctionsMeet : ∀ fs : List FunctionDef, Decidable (functionsMeet r fs)
  | [] => inferInstanceAs (Decidable True)
  | ⟨_, _, _, body, _, _, _⟩ :: rest =>
    have := decideStmtsMeet body
    have := decideFunctionsMeet rest
    inferInstanceAs (Decidable (_ ∧ _ ∧ _))

end

instance : DecidablePred (stmtsMeet r) := decideStmtsMeet r

end Decides

/-! ### The same construct with other parts -/

/-- Values of a declaration in the same form. -/
def Initializer.Reshaped : Initializer → Initializer → Prop
  | .single _, .single _ => True
  | .list es, .list es' => es'.length = es.length
  | _, _ => False

/-- A declaration of the same name and form, with other expressions. -/
structure Declaration.Reshaped (d d' : Declaration) : Prop where
  name : d'.name = d.name
  modifiers : d'.modifiers = d.modifiers
  size : d'.size.isSome = d.size.isSome
  params : d'.params.length = d.params.length
  init : Option.Rel Initializer.Reshaped d.init d'.init

/-- **The same construct with other parts.** Assignments and calls are left out, since they
may become something else. -/
inductive StmtKind.Reshaped : StmtKind → StmtKind → Prop
  | property {name fs fs'} (h : List.Forall₂ (fun f f' => f' = { f with body := f'.body }) fs fs') :
    Reshaped (.property name fs) (.property name fs')
  | synonym {name indices target target'} :
    Reshaped (.synonym name indices target) (.synonym name indices target')
  | declare {d d'} (h : d.Reshaped d') : Reshaped (.declare d) (.declare d')
  | whileLoop {cond cond' body body'} : Reshaped (.whileLoop cond body) (.whileLoop cond' body')
  | forLoop {var var' start start' stop stop' step step' downto body body'}
    (hstep : step'.isSome = step.isSome) :
    Reshaped (.forLoop var start stop step downto body)
      (.forLoop var' start' stop' step' downto body')
  | family {name body body'} : Reshaped (.family name body) (.family name body')
  | ifChain {bs bs' body body'} (h : bs'.length = bs.length) :
    Reshaped (.ifChain bs body) (.ifChain bs' body')
  | select {subject subject' cs cs'}
    (h : List.Forall₂ (fun c c' => c'.stop.isSome = c.stop.isSome) cs cs') :
    Reshaped (.select subject cs) (.select subject' cs')

end FlatScript
