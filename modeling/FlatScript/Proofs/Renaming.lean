import FlatScript.Proofs.References
import FlatScript.Syntax.Rename

/-!
# Rules and renaming

A script that is renamed has the same nodes with other names. Renaming carries one rule over
to another one when it does so for single nodes, and it renames what a script declares. A renaming
that changes no name changes nothing.
-/

namespace FlatScript.Renaming

variable (f : Renaming)

@[simp] theorem length_exprs (es : List Expr) : (f.exprs es).length = es.length := by
  induction es with
  | nil => simp [exprs]
  | cons e es ih => simp [exprs, ih]

@[simp] theorem length_branches (bs : List Branch) : (f.branches bs).length = bs.length := by
  induction bs with
  | nil => simp [branches]
  | cons b bs ih =>
    obtain ⟨cond, body⟩ := b
    simp [branches, ih]

theorem exprs_eq_map (es : List Expr) : f.exprs es = es.map f.expr := by
  induction es with
  | nil => simp [exprs]
  | cons e es ih => simp [exprs, ih]

theorem stmts_eq_map (ss : List Stmt) : f.stmts ss = ss.map f.stmt := by
  induction ss with
  | nil => simp [stmts]
  | cons s ss ih => simp [stmts, ih]

theorem stmts_append (ss ss' : List Stmt) : f.stmts (ss ++ ss') = f.stmts ss ++ f.stmts ss' := by
  simp [stmts_eq_map]

/-- **A renaming carries one rule over to another.** -/
structure Carries (r r' : Rule) : Prop where
  expr : ∀ {e}, r.expr e → r'.expr (f.expr e)
  stmt : ∀ {k} span trace, r.stmt k → r'.stmt (f.stmt ⟨k, span, trace⟩).kind
  list : ∀ {ss}, r.list ss → r'.list (f.stmts ss)
  skipsExpr : ∀ {name args isProcedure usingCall span},
    r.expr (.call name args isProcedure usingCall span) → r.skips name.name = true →
    r'.skips (f.name name).name = true
  skipsStmt : ∀ {c}, r.stmt (.call c) → r.skips c.name.name = true →
    r'.skips (f.name c.name).name = true
  atom : ∀ {op left right}, r.atom op left right → r'.atom op (f.expr left) (f.expr right)
  whole : ∀ {target value}, r.whole target value → r'.whole (f.varRef target) (f.expr value)

namespace Carries

variable {f} {r r' : Rule}

mutual

theorem ofExpr (hf : f.Carries r r') : ∀ e : Expr, e.Meets r → (f.expr e).Meets r'
  | .binary _ _ _ _, .inl h => by
    simp only [Renaming.expr]
    exact .inl (hf.atom h)
  | .binary _ left right _, .inr ⟨h, hl, hr⟩ => by
    have hnode := hf.expr h
    simp only [Renaming.expr] at hnode ⊢
    exact .inr ⟨hnode, ofExpr hf left hl, ofExpr hf right hr⟩
  | .unary _ operand _, ⟨h, ho⟩ => by
    have hnode := hf.expr h
    simp only [Renaming.expr] at hnode ⊢
    exact ⟨hnode, ofExpr hf operand ho⟩
  | .var _ subscripts _, ⟨h, hs⟩ => by
    have hnode := hf.expr h
    simp only [Renaming.expr] at hnode ⊢
    exact ⟨hnode, ofExprs hf subscripts hs⟩
  | .call _ args _ _ _, ⟨h, ha⟩ => by
    have hnode := hf.expr h
    simp only [Renaming.expr] at hnode ⊢
    exact ⟨hnode, ofArgs hf args (hf.skipsExpr h) ha⟩
  | .int _ _, h | .real _ _, h | .str _ _, h | .bool _ _, h | .raw _ _, h => by
    have hnode := hf.expr h
    simp only [Renaming.expr] at hnode ⊢
    exact hnode

theorem ofExprs (hf : f.Carries r r') : ∀ es : List Expr, exprsMeet r es → exprsMeet r' (f.exprs es)
  | [], _ => by
    simp only [Renaming.exprs]
    trivial
  | e :: es, ⟨h, hs⟩ => by
    simp only [Renaming.exprs]
    exact ⟨ofExpr hf e h, ofExprs hf es hs⟩

theorem ofArgs (hf : f.Carries r r') {skip skip' : Bool} :
    ∀ es : List Expr, (skip = true → skip' = true) → argsMeet r skip es →
      argsMeet r' skip' (f.exprs es)
  | [], _, _ => by
    simp only [Renaming.exprs]
    trivial
  | e :: es, hskip, ⟨h, hs⟩ => by
    simp only [Renaming.exprs]
    exact ⟨h.imp hskip (ofExpr hf e), ofExprs hf es hs⟩

end

theorem ofOption (hf : f.Carries r r') {o : Option Expr} (h : ∀ e ∈ o, e.Meets r) :
    ∀ e ∈ o.map f.expr, e.Meets r' := by
  intro e he
  obtain ⟨e₀, he₀, rfl⟩ := Option.map_eq_some_iff.mp he
  exact ofExpr hf e₀ (h e₀ he₀)

theorem ofVarRef (hf : f.Carries r r') {v : VarRef} (h : v.Meets r) : (f.varRef v).Meets r' := by
  have hv := ofExpr hf _ h
  simp only [VarRef.toExpr, Renaming.expr] at hv
  exact hv

theorem ofDeclaration (hf : f.Carries r r') {d : Declaration} (h : d.Meets r) :
    (f.declaration d).Meets r' := by
  refine ⟨ofOption hf h.1, ofExprs hf _ h.2.1, fun i hi => ?_⟩
  obtain ⟨i₀, hi₀, rfl⟩ := Option.map_eq_some_iff.mp hi
  have hmeets := h.2.2 i₀ hi₀
  cases i₀ with
  | single e => exact ofExpr hf e hmeets
  | list es => exact ofExprs hf es hmeets

mutual

theorem ofStmt (hf : f.Carries r r') : ∀ s : Stmt, s.Meets r → (f.stmt s).Meets r'
  | ⟨.property _ fs, span, trace⟩, ⟨h, hfs⟩ => by
    have hnode := hf.stmt span trace h
    simp only [Renaming.stmt] at hnode ⊢
    exact ⟨hnode, ofFunctions hf fs hfs⟩
  | ⟨.synonym _ _ _, span, trace⟩, ⟨h, ht⟩ => by
    have hnode := hf.stmt span trace h
    simp only [Renaming.stmt] at hnode ⊢
    exact ⟨hnode, ofVarRef hf ht⟩
  | ⟨.declare _, span, trace⟩, ⟨h, hd⟩ => by
    have hnode := hf.stmt span trace h
    simp only [Renaming.stmt] at hnode ⊢
    exact ⟨hnode, ofDeclaration hf hd⟩
  | ⟨.assign _ _, _, _⟩, .inl h => by
    simp only [Renaming.stmt]
    exact .inl (hf.whole h)
  | ⟨.assign _ value, span, trace⟩, .inr ⟨h, ht, hv⟩ => by
    have hnode := hf.stmt span trace h
    simp only [Renaming.stmt] at hnode ⊢
    exact .inr ⟨hnode, ofVarRef hf ht, ofExpr hf value hv⟩
  | ⟨.call c, span, trace⟩, ⟨h, ha⟩ => by
    have hnode := hf.stmt span trace h
    simp only [Renaming.stmt] at hnode ⊢
    exact ⟨hnode, ofArgs hf c.args (hf.skipsStmt h) ha⟩
  | ⟨.whileLoop cond body, span, trace⟩, ⟨h, hc, hl, hb⟩ => by
    have hnode := hf.stmt span trace h
    simp only [Renaming.stmt] at hnode ⊢
    exact ⟨hnode, ofExpr hf cond hc, hf.list hl, ofStmts hf body hb⟩
  | ⟨.forLoop _ start stop _ _ body, span, trace⟩, ⟨h, hv, h₁, h₂, h₃, hl, hb⟩ => by
    have hnode := hf.stmt span trace h
    simp only [Renaming.stmt] at hnode ⊢
    exact ⟨hnode, ofVarRef hf hv, ofExpr hf start h₁, ofExpr hf stop h₂, ofOption hf h₃,
      hf.list hl, ofStmts hf body hb⟩
  | ⟨.family _ body, span, trace⟩, ⟨h, hl, hb⟩ => by
    have hnode := hf.stmt span trace h
    simp only [Renaming.stmt] at hnode ⊢
    exact ⟨hnode, hf.list hl, ofStmts hf body hb⟩
  | ⟨.ifChain bs otherwise, span, trace⟩, ⟨h, hbs, hl, hb⟩ => by
    have hnode := hf.stmt span trace h
    simp only [Renaming.stmt] at hnode ⊢
    exact ⟨hnode, ofBranches hf bs hbs, hf.list hl, ofStmts hf otherwise hb⟩
  | ⟨.select subject cs, span, trace⟩, ⟨h, hs, hcs⟩ => by
    have hnode := hf.stmt span trace h
    simp only [Renaming.stmt] at hnode ⊢
    exact ⟨hnode, ofExpr hf subject hs, ofCases hf cs hcs⟩

/-- **Renamed statements meet the other rule.** -/
theorem ofStmts (hf : f.Carries r r') :
    ∀ ss : List Stmt, stmtsMeet r ss → stmtsMeet r' (f.stmts ss)
  | [], _ => by
    simp only [Renaming.stmts]
    trivial
  | s :: ss, ⟨h, hs⟩ => by
    simp only [Renaming.stmts]
    exact ⟨ofStmt hf s h, ofStmts hf ss hs⟩

theorem ofBranches (hf : f.Carries r r') :
    ∀ bs : List Branch, branchesMeet r bs → branchesMeet r' (f.branches bs)
  | [], _ => by
    simp only [Renaming.branches]
    trivial
  | ⟨cond, body⟩ :: rest, ⟨hc, hl, hb, h⟩ => by
    simp only [Renaming.branches]
    exact ⟨ofExpr hf cond hc, hf.list hl, ofStmts hf body hb, ofBranches hf rest h⟩

theorem ofCases (hf : f.Carries r r') :
    ∀ cs : List Case, casesMeet r cs → casesMeet r' (f.cases cs)
  | [], _ => by
    simp only [Renaming.cases]
    trivial
  | ⟨start, _, body⟩ :: rest, ⟨h₁, h₂, hl, hb, h⟩ => by
    simp only [Renaming.cases]
    exact ⟨ofExpr hf start h₁, ofOption hf h₂, hf.list hl, ofStmts hf body hb, ofCases hf rest h⟩

theorem ofFunctions (hf : f.Carries r r') :
    ∀ fs : List FunctionDef, functionsMeet r fs → functionsMeet r' (f.functions fs)
  | [], _ => by
    simp only [Renaming.functions]
    trivial
  | ⟨_, _, _, body, _, _, _⟩ :: rest, ⟨hl, hb, h⟩ => by
    simp only [Renaming.functions]
    exact ⟨hf.list hl, ofStmts hf body hb, ofFunctions hf rest h⟩

end

end Carries

/-! ### Declared names -/

mutual

theorem stmt_declared : ∀ s : Stmt, (f.stmt s).declared = s.declared.map f.name
  | ⟨.property _ fs, _, _⟩ => by
    simp only [Renaming.stmt, Stmt.declared, functions_declared fs]
  | ⟨.declare _, _, _⟩ => by simp [Renaming.stmt, Stmt.declared, Renaming.declaration]
  | ⟨.whileLoop _ body, _, _⟩ | ⟨.forLoop _ _ _ _ _ body, _, _⟩ | ⟨.family _ body, _, _⟩ => by
    simp only [Renaming.stmt, Stmt.declared, stmts_declared body]
  | ⟨.ifChain bs otherwise, _, _⟩ => by
    simp only [Renaming.stmt, Stmt.declared, branches_declared bs, stmts_declared otherwise,
      List.map_append]
  | ⟨.select _ cs, _, _⟩ => by simp only [Renaming.stmt, Stmt.declared, cases_declared cs]
  | ⟨.synonym _ _ _, _, _⟩ | ⟨.assign _ _, _, _⟩ | ⟨.call _, _, _⟩ => by
    simp only [Renaming.stmt, Stmt.declared, List.map_nil]

/-- **Renaming renames what is declared.** -/
theorem stmts_declared : ∀ ss : List Stmt,
    stmtsDeclared (f.stmts ss) = (stmtsDeclared ss).map f.name
  | [] => by simp only [Renaming.stmts, stmtsDeclared, List.map_nil]
  | s :: ss => by
    simp only [Renaming.stmts, stmtsDeclared, stmt_declared s, stmts_declared ss, List.map_append]

theorem branches_declared : ∀ bs : List Branch,
    branchesDeclared (f.branches bs) = (branchesDeclared bs).map f.name
  | [] => by simp only [Renaming.branches, branchesDeclared, List.map_nil]
  | ⟨_, body⟩ :: rest => by
    simp only [Renaming.branches, branchesDeclared, stmts_declared body, branches_declared rest,
      List.map_append]

theorem cases_declared : ∀ cs : List Case,
    casesDeclared (f.cases cs) = (casesDeclared cs).map f.name
  | [] => by simp only [Renaming.cases, casesDeclared, List.map_nil]
  | ⟨_, _, body⟩ :: rest => by
    simp only [Renaming.cases, casesDeclared, stmts_declared body, cases_declared rest,
      List.map_append]

theorem functions_declared : ∀ fs : List FunctionDef,
    functionsDeclared (f.functions fs) = (functionsDeclared fs).map f.name
  | [] => by simp only [Renaming.functions, functionsDeclared, List.map_nil]
  | ⟨_, _, _, body, _, _, _⟩ :: rest => by
    simp only [Renaming.functions, functionsDeclared, stmts_declared body,
      functions_declared rest, List.map_append]

end

theorem block_body (b : Block) : (f.block b).body = f.stmts b.body := by
  cases b <;> rfl

theorem script_declared (s : Script) : (f.script s).declared = s.declared.map f.name := by
  simp only [Script.declared, Renaming.script, List.flatMap_map, List.map_flatMap, block_body,
    stmts_declared]

/-! ### References -/

/-- **What is asked of references before a renaming**, so that it holds behind it. A function
that takes its first argument as a key has to stay one. -/
def refersThrough (P : Ident → Prop) : Rule where
  expr
    | .var i _ _ => P (f.name i)
    | .call name _ _ _ _ => Builtins.keepsFirstArgument name.name = true →
      Builtins.keepsFirstArgument (f.name name).name = true
    | _ => True
  stmt
    | .call c => Builtins.keepsFirstArgument c.name.name = true →
      Builtins.keepsFirstArgument (f.name c.name).name = true
    | _ => True
  list _ := True
  skips := Builtins.keepsFirstArgument
  atom _ _ _ := False

theorem carries_refersThrough (P : Ident → Prop) : f.Carries (f.refersThrough P) (refer P) where
  expr {e} h := by
    cases e with
    | var i _ _ =>
      simp only [Renaming.expr]
      exact h
    | _ =>
      simp only [Renaming.expr]
      trivial
  stmt _ _ _ := trivial
  list _ := trivial
  skipsExpr h := h
  skipsStmt h := h
  atom h := h
  whole h := h

/-! ### No change -/

/-- The renaming that leaves all names as they are. -/
def unchanged : Renaming := ⟨id, id⟩

mutual

theorem expr_unchanged : ∀ e : Expr, unchanged.expr e = e
  | .binary op left right span => by
    simp only [expr, expr_unchanged left, expr_unchanged right]
  | .unary op operand span => by simp only [expr, expr_unchanged operand]
  | .var i subscripts span => by
    simp only [expr, exprs_unchanged subscripts]
    rfl
  | .call name args isProcedure usingCall span => by
    simp only [expr, exprs_unchanged args]
    rfl
  | .int _ _ | .real _ _ | .str _ _ | .bool _ _ | .raw _ _ => by simp only [expr]

theorem exprs_unchanged : ∀ es : List Expr, unchanged.exprs es = es
  | [] => by simp only [exprs]
  | e :: es => by simp only [exprs, expr_unchanged e, exprs_unchanged es]

end

theorem option_unchanged (o : Option Expr) : o.map unchanged.expr = o := by
  cases o with
  | none => rfl
  | some e => simp only [Option.map_some, expr_unchanged]

theorem varRef_unchanged (v : VarRef) : unchanged.varRef v = v := by
  simp only [varRef, exprs_unchanged]
  rfl

theorem declaration_unchanged (d : Declaration) : unchanged.declaration d = d := by
  have hinit : d.init.map unchanged.initializer = d.init := by
    rcases d.init with _ | (e | es)
    · rfl
    · simp only [Option.map_some, initializer, expr_unchanged]
    · simp only [Option.map_some, initializer, exprs_unchanged]
  simp only [declaration, option_unchanged, exprs_unchanged, hinit]
  rfl

mutual

theorem stmt_unchanged : ∀ s : Stmt, unchanged.stmt s = s
  | ⟨.property _ fs, _, _⟩ => by simp only [stmt, functions_unchanged fs]
  | ⟨.synonym _ _ target, _, _⟩ => by simp only [stmt, varRef_unchanged]
  | ⟨.declare d, _, _⟩ => by simp only [stmt, declaration_unchanged]
  | ⟨.assign target value, _, _⟩ => by simp only [stmt, varRef_unchanged, expr_unchanged]
  | ⟨.call c, _, _⟩ => by
    simp only [stmt, call, exprs_unchanged]
    rfl
  | ⟨.whileLoop cond body, _, _⟩ => by simp only [stmt, expr_unchanged, stmts_unchanged body]
  | ⟨.forLoop var start stop step _ body, _, _⟩ => by
    simp only [stmt, varRef_unchanged, expr_unchanged, option_unchanged, stmts_unchanged body]
  | ⟨.family _ body, _, _⟩ => by simp only [stmt, stmts_unchanged body]
  | ⟨.ifChain bs otherwise, _, _⟩ => by
    simp only [stmt, branches_unchanged bs, stmts_unchanged otherwise]
  | ⟨.select subject cs, _, _⟩ => by simp only [stmt, expr_unchanged, cases_unchanged cs]

/-- **A renaming that changes no name changes nothing.** -/
theorem stmts_unchanged : ∀ ss : List Stmt, unchanged.stmts ss = ss
  | [] => by simp only [stmts]
  | s :: ss => by simp only [stmts, stmt_unchanged s, stmts_unchanged ss]

theorem branches_unchanged : ∀ bs : List Branch, unchanged.branches bs = bs
  | [] => by simp only [branches]
  | ⟨cond, body⟩ :: rest => by
    simp only [branches, expr_unchanged, stmts_unchanged body, branches_unchanged rest]

theorem cases_unchanged : ∀ cs : List Case, unchanged.cases cs = cs
  | [] => by simp only [cases]
  | ⟨start, stop, body⟩ :: rest => by
    simp only [cases, expr_unchanged, option_unchanged, stmts_unchanged body, cases_unchanged rest]

theorem functions_unchanged : ∀ fs : List FunctionDef, unchanged.functions fs = fs
  | [] => by simp only [functions]
  | ⟨name, params, result, body, isTaskfunc, isOverride, span⟩ :: rest => by
    simp only [functions, stmts_unchanged body, functions_unchanged rest]
    rfl

end

end FlatScript.Renaming
