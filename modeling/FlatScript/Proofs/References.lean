import FlatScript.Proofs.Leaves
import FlatScript.Syntax.Script

/-!
# The variables of a script

Which variables a script refers to, and which ones it declares, are two lists of names.

* `FlatScript.stmtsReferences` are the references of statements. The first argument of a
  function that takes it as a key is none, and neither are the names of functions.
* `FlatScript.stmtsDeclared` are the names that statements declare, at any depth.

`FlatScript.refer` turns what is asked of every reference into a rule, so that what is known of
rules applies to references.
-/

namespace FlatScript

/-! ### References -/

mutual

/-- **The references of an expression.** -/
def Expr.references : Expr → List Ident
  | .binary _ left right _ => left.references ++ right.references
  | .unary _ operand _ => operand.references
  | .var i subscripts _ => i :: exprsReferences subscripts
  | .call name args _ _ _ => argsReferences (Builtins.keepsFirstArgument name.name) args
  | .int _ _ | .real _ _ | .str _ _ | .bool _ _ | .raw _ _ => []

/-- The references of expressions. -/
def exprsReferences : List Expr → List Ident
  | [] => []
  | e :: es => e.references ++ exprsReferences es

/-- The references of arguments, the first of which may be no expression. -/
def argsReferences (keepFirst : Bool) : List Expr → List Ident
  | [] => []
  | e :: es => (if keepFirst then [] else e.references) ++ exprsReferences es

end

/-- The references of the values of a declaration. -/
def Initializer.references : Initializer → List Ident
  | .single e => e.references
  | .list es => exprsReferences es

/-- The references of an expression that may be missing. -/
def optionReferences (o : Option Expr) : List Ident := (o.map Expr.references).getD []

/-- The references of a declaration. -/
def Declaration.references (d : Declaration) : List Ident :=
  optionReferences d.size ++ exprsReferences d.params ++
    (d.init.map Initializer.references).getD []

mutual

/-- The references of a statement. -/
def Stmt.references : Stmt → List Ident
  | ⟨.property _ functions, _, _⟩ => functionsReferences functions
  | ⟨.synonym _ _ target, _, _⟩ => target.toExpr.references
  | ⟨.declare d, _, _⟩ => d.references
  | ⟨.assign target value, _, _⟩ => target.toExpr.references ++ value.references
  | ⟨.call c, _, _⟩ => argsReferences (Builtins.keepsFirstArgument c.name.name) c.args
  | ⟨.whileLoop cond body, _, _⟩ => cond.references ++ stmtsReferences body
  | ⟨.forLoop var start stop step _ body, _, _⟩ =>
    var.toExpr.references ++ start.references ++ stop.references ++ optionReferences step ++
      stmtsReferences body
  | ⟨.family _ body, _, _⟩ => stmtsReferences body
  | ⟨.ifChain branches otherwise, _, _⟩ => branchesReferences branches ++ stmtsReferences otherwise
  | ⟨.select subject cases, _, _⟩ => subject.references ++ casesReferences cases

/-- **The references of statements.** -/
def stmtsReferences : List Stmt → List Ident
  | [] => []
  | s :: ss => s.references ++ stmtsReferences ss

/-- The references of branches. -/
def branchesReferences : List Branch → List Ident
  | [] => []
  | ⟨cond, body⟩ :: rest => cond.references ++ stmtsReferences body ++ branchesReferences rest

/-- The references of cases. -/
def casesReferences : List Case → List Ident
  | [] => []
  | ⟨start, stop, body⟩ :: rest =>
    start.references ++ optionReferences stop ++ stmtsReferences body ++ casesReferences rest

/-- The references of functions. -/
def functionsReferences : List FunctionDef → List Ident
  | [] => []
  | ⟨_, _, _, body, _, _, _⟩ :: rest => stmtsReferences body ++ functionsReferences rest

end

/-- **The references of a block**, among them the control of a callback. -/
def Block.references : Block → List Ident
  | .callback c => c.control.toList ++ stmtsReferences c.body
  | .function f => stmtsReferences f.body

/-! ### Declared names -/

mutual

/-- The names that a statement declares. -/
def Stmt.declared : Stmt → List Ident
  | ⟨.property _ functions, _, _⟩ => functionsDeclared functions
  | ⟨.declare d, _, _⟩ => [d.name]
  | ⟨.whileLoop _ body, _, _⟩ | ⟨.forLoop _ _ _ _ _ body, _, _⟩ | ⟨.family _ body, _, _⟩ =>
    stmtsDeclared body
  | ⟨.ifChain branches otherwise, _, _⟩ => branchesDeclared branches ++ stmtsDeclared otherwise
  | ⟨.select _ cases, _, _⟩ => casesDeclared cases
  | ⟨.synonym _ _ _, _, _⟩ | ⟨.assign _ _, _, _⟩ | ⟨.call _, _, _⟩ => []

/-- **The names that statements declare.** -/
def stmtsDeclared : List Stmt → List Ident
  | [] => []
  | s :: ss => s.declared ++ stmtsDeclared ss

/-- The names that branches declare. -/
def branchesDeclared : List Branch → List Ident
  | [] => []
  | ⟨_, body⟩ :: rest => stmtsDeclared body ++ branchesDeclared rest

/-- The names that cases declare. -/
def casesDeclared : List Case → List Ident
  | [] => []
  | ⟨_, _, body⟩ :: rest => stmtsDeclared body ++ casesDeclared rest

/-- The names that functions declare. -/
def functionsDeclared : List FunctionDef → List Ident
  | [] => []
  | ⟨_, _, _, body, _, _, _⟩ :: rest => stmtsDeclared body ++ functionsDeclared rest

end

/-- **The names that a script declares.** -/
def Script.declared (s : Script) : List Ident := s.blocks.flatMap fun b => stmtsDeclared b.body

/-- **A variable is declared** under one of some names, with a sigil. Variables are compared in
lower case. -/
def Declares (names : List Ident) (v : String) : Prop :=
  ∃ i ∈ names, i.sigil.isSome = true ∧ Text.lower i.full = v

theorem Declares.mono {names names' : List Ident} {v : String} (h : Declares names v)
    (hsub : names ⊆ names') : Declares names' v := by
  obtain ⟨i, hi, hv⟩ := h
  exact ⟨i, hsub hi, hv⟩

@[simp] theorem stmtsDeclared_append (ss ss' : List Stmt) :
    stmtsDeclared (ss ++ ss') = stmtsDeclared ss ++ stmtsDeclared ss' := by
  induction ss with
  | nil => rfl
  | cons s ss ih => simp [stmtsDeclared, ih]

/-! ### References and rules -/

/-- **The rule that something holds of every reference.** -/
def refer (P : Ident → Prop) : Rule where
  expr
    | .var i _ _ => P i
    | _ => True
  stmt _ := True
  list _ := True
  skips := Builtins.keepsFirstArgument
  atom _ _ _ := False

section Refer

variable {P : Ident → Prop}

mutual

theorem Expr.meets_refer : ∀ e : Expr, e.Meets (refer P) ↔ ∀ i ∈ e.references, P i
  | .binary _ left right _ => by
    simp [Expr.Meets, refer, Expr.references, or_imp, forall_and, ← left.meets_refer,
      ← right.meets_refer]
  | .unary _ operand _ => by simp [Expr.Meets, refer, Expr.references, ← operand.meets_refer]
  | .var i subscripts _ => by
    simp [Expr.Meets, refer, Expr.references, ← exprsMeet_refer subscripts]
  | .call name args _ _ _ => by
    simp only [Expr.Meets, Expr.references, ← argsMeet_refer, refer, true_and]
  | .int _ _ | .real _ _ | .str _ _ | .bool _ _ | .raw _ _ => by
    simp [Expr.Meets, refer, Expr.references]

theorem exprsMeet_refer : ∀ es : List Expr,
    exprsMeet (refer P) es ↔ ∀ i ∈ exprsReferences es, P i
  | [] => by simp [exprsMeet, exprsReferences]
  | e :: es => by
    simp [exprsMeet, exprsReferences, or_imp, forall_and, ← e.meets_refer, ← exprsMeet_refer es]

theorem argsMeet_refer {keepFirst : Bool} : ∀ es : List Expr,
    argsMeet (refer P) keepFirst es ↔ ∀ i ∈ argsReferences keepFirst es, P i
  | [] => by simp [argsMeet, argsReferences]
  | e :: es => by
    cases keepFirst <;> simp [argsMeet, argsReferences, or_imp, forall_and, ← e.meets_refer,
      ← exprsMeet_refer es]

end

theorem optionMeets_refer (o : Option Expr) :
    (∀ e ∈ o, e.Meets (refer P)) ↔ ∀ i ∈ optionReferences o, P i := by
  cases o with
  | none => simp [optionReferences]
  | some e => simp [optionReferences, ← e.meets_refer]

theorem Declaration.meets_refer (d : Declaration) :
    d.Meets (refer P) ↔ ∀ i ∈ d.references, P i := by
  have hinit : (∀ x ∈ d.init, x.Meets (refer P)) ↔
      ∀ i ∈ (d.init.map Initializer.references).getD [], P i := by
    cases d.init with
    | none => simp
    | some x =>
      cases x with
      | single e => simp [Initializer.references, Initializer.Meets, ← e.meets_refer]
      | list es => simp [Initializer.references, Initializer.Meets, ← exprsMeet_refer es]
  simp only [Declaration.Meets, Declaration.references, List.forall_mem_append, hinit,
    optionMeets_refer, exprsMeet_refer, and_assoc]

mutual

theorem Stmt.meets_refer : ∀ s : Stmt, s.Meets (refer P) ↔ ∀ i ∈ s.references, P i
  | ⟨.property _ functions, _, _⟩ => by
    simp only [Stmt.Meets, Stmt.references, ← functionsMeet_refer functions]
    exact and_iff_right trivial
  | ⟨.synonym _ _ target, _, _⟩ => by
    simp only [Stmt.Meets, Stmt.references, ← Expr.meets_refer]
    exact and_iff_right trivial
  | ⟨.declare d, _, _⟩ => by
    simp only [Stmt.Meets, Stmt.references, ← d.meets_refer]
    exact and_iff_right trivial
  | ⟨.assign target value, _, _⟩ => by
    simp only [Stmt.Meets, Stmt.references, List.forall_mem_append, ← Expr.meets_refer]
    exact (or_iff_right id).trans (and_iff_right trivial)
  | ⟨.call c, _, _⟩ => by
    simp only [Stmt.Meets, Stmt.references, ← argsMeet_refer]
    exact and_iff_right trivial
  | ⟨.whileLoop cond body, _, _⟩ => by
    simp only [Stmt.Meets, Stmt.references, List.forall_mem_append, ← cond.meets_refer,
      ← stmtsMeet_refer body]
    simp [refer]
  | ⟨.forLoop var start stop step _ body, _, _⟩ => by
    simp only [Stmt.Meets, Stmt.references, List.forall_mem_append, ← Expr.meets_refer,
      ← optionMeets_refer, ← stmtsMeet_refer body, VarRef.Meets, and_assoc]
    simp [refer]
  | ⟨.family _ body, _, _⟩ => by
    simp only [Stmt.Meets, Stmt.references, ← stmtsMeet_refer body]
    simp [refer]
  | ⟨.ifChain branches otherwise, _, _⟩ => by
    simp only [Stmt.Meets, Stmt.references, List.forall_mem_append,
      ← branchesMeet_refer branches, ← stmtsMeet_refer otherwise]
    simp [refer]
  | ⟨.select subject cases, _, _⟩ => by
    simp only [Stmt.Meets, Stmt.references, List.forall_mem_append, ← subject.meets_refer,
      ← casesMeet_refer cases]
    simp [refer]

/-- **A rule on references**, by the list of them. -/
theorem stmtsMeet_refer : ∀ ss : List Stmt,
    stmtsMeet (refer P) ss ↔ ∀ i ∈ stmtsReferences ss, P i
  | [] => by simp [stmtsMeet, stmtsReferences]
  | s :: ss => by
    simp only [stmtsMeet, stmtsReferences, List.forall_mem_append, ← s.meets_refer,
      ← stmtsMeet_refer ss]

theorem branchesMeet_refer : ∀ bs : List Branch,
    branchesMeet (refer P) bs ↔ ∀ i ∈ branchesReferences bs, P i
  | [] => by simp [branchesMeet, branchesReferences]
  | ⟨cond, body⟩ :: rest => by
    simp only [branchesMeet, branchesReferences, List.forall_mem_append, ← cond.meets_refer,
      ← stmtsMeet_refer body, ← branchesMeet_refer rest, and_assoc]
    simp [refer]

theorem casesMeet_refer : ∀ cs : List Case,
    casesMeet (refer P) cs ↔ ∀ i ∈ casesReferences cs, P i
  | [] => by simp [casesMeet, casesReferences]
  | ⟨start, stop, body⟩ :: rest => by
    simp only [casesMeet, casesReferences, List.forall_mem_append, ← start.meets_refer,
      ← optionMeets_refer, ← stmtsMeet_refer body, ← casesMeet_refer rest, and_assoc]
    simp [refer]

theorem functionsMeet_refer : ∀ fs : List FunctionDef,
    functionsMeet (refer P) fs ↔ ∀ i ∈ functionsReferences fs, P i
  | [] => by simp [functionsMeet, functionsReferences]
  | ⟨_, _, _, body, _, _, _⟩ :: rest => by
    simp only [functionsMeet, functionsReferences, List.forall_mem_append,
      ← stmtsMeet_refer body, ← functionsMeet_refer rest]
    simp [refer]

end

end Refer

end FlatScript
