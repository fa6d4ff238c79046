import FlatScript.Folding.Script
import FlatScript.Proofs.References

/-!
# Rules and folding

Folding drops statements and operators, and puts literals in the place of expressions. What it
leaves is made of nodes that were there before, with fewer parts, and of literals. A rule that
allows for that, `FlatScript.Rule.Folds`, still holds of a script that is folded.
-/

namespace FlatScript

/-- **A rule that folding cannot break.** -/
structure Rule.Folds (r : Rule) : Prop where
  literal : ∀ {constants e v e'}, Expr.eval constants e = .ok v → v.toExpr? e.span = some e' →
    r.expr e'
  binary : ∀ {op left right span left' right'}, r.expr (.binary op left right span) →
    r.expr (.binary op left' right' span)
  unary : ∀ {op e span e'}, r.expr (.unary op e span) → r.expr (.unary op e' span)
  var : ∀ {i es span es'}, r.expr (.var i es span) → es'.length = es.length →
    r.expr (.var i es' span)
  call : ∀ {name args isProcedure usingCall span args'},
    r.expr (.call name args isProcedure usingCall span) → args'.length = args.length →
    r.expr (.call name args' isProcedure usingCall span)
  callStmt : ∀ {c args'}, r.stmt (.call c) → args'.length = c.args.length →
    r.stmt (.call { c with args := args' })
  assign : ∀ {target value es' value'}, r.stmt (.assign target value) →
    r.stmt (.assign { target with subscripts := es' } value')
  chain : ∀ {bs otherwise b bs' otherwise'}, r.stmt (.ifChain bs otherwise) →
    (b :: bs').length ≤ bs.length → r.stmt (.ifChain (b :: bs') otherwise')
  reshape : ∀ {k k'}, k.Reshaped k' → r.stmt k → r.stmt k'
  list : ∀ ss, r.list ss
  noAtom : ∀ {op left right}, ¬ r.atom op left right
  noWhole : ∀ {target value}, ¬ r.whole target value

namespace Folding

variable {r : Rule} {constants : Constants}

/-! ### Expressions -/

theorem meets_evaluated (hr : r.Folds) {e : Expr} (h : e.Meets r) :
    (evaluated constants e).Meets r := by
  unfold evaluated
  split
  · exact h
  · split
    · next v hv =>
      cases he : v.toExpr? e.span with
      | none => exact h
      | some e' =>
        have hnode := hr.literal hv he
        cases v <;> simp only [Value.toExpr?, Option.some.injEq, reduceCtorEq] at he <;> subst he <;>
          exact hnode
    · exact h

/-- The laws keep one of the operands, or both of them with the operator. -/
theorem simplify_cases (op : BinaryOp) (left right : Expr) (span : Span) :
    simplify op left right span = left ∨ simplify op left right span = right ∨
      simplify op left right span = .binary op left right span := by
  cases op <;> simp only [simplify, or_true]
  all_goals grind

theorem length_exprs (es : List Expr) : (exprs constants es).length = es.length := by
  induction es with
  | nil => simp only [exprs, List.length_nil]
  | cons e es ih => simp only [exprs, List.length_cons, ih]

mutual

theorem meets_expr (hr : r.Folds) : ∀ e : Expr, e.Meets r → (expr constants e).Meets r
  | .binary _ _ _ _, .inl h => (hr.noAtom h).elim
  | .binary op left right span, .inr ⟨h, hleft, hright⟩ => by
    simp only [expr]
    refine meets_evaluated hr ?_
    have hl := meets_expr hr left hleft
    have hrt := meets_expr hr right hright
    rcases simplify_cases op (expr constants left) (expr constants right) span with
      heq | heq | heq
    · rw [heq]
      exact hl
    · rw [heq]
      exact hrt
    · rw [heq]
      exact .inr ⟨hr.binary h, hl, hrt⟩
  | .unary _ operand _, ⟨h, ho⟩ => by
    simp only [expr]
    exact meets_evaluated hr ⟨hr.unary h, meets_expr hr operand ho⟩
  | .var _ subscripts _, ⟨h, hs⟩ => by
    simp only [expr]
    exact meets_evaluated hr ⟨hr.var h (length_exprs subscripts), meets_exprs hr subscripts hs⟩
  | .call _ args _ _ _, ⟨h, ha⟩ => by
    simp only [expr]
    exact ⟨hr.call h (length_exprs args), meets_args hr args ha⟩
  | .int _ _, h | .real _ _, h | .str _ _, h | .bool _ _, h | .raw _ _, h => by
    simp only [expr]
    exact h

theorem meets_exprs (hr : r.Folds) : ∀ es : List Expr, exprsMeet r es →
    exprsMeet r (exprs constants es)
  | [], _ => by
    simp only [exprs]
    trivial
  | e :: es, ⟨h, hs⟩ => by
    simp only [exprs]
    exact ⟨meets_expr hr e h, meets_exprs hr es hs⟩

theorem meets_args (hr : r.Folds) {skip : Bool} : ∀ es : List Expr, argsMeet r skip es →
    argsMeet r skip (exprs constants es)
  | [], _ => by
    simp only [exprs]
    trivial
  | e :: es, ⟨h, hs⟩ => by
    simp only [exprs]
    exact ⟨h.imp_right (meets_expr hr e), meets_exprs hr es hs⟩

end

theorem meets_option (hr : r.Folds) {o : Option Expr} (h : ∀ e ∈ o, e.Meets r) :
    ∀ e ∈ o.map (expr constants), e.Meets r := by
  intro e he
  obtain ⟨e₀, he₀, rfl⟩ := Option.map_eq_some_iff.mp he
  exact meets_expr hr e₀ (h e₀ he₀)

theorem meets_varRef (hr : r.Folds) {v : VarRef} (h : v.Meets r) :
    (varRef constants v).Meets r :=
  ⟨hr.var h.1 (length_exprs _), meets_exprs hr _ h.2⟩

theorem reshaped_declaration (d : Declaration) : d.Reshaped (declaration constants d) where
  name := rfl
  modifiers := rfl
  size := by simp [declaration]
  params := length_exprs _
  init := by
    simp only [declaration]
    cases d.init with
    | none => exact .none
    | some i =>
      refine .some ?_
      cases i with
      | single e => trivial
      | list es => exact length_exprs es

theorem meets_declaration (hr : r.Folds) {d : Declaration} (h : d.Meets r) :
    (declaration constants d).Meets r := by
  refine ⟨meets_option hr h.1, meets_exprs hr _ h.2.1, fun i hi => ?_⟩
  obtain ⟨i₀, hi₀, rfl⟩ := Option.map_eq_some_iff.mp hi
  have hmeets := h.2.2 i₀ hi₀
  cases i₀ with
  | single e => exact meets_expr hr e hmeets
  | list es => exact meets_exprs hr es hmeets

/-! ### Statements -/

/-- Folding drops branches, and adds none. -/
theorem length_branches_le (bs : List Branch) :
    (branches constants bs).1.length ≤ bs.length := by
  induction bs with
  | nil => simp [branches]
  | cons b rest ih =>
    obtain ⟨cond, body⟩ := b
    simp only [branches]
    split
    · simp
    · exact Nat.le_succ_of_le ih
    · exact Nat.succ_le_succ ih

theorem meets_chain (hr : r.Folds) {bs : List Branch} {otherwise : List Stmt}
    (h : r.stmt (.ifChain bs otherwise)) {bs' : List Branch} {otherwise' : List Stmt}
    (hlength : bs'.length ≤ bs.length) (hbs : branchesMeet r bs') (ho : stmtsMeet r otherwise')
    (span : Span) (trace : List Span) :
    stmtsMeet r (chain bs' otherwise' span trace) := by
  cases bs' with
  | nil => exact ho
  | cons b bs' => exact ⟨⟨hr.chain h hlength, hbs, hr.list _, ho⟩, trivial⟩

theorem meets_of_mem_cases {cs : List Case} (h : casesMeet r cs) {c : Case} (hc : c ∈ cs) :
    stmtsMeet r c.body := by
  induction cs with
  | nil => cases hc
  | cons c' cs ih =>
    obtain ⟨start, stop, body⟩ := c'
    obtain ⟨-, -, -, hbody, hrest⟩ := h
    rcases List.mem_cons.mp hc with rfl | hc
    · exact hbody
    · exact ih hrest hc

theorem meets_choose {subject : Expr} {cs : List Case} {span : Span} {trace : List Span}
    (h : r.stmt (.select subject cs)) (hs : subject.Meets r) (hcs : casesMeet r cs) :
    stmtsMeet r (choose subject cs span trace) := by
  unfold choose
  split
  · exact ⟨⟨h, hs, hcs⟩, trivial⟩
  · split
    · cases hfind : cs.find? _ with
      | none => trivial
      | some c => exact meets_of_mem_cases hcs (List.mem_of_find?_eq_some hfind)
    · exact ⟨⟨h, hs, hcs⟩, trivial⟩

theorem forall₂_cases (cs : List Case) :
    List.Forall₂ (fun c c' => c'.stop.isSome = c.stop.isSome) cs (cases constants cs) := by
  induction cs with
  | nil =>
    simp only [cases]
    exact .nil
  | cons c rest ih =>
    obtain ⟨start, stop, body⟩ := c
    simp only [cases]
    exact .cons (by simp) ih

theorem forall₂_functions (fs : List FunctionDef) :
    List.Forall₂ (fun f f' => f' = { f with body := f'.body }) fs (functions constants fs) := by
  induction fs with
  | nil =>
    simp only [functions]
    exact .nil
  | cons f rest ih =>
    obtain ⟨name, params, result, body, isTaskfunc, isOverride, span⟩ := f
    simp only [functions]
    exact .cons rfl ih

mutual

theorem meets_stmt (hr : r.Folds) : ∀ s : Stmt, s.Meets r → stmtsMeet r (stmt constants s)
  | ⟨.property _ fs, _, _⟩, ⟨h, hfs⟩ => by
    simp only [stmt]
    exact ⟨⟨hr.reshape (.property (forall₂_functions fs)) h, meets_functions hr fs hfs⟩, trivial⟩
  | ⟨.synonym _ _ _, _, _⟩, ⟨h, ht⟩ => by
    simp only [stmt]
    exact ⟨⟨hr.reshape .synonym h, meets_varRef hr ht⟩, trivial⟩
  | ⟨.declare d, _, _⟩, ⟨h, hd⟩ => by
    simp only [stmt]
    exact ⟨⟨hr.reshape (.declare (reshaped_declaration d)) h, meets_declaration hr hd⟩, trivial⟩
  | ⟨.assign _ _, _, _⟩, .inl h => (hr.noWhole h).elim
  | ⟨.assign _ value, _, _⟩, .inr ⟨h, ht, hv⟩ => by
    simp only [stmt]
    exact ⟨.inr ⟨hr.assign h, meets_varRef hr ht, meets_expr hr value hv⟩, trivial⟩
  | ⟨.call c, _, _⟩, ⟨h, ha⟩ => by
    simp only [stmt]
    exact ⟨⟨hr.callStmt h (length_exprs _), meets_args hr c.args ha⟩, trivial⟩
  | ⟨.whileLoop cond body, _, _⟩, ⟨h, hc, _, hb⟩ => by
    simp only [stmt]
    split
    · trivial
    · exact ⟨⟨hr.reshape .whileLoop h, meets_expr hr cond hc, hr.list _, meets_stmts hr body hb⟩,
        trivial⟩
  | ⟨.forLoop _ start stop _ _ body, _, _⟩, ⟨h, hv, h₁, h₂, h₃, _, hb⟩ => by
    simp only [stmt]
    exact ⟨⟨hr.reshape (.forLoop (by simp)) h, meets_varRef hr hv, meets_expr hr start h₁,
      meets_expr hr stop h₂, meets_option hr h₃, hr.list _, meets_stmts hr body hb⟩, trivial⟩
  | ⟨.family _ body, _, _⟩, ⟨h, _, hb⟩ => by
    simp only [stmt]
    exact ⟨⟨hr.reshape .family h, hr.list _, meets_stmts hr body hb⟩, trivial⟩
  | ⟨.ifChain [] otherwise, _, _⟩, ⟨_, _, _, ho⟩ => by
    simp only [stmt]
    exact meets_stmts hr otherwise ho
  | ⟨.ifChain (⟨cond, body⟩ :: rest) otherwise, span, trace⟩, ⟨h, hbs, _, ho⟩ => by
    simp only [stmt]
    -- A first condition that holds leaves its branch alone; a later one may become the last.
    split
    · obtain ⟨hcond, -, hbody, -⟩ := hbs
      have hkept : branchesMeet r [⟨cond, stmts constants body⟩] :=
        ⟨hcond, hr.list _, meets_stmts hr body hbody, trivial⟩
      exact meets_chain hr h (by simp) hkept (stmtsMeet_iff.mpr (by simp)) span trace
    · obtain ⟨hkept, hlast⟩ := meets_branches hr (⟨cond, body⟩ :: rest) hbs
      refine meets_chain hr h (length_branches_le _) hkept ?_ span trace
      cases hcase : (branches constants (⟨cond, body⟩ :: rest)).2 with
      | none => exact meets_stmts hr otherwise ho
      | some last => exact hlast last hcase
  | ⟨.select subject cs, _, _⟩, ⟨h, hs, hcs⟩ => by
    simp only [stmt]
    exact meets_choose (hr.reshape (.select (forall₂_cases cs)) h) (meets_expr hr subject hs)
      (meets_cases hr cs hcs)

/-- **Folded statements meet the rules that folding cannot break.** -/
theorem meets_stmts (hr : r.Folds) :
    ∀ ss : List Stmt, stmtsMeet r ss → stmtsMeet r (stmts constants ss)
  | [], _ => by
    simp only [stmts]
    trivial
  | s :: ss, ⟨h, hs⟩ => by
    simp only [stmts, stmtsMeet_append]
    exact ⟨meets_stmt hr s h, meets_stmts hr ss hs⟩

theorem meets_branches (hr : r.Folds) : ∀ bs : List Branch, branchesMeet r bs →
    branchesMeet r (branches constants bs).1 ∧
      ∀ last ∈ (branches constants bs).2, stmtsMeet r last
  | [], _ => by
    simp only [branches]
    exact ⟨trivial, by simp⟩
  | ⟨cond, body⟩ :: rest, ⟨hc, _, hb, h⟩ => by
    simp only [branches]
    have hbody := meets_stmts hr body hb
    split
    · exact ⟨trivial, by simpa using hbody⟩
    · exact meets_branches hr rest h
    · obtain ⟨hkept, hlast⟩ := meets_branches hr rest h
      exact ⟨⟨meets_expr hr cond hc, hr.list _, hbody, hkept⟩, hlast⟩

theorem meets_cases (hr : r.Folds) :
    ∀ cs : List Case, casesMeet r cs → casesMeet r (cases constants cs)
  | [], _ => by
    simp only [cases]
    trivial
  | ⟨start, _, body⟩ :: rest, ⟨h₁, h₂, _, hb, h⟩ => by
    simp only [cases]
    exact ⟨meets_expr hr start h₁, meets_option hr h₂, hr.list _, meets_stmts hr body hb,
      meets_cases hr rest h⟩

theorem meets_functions (hr : r.Folds) :
    ∀ fs : List FunctionDef, functionsMeet r fs → functionsMeet r (functions constants fs)
  | [], _ => by
    simp only [functions]
    trivial
  | ⟨_, _, _, body, _, _, _⟩ :: rest, ⟨_, hb, h⟩ => by
    simp only [functions]
    exact ⟨hr.list _, meets_stmts hr body hb, meets_functions hr rest h⟩

end

/-- The bodies of a folded script are the bodies of the script, folded with its constants. -/
theorem script_bodies (s : Script) :
    (script s).blocks.map Block.body =
      s.blocks.map fun b => stmts (constantsOf s) b.body := by
  rw [script, List.map_map]
  refine List.map_congr_left fun b _ => ?_
  cases b <;> rfl

end Folding

/-- What holds of all references is not broken by folding. -/
theorem refer_folds (P : Ident → Prop) : (refer P).Folds where
  literal {constants e v e'} _ he := by
    cases v <;> simp only [Value.toExpr?, Option.some.injEq, reduceCtorEq] at he <;> subst he <;>
      trivial
  binary _ := trivial
  unary _ := trivial
  var h _ := h
  call _ _ := trivial
  callStmt _ _ := trivial
  assign _ := trivial
  chain _ _ := trivial
  reshape _ _ := trivial
  list _ := trivial
  noAtom h := h
  noWhole h := h

end FlatScript
