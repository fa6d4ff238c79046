import FlatScript.Proofs.Decimal.Rounding
import FlatScript.Proofs.Writing.Scripts

/-!
# Written once more

What is read back from print is not always the tree that was written, but it is written as the same
text. A negative number has become a number behind a minus, and a truth value a comparison; neither
shows in print, since the precedence of a minus never asks for parentheses, and the precedence of a
truth value is that of the comparison.

There is one exception. The least integer takes the minus in front of it into its spelling, so it
loses one of two minuses each time that it is written (`FlatScript.oneMinus`).

* `FlatScript.Printer.expr_written_again`: what is read back from an expression is written as the
  same text.
* `FlatScript.Printer.stable_of_readable`: so such an expression has a stable text.
* `FlatScript.Printer.block_alike`: blocks that are alike are written as the same lines.
-/

namespace FlatScript

/-- **No least integer behind two minuses.** -/
def oneMinus : Rule where
  expr
    | .unary .neg (.unary .neg operand _) _ => operand.isInt Int32.minValue = false
    | _ => True
  stmt _ := True
  list _ := True
  skips _ := false
  atom _ _ _ := False

/-! ### Numbers -/

namespace Printer

/-- Real numbers of one value are written in one way. -/
theorem real_eq_of_units {a c : Decimal} (h : a.units = c.units) : real a = real c := by
  rw [real, Decimal.normalize_eq_of_units h]
  rfl

/-- A negative real number is written with a minus in front. -/
theorem real_neg {value : Decimal} (h : value.units < 0) : "-" ++ real value.neg = real value := by
  have hzero : value.isZero = false := by
    rw [← Bool.not_eq_true, ← Decimal.units_eq_zero_iff]
    omega
  have hsign := value.normalize_negative.mpr h
  have htext : value.normalize.text = "-" ++ value.neg.normalize.text := by
    rw [Decimal.normalize_neg hzero]
    simp [Decimal.text, Decimal.neg, hsign]
  have hpoint : value.normalize.text.toList.contains '.' =
      value.neg.normalize.text.toList.contains '.' := by
    rw [htext, String.toList_append]
    rfl
  simp only [real, hpoint]
  split
  · exact htext.symm
  · rw [htext, String.append_assoc]

/-- A negative integer is written with a minus in front, but for the least one. -/
theorem int_neg {value : Int32} (h : value < 0) (hmin : value ≠ Int32.minValue) :
    -value ≠ Int32.minValue ∧ "-" ++ int (-value) = int value := by
  have hneg : value.toInt < 0 := Int32.lt_iff_toInt_lt.mp h
  have hlower : -2147483648 ≤ value.toInt := value.minValue_le_toInt
  have hne : value.toInt ≠ -2147483648 := fun heq => hmin (Int32.toInt_inj.mp heq)
  have hvalue : (-value).toInt = -value.toInt := by
    rw [Int32.toInt_neg, Int.bmod_eq_of_le] <;> omega
  have hmin' : -value ≠ Int32.minValue := by
    intro heq
    have hleast : (-value).toInt = -2147483648 := congrArg Int32.toInt heq
    omega
  refine ⟨hmin', ?_⟩
  rw [← String.toList_inj, String.toList_append, int_toList hmin, int_toList hmin', hvalue,
    Int.natAbs_neg, if_pos (decide_eq_true hneg), if_neg (by simpa using hneg.le)]
  rfl

/-! ### Operands -/

/-- **How the tree that is read back differs at its top**: a number may have got a minus, and the
least integer may have lost one. -/
theorem written_shape {e e' : Expr} (h : e.asWritten.Same e') :
    (precedence? e' = precedence? e ∧ isUnary e' = isUnary e) ∨
      (precedence? e' = some UnaryOp.neg.precedence ∧ isUnary e' = true ∧
        precedence? e = none ∧ isUnary e = false) ∨
      (precedence? e' = none ∧ isUnary e' = false ∧
        precedence? e = some UnaryOp.neg.precedence ∧ isUnary e = true) := by
  cases e with
  | binary | bool =>
    cases e' <;> first | exact h.elim | skip
    obtain ⟨rfl, -⟩ := h
    exact .inl ⟨rfl, rfl⟩
  | unary op operand span =>
    simp only [Expr.asWritten] at h
    split at h
    · next hleast =>
      cases e' <;> first | exact h.elim | skip
      obtain ⟨rfl, -⟩ := hleast
      exact .inr (.inr ⟨rfl, rfl, rfl, rfl⟩)
    · cases e' <;> first | exact h.elim | skip
      obtain ⟨rfl, -⟩ := h
      exact .inl ⟨rfl, rfl⟩
  | int | real =>
    simp only [Expr.asWritten] at h
    split at h
    · cases e' <;> first | exact h.elim | skip
      obtain ⟨rfl, -⟩ := h
      exact .inr (.inl ⟨rfl, rfl, rfl, rfl⟩)
    · cases e' <;> first | exact h.elim | skip
      exact .inl ⟨rfl, rfl⟩
  | str | var | call | raw => cases e' <;> first | exact h.elim | exact .inl ⟨rfl, rfl⟩

/-- What is read back stands in parentheses where the expression does, when a minus needs none. -/
theorem parenthesized_written {needed : Nat → Bool} (hneg : needed UnaryOp.neg.precedence = false)
    {e e' : Expr} (h : e.asWritten.Same e') (text : String) :
    parenthesized needed e' text = parenthesized needed e text := by
  unfold parenthesized
  rcases written_shape h with ⟨hp, -⟩ | ⟨hp, -, hp', -⟩ | ⟨hp, -, hp', -⟩
  · rw [hp]
  · simp [hp, hp', hneg]
  · simp [hp, hp', hneg]

/-- So it does behind a prefix operator, where no minus has parentheses. -/
theorem prefixed_written (op : UnaryOp) {e e' : Expr} (h : e.asWritten.Same e') (text : String) :
    (if isUnary e' then prefixed op text else prefixed op (parenthesized (fun _ => true) e' text)) =
      if isUnary e then prefixed op text
      else prefixed op (parenthesized (fun _ => true) e text) := by
  unfold parenthesized
  rcases written_shape h with ⟨hp, hu⟩ | ⟨hp, hu, hp', hu'⟩ | ⟨hp, hu, hp', hu'⟩
  · rw [hp, hu]
  · simp [hu, hp', hu']
  · simp [hp, hu, hu']

/-- The least integer is read back where it was written, or where it stood behind one minus. -/
theorem isInt_minValue_written {e e' : Expr} (h : e.asWritten.Same e')
    (he' : e'.isInt Int32.minValue = true) : e.isInt Int32.minValue = true ∨
      ∃ operand span, e = .unary .neg operand span ∧ operand.isInt Int32.minValue = true := by
  cases e' with
  | int value' span' =>
    obtain rfl : value' = Int32.minValue := by simpa [Expr.isInt] using he'
    cases e with
    | int value span =>
      simp only [Expr.asWritten] at h
      split at h
      · exact h.elim
      · exact .inl (decide_eq_true h)
    | unary op operand span =>
      simp only [Expr.asWritten] at h
      split at h
      · next hleast =>
        obtain ⟨rfl, hleast⟩ := hleast
        exact .inr ⟨operand, span, rfl, hleast⟩
      · exact h.elim
    | real =>
      simp only [Expr.asWritten] at h
      split at h <;> exact h.elim
    | _ => exact h.elim
  | _ => cases he'

/-- A number behind a minus. -/
theorem expr_minus (b : Builtins) {e : Expr} (hleast : e.isInt Int32.minValue = false)
    (hp : precedence? e = none) (span : Span) : expr b (.unary .neg e span) = "-" ++ expr b e := by
  have hunary : isUnary e = false := by cases e <;> first | rfl | cases hp
  simp [expr, hleast, hunary, parenthesized, hp, prefixed]

/-! ### Expressions -/

theorem isEmpty_same {es es' : List Expr} (h : exprsSame (exprsAsWritten es) es') :
    es'.isEmpty = es.isEmpty := by
  cases es <;> cases es' <;> first | rfl | exact h.elim

/-- A negative integer has become a number behind a minus, which is written in the same way. -/
theorem int_written_again (b : Builtins) {value : Int32} {span : Span} {e' : Expr}
    (h : (Expr.int value span).asWritten.Same e') : expr b e' = expr b (.int value span) := by
  simp only [Expr.asWritten] at h
  split at h
  · next hneg =>
    obtain ⟨hmin, htext⟩ := int_neg hneg.1 hneg.2
    cases e' <;> first | exact h.elim | skip
    next op' operand' span' =>
    obtain ⟨rfl, hoperand⟩ := h
    cases operand' <;> first | exact hoperand.elim | skip
    obtain rfl : -value = _ := hoperand
    rw [expr_minus b (by simpa [Expr.isInt] using hmin) rfl]
    exact htext
  · cases e' <;> first | exact h.elim | skip
    obtain rfl : value = _ := h
    rfl

theorem real_written_again (b : Builtins) {value : Decimal} {span : Span} {e' : Expr}
    (h : (Expr.real value span).asWritten.Same e') : expr b e' = expr b (.real value span) := by
  simp only [Expr.asWritten] at h
  split at h
  · next hneg =>
    cases e' <;> first | exact h.elim | skip
    next op' operand' span' =>
    obtain ⟨rfl, hoperand⟩ := h
    cases operand' <;> first | exact hoperand.elim | skip
    rw [expr_minus b rfl rfl]
    exact (congrArg ("-" ++ ·) (real_eq_of_units hoperand).symm).trans (real_neg hneg)
  · cases e' <;> first | exact h.elim | skip
    simp only [expr]
    exact (real_eq_of_units h).symm

theorem bool_written_again (b : Builtins) {value : Bool} {span : Span} {e' : Expr}
    (h : (Expr.bool value span).asWritten.Same e') : expr b e' = expr b (.bool value span) := by
  cases e' <;> first | exact h.elim | skip
  next op' left' right' span' =>
  obtain ⟨rfl, hleft, hright⟩ := h
  cases left' <;> first | exact hleft.elim | skip
  cases right' <;> first | exact hright.elim | skip
  obtain rfl := hleft
  obtain rfl := hright
  cases value <;> rfl

/-- A prefix operator, when what is read back from its operand is written as the same text. -/
theorem unary_written_again (b : Builtins) {op : UnaryOp} {operand e' : Expr} {span : Span}
    (hminus : oneMinus.expr (.unary op operand span))
    (ih : ∀ {operand'}, operand.asWritten.Same operand' → expr b operand' = expr b operand)
    (h : (Expr.unary op operand span).asWritten.Same e') :
    expr b e' = expr b (.unary op operand span) := by
  simp only [Expr.asWritten] at h
  split at h
  · next hleast =>
    cases e' <;> first | exact h.elim | skip
    obtain rfl : Int32.minValue = _ := h
    simp only [expr, if_pos hleast]
    rfl
  · next hleast =>
    cases e' with
    | unary op' operand' span' =>
      obtain ⟨rfl, hoperand⟩ := h
      have hleast' : ¬ (op = .neg ∧ operand'.isInt Int32.minValue = true) := by
        rintro ⟨rfl, hmin⟩
        rcases isInt_minValue_written hoperand hmin with hmin | ⟨inner, span, rfl, hmin⟩
        · exact hleast ⟨rfl, hmin⟩
        · rw [show inner.isInt Int32.minValue = false from hminus] at hmin
          cases hmin
      simp only [expr, if_neg hleast, if_neg hleast', ih hoperand]
      exact prefixed_written op hoperand _
    | _ => exact h.elim

mutual

/-- **What is read back is written as the same text.** -/
theorem expr_written_again (b : Builtins) : ∀ (e : Expr) {e' : Expr}, e.Meets readable →
    e.Meets oneMinus → e.asWritten.Same e' → expr b e' = expr b e
  | .binary op left right _, e', .inr ⟨_, hl, hr⟩, .inr ⟨_, hl', hr'⟩, h => by
    cases e' <;> first | exact h.elim | skip
    obtain ⟨rfl, hleft, hright⟩ := h
    have hless : decide (UnaryOp.neg.precedence < op.precedence) = false := by cases op <;> rfl
    have hle : decide (UnaryOp.neg.precedence ≤ op.precedence) = false := by cases op <;> rfl
    simp only [expr, expr_written_again b left hl hl' hleft, expr_written_again b right hr hr' hright]
    rw [parenthesized_written hless hleft, parenthesized_written hle hright]
  | .unary op operand span, e', ⟨_, ho⟩, ⟨hminus, ho'⟩, h =>
    unary_written_again b hminus (expr_written_again b operand ho ho') h
  | .int _ _, _, _, _, h => int_written_again b h
  | .real _ _, _, _, _, h => real_written_again b h
  | .str _ _, e', _, _, h => by
    cases e' <;> first | exact h.elim | skip
    obtain rfl := h
    rfl
  | .bool _ _, _, _, _, h => bool_written_again b h
  | .var i subscripts _, e', ⟨_, hs⟩, ⟨_, hs'⟩, h => by
    cases e' <;> first | exact h.elim | skip
    obtain ⟨hname, hsubs⟩ := h
    simp only [expr, isEmpty_same hsubs, exprs_written_again b subscripts hs hs' hsubs, hname]
  | .call name args _ _ _, e', ⟨⟨_, hproc⟩, ha⟩, ⟨_, ha'⟩, h => by
    cases e' <;> first | exact h.elim | skip
    obtain ⟨hname, hargs, rfl, rfl⟩ := h
    subst hproc
    simp only [expr, hasParentheses, Bool.not_false, Bool.or_true, Bool.true_or, if_true, hname,
      exprs_written_again b args (argsMeet_false.mp ha) (argsMeet_false.mp ha') hargs]

theorem exprs_written_again (b : Builtins) : ∀ (es : List Expr) {es' : List Expr},
    exprsMeet readable es → exprsMeet oneMinus es → exprsSame (exprsAsWritten es) es' →
      exprs b es' = exprs b es
  | [], es', _, _, h => by
    cases es' with
    | nil => rfl
    | cons => exact h.elim
  | e :: es, es', ⟨he, hes⟩, ⟨hm, hms⟩, h => by
    cases es' with
    | nil => exact h.elim
    | cons e' es' =>
      simp only [exprs, expr_written_again b e he hm h.1, exprs_written_again b es hes hms h.2]

end

/-- **A readable expression has a stable text**, but for the least integer behind two minuses. -/
theorem stable_of_readable (b : Builtins) {e : Expr} (he : e.Meets readable)
    (hminus : e.Meets oneMinus) : Stable b e := by
  obtain ⟨-, e', s, hrun, hrest, hsame⟩ := expr_read_back b he
  exact ⟨e', s, hrun, hrest, expr_written_again b e he hminus hsame⟩

end Printer

/-! ### Statements that are alike -/

/-- **A name whose sigil is the one in its spelling.** -/
def Ident.Spelled (i : Ident) : Prop := (Sigil.split i.full).2 = i.name

/-- The names of calls that are statements carry the sigils of their spellings. -/
def spelled : Rule where
  expr _ := True
  stmt
    | .call c => c.name.Spelled
    | _ => True
  list _ := True
  skips _ := false
  atom _ _ _ := False

namespace Printer

variable {b : Builtins}

theorem isEmpty_of_exprs {es es' : List Expr} (h : exprs b es = exprs b es') :
    es.isEmpty = es'.isEmpty := by
  have hlength := congrArg List.length h
  rw [exprs_length, exprs_length] at hlength
  cases es <;> cases es' <;> first | rfl | cases hlength

theorem varRef_alike {v v' : VarRef} (h : v.Alike b v') : varRef b v = varRef b v' := by
  have hempty := isEmpty_of_exprs h.subscripts
  simp only [varRef, VarRef.toExpr, expr, hempty, h.name, h.subscripts]

/-- Whether a call has parentheses depends on its name without the sigil. -/
theorem call_alike {c c' : Call} (h : c.Alike b c') (hc : c.name.Spelled) (hc' : c'.name.Spelled) :
    call b c = call b c' := by
  obtain ⟨name, args, isProcedure, usingCall, _⟩ := c
  obtain ⟨name', args', isProcedure', usingCall', _⟩ := c'
  obtain ⟨hfull, hargs, rfl, rfl⟩ := h
  dsimp only at hfull hargs hc hc'
  have hname : name.name = name'.name := by
    rw [← hc, ← hc', hfull]
  have hparens : hasParentheses b name (!args.isEmpty) isProcedure =
      hasParentheses b name' (!args'.isEmpty) isProcedure := by
    simp only [hasParentheses, isEmpty_of_exprs hargs, hname]
  simp only [call, Call.toExpr, expr, hparens, hfull, hargs]

/-- One value of a declaration, also when it is kept as it was written. -/
theorem initializer_single (b : Builtins) (e : Expr) :
    initializer b (.single e) = " := " ++ expr b e := by
  cases e with
  | raw text span =>
    simp only [initializer, expr, ← String.append_assoc]
    rfl
  | _ => rfl

theorem initializer_alike {i i' : Initializer} (h : i.Alike b i') :
    initializer b i = initializer b i' := by
  cases i <;> cases i' <;> first | exact h.elim | skip
  · rw [initializer_single, initializer_single]
    exact congrArg _ h
  · simp only [initializer]
    exact congrArg (fun texts => " := (" ++ commas texts ++ ")") h

theorem declaration_alike {d d' : Declaration} (h : d.Alike b d') :
    declaration b d = declaration b d' := by
  have hsize : sizeText b d.size = sizeText b d'.size := by
    have hsize := h.size
    generalize d.size = size, d'.size = size' at hsize
    cases size <;> cases size' <;> first | rfl | cases hsize | skip
    simp only [sizeText, Option.some.inj hsize]
  have hinit : initText b d.init = initText b d'.init := by
    have hinit := h.init
    generalize d.init = init, d'.init = init' at hinit
    cases hinit with
    | none => rfl
    | some hinit => exact initializer_alike hinit
  have hempty := isEmpty_of_exprs h.params
  simp only [declaration_eq, paramsText, hsize, hinit, hempty, h.name, h.modifiers, h.params]

theorem isEmpty_alike {ss ss' : List Stmt} (h : stmtsAlike b ss ss') : ss.isEmpty = ss'.isEmpty := by
  cases ss <;> cases ss' <;> first | rfl | exact h.elim

mutual

/-- **Statements that are alike are written as the same lines.** -/
theorem stmt_alike (depth : Nat) : ∀ (s : Stmt) {s' : Stmt}, s.Alike b s' → s.Meets spelled →
    s'.Meets spelled → stmt b depth s = stmt b depth s'
  | ⟨.declare d, _, _⟩, ⟨k, _, _⟩, h, _, _ => by
    cases k <;> first | exact h.elim | skip
    simp only [stmt]
    rw [declaration_alike h]
  | ⟨.assign _ _, _, _⟩, ⟨k, _, _⟩, h, _, _ => by
    cases k <;> first | exact h.elim | skip
    simp only [stmt]
    rw [varRef_alike h.1, h.2]
  | ⟨.call _, _, _⟩, ⟨k, _, _⟩, h, hm, hm' => by
    cases k <;> first | exact h.elim | skip
    simp only [stmt]
    rw [call_alike h hm.1 hm'.1]
  | ⟨.whileLoop _ body, _, _⟩, ⟨k, _, _⟩, h, ⟨_, _, _, hb⟩, hm' => by
    cases k <;> first | exact h.elim | skip
    simp only [stmt]
    rw [h.1, stmts_alike (depth + 1) body h.2 hb hm'.2.2.2]
  | ⟨.ifChain branches otherwise, _, _⟩, ⟨k, _, _⟩, h, ⟨_, hbs, _, ho⟩, hm' => by
    cases k <;> first | exact h.elim | skip
    next branches' otherwise' =>
    obtain ⟨_, hbs', _, ho'⟩ := hm'
    simp only [stmt]
    rw [isEmpty_alike h.2, branches_alike depth "if" branches h.1 hbs hbs',
      stmts_alike (depth + 1) otherwise h.2 ho ho']
  | ⟨.select _ cs, _, _⟩, ⟨k, _, _⟩, h, ⟨_, _, hcs⟩, hm' => by
    cases k <;> first | exact h.elim | skip
    simp only [stmt]
    rw [h.1, cases_alike (depth + 1) cs h.2 hcs hm'.2.2]
  | ⟨.property _ _, _, _⟩, _, h, _, _ | ⟨.synonym _ _ _, _, _⟩, _, h, _, _
  | ⟨.forLoop _ _ _ _ _ _, _, _⟩, _, h, _, _ | ⟨.family _ _, _, _⟩, _, h, _, _ => h.elim
termination_by structural s => s

theorem stmts_alike (depth : Nat) : ∀ (ss : List Stmt) {ss' : List Stmt}, stmtsAlike b ss ss' →
    stmtsMeet spelled ss → stmtsMeet spelled ss' → stmts b depth ss = stmts b depth ss'
  | [], ss', h, _, _ => by
    cases ss' with
    | nil => rfl
    | cons => exact h.elim
  | s :: ss, ss', h, ⟨hs, hss⟩, hm' => by
    cases ss' with
    | nil => exact h.elim
    | cons s' ss' =>
      simp only [stmts]
      rw [stmt_alike depth s h.1 hs hm'.1, stmts_alike depth ss h.2 hss hm'.2]
termination_by structural ss => ss

theorem branches_alike (depth : Nat) (word : String) : ∀ (bs : List Branch) {bs' : List Branch},
    branchesAlike b bs bs' → branchesMeet spelled bs → branchesMeet spelled bs' →
      branches b depth word bs = branches b depth word bs'
  | [], bs', h, _, _ => by
    cases bs' with
    | nil => rfl
    | cons => exact h.elim
  | ⟨_, body⟩ :: bs, bs', h, ⟨_, _, hb, hbs⟩, hm' => by
    cases bs' with
    | nil => exact h.elim
    | cons br' bs' =>
      obtain ⟨_, _⟩ := br'
      simp only [branches]
      rw [h.1, stmts_alike (depth + 1) body h.2.1 hb hm'.2.2.1,
        branches_alike depth "else if" bs h.2.2 hbs hm'.2.2.2]
termination_by structural bs => bs

theorem cases_alike (depth : Nat) : ∀ (cs : List Case) {cs' : List Case}, casesAlike b cs cs' →
    casesMeet spelled cs → casesMeet spelled cs' → cases b depth cs = cases b depth cs'
  | [], cs', h, _, _ => by
    cases cs' with
    | nil => rfl
    | cons => exact h.elim
  | ⟨start, stop, body⟩ :: cs, cs', h, ⟨_, _, _, hb, hcs⟩, hm' => by
    cases cs' with
    | nil => exact h.elim
    | cons c' cs' =>
      obtain ⟨start', stop', _⟩ := c'
      have hstart : expr b start = expr b start' := h.1
      have hstop : stop.map (expr b) = stop'.map (expr b) := h.2.1
      have hhead : caseHead b start stop = caseHead b start' stop' := by
        simp only [caseHead, hstart]
        cases stop <;> cases stop' <;> simp_all
      simp only [cases]
      rw [hhead, stmts_alike (depth + 1) body h.2.2.1 hb hm'.2.2.2.1,
        cases_alike depth cs h.2.2.2 hcs hm'.2.2.2.2]
termination_by structural cs => cs

end

theorem callbackHead_alike {c c' : Callback} (h : c.Alike b c') : callbackHead c = callbackHead c' := by
  have hcontrol := h.control
  generalize hi : c.control = i, hi' : c'.control = i' at hcontrol
  simp only [callbackHead, h.name, hi, hi']
  cases i <;> cases i' <;> first | rfl | cases hcontrol | skip
  simp only [Option.some.inj hcontrol]

theorem functionHead_alike {f f' : FunctionDef} (h : f.Alike b f') :
    functionHead f = functionHead f' := by
  have hnames : f.params.map (·.name.full) = f'.params.map (·.name.full) := by
    have hfirst := congrArg (List.map Prod.fst) h.params
    rwa [List.map_map, List.map_map] at hfirst
  have hempty : f.params.isEmpty = f'.params.isEmpty := by
    have hlength := congrArg List.length hnames
    rw [List.length_map, List.length_map] at hlength
    rw [Bool.eq_iff_iff, List.isEmpty_iff_length_eq_zero, List.isEmpty_iff_length_eq_zero, hlength]
  simp only [functionHead, h.name, hempty, hnames]

/-- **Blocks that are alike are written as the same lines.** -/
theorem block_alike {bl bl' : Block} (h : bl.Alike b bl') (hm : stmtsMeet spelled bl.body)
    (hm' : stmtsMeet spelled bl'.body) : block b bl = block b bl' := by
  cases bl with
  | callback c =>
    cases bl' with
    | callback c' =>
      simp only [block]
      rw [callbackHead_alike h, stmts_alike 1 c.body h.body hm hm']
    | function f' => exact h.elim
  | function f =>
    cases bl' with
    | callback c' => exact h.elim
    | function f' =>
      simp only [block]
      rw [functionHead_alike h, stmts_alike 1 f.body h.body hm hm']

/-- **Scripts that are alike are written as the same text.** -/
theorem script_alike (o : Options) {s s' : Script}
    (h : List.Forall₂ (Block.Alike b) s.blocks s'.blocks)
    (hm : ∀ bl ∈ s.blocks, stmtsMeet spelled bl.body)
    (hm' : ∀ bl ∈ s'.blocks, stmtsMeet spelled bl.body) : script b o s = script b o s' := by
  obtain ⟨bls⟩ := s
  obtain ⟨bls'⟩ := s'
  dsimp only at h hm hm'
  simp only [script]
  induction h with
  | nil => rfl
  | cons hbl _ ih =>
    rw [List.forall_mem_cons] at hm hm'
    simp only [List.map_cons, String.join_cons]
    rw [block_alike hbl hm.1 hm'.1, ih hm.2 hm'.2]

end Printer

end FlatScript
