import FlatScript.Proofs.Inlining.Arguments
import FlatScript.Proofs.Inlining.Copies
import FlatScript.Proofs.Inlining.Whole
import FlatScript.Proofs.Stack.Lowered

/-!
# The stack in expanded code

Expansion copies the bodies of functions that have no frame, so what they refer to is the cells
of the block they are copied to. What it adds are the calls of task functions, which pass values
below the stack pointer. `FlatScript.Stack.Sited` says that a list consists of such calls and
of other statements, and `FlatScript.Stack.expansion` follows it through expansion.
-/

namespace FlatScript.Stack

open Inlining (marshalled Passed argumentSlot)

/-! ### Substitutions -/

/-- A substitution that leaves indices of cells alone. -/
def KeepsCells (s : Substitution) : Prop := ∀ b ∈ s, isStackName b.1 = false

theorem firstPart_of_isStackName {name : String} (h : isStackName name = true) :
    Name.firstPart name = name := by
  have hdot := dot_notMem_of_isStackName h
  have hall : name.toList.takeWhile (· ≠ '.') = name.toList := by
    rw [List.takeWhile_eq_self_iff]
    intro c hc
    simp only [ne_eq, decide_not, Bool.not_eq_eq_eq_not, Bool.not_true, decide_eq_false_iff_not]
    exact fun heq => hdot (heq ▸ hc)
  rw [Name.firstPart, hall, String.ofList_toList]

theorem KeepsCells.find? {s : Substitution} (h : KeepsCells s) {name : String}
    (hname : isStackName name = true) : s.find? name = none := by
  cases hfind : s.find? name with
  | none => rfl
  | some e =>
    have hkey := h _ (Substitution.mem_of_find? hfind)
    rw [firstPart_of_isStackName hname, hname] at hkey
    cases hkey

section Substitutions

variable (env : Env) (trace : List Span)

/-- A pointer stays as it is. -/
theorem KeepsCells.pointer {s : Substitution} (h : KeepsCells s) (text : String) (span : Span)
    (htext : isStackName (Sigil.split text).2 = true) :
    Substitution.expr env s trace (Frame.fixedVar text span).toExpr =
      .ok (Frame.fixedVar text span).toExpr := by
  have hfind : s.find? (Ident.fixed text span).name = none := h.find? htext
  simp only [Frame.fixedVar, VarRef.plain, VarRef.toExpr, Substitution.expr, hfind,
    Substitution.exprs]
  rfl

/-- The index of a cell of the frame stays as it is. -/
theorem KeepsCells.offset {s : Substitution} (h : KeepsCells s) {k : Nat} {op : BinaryOp}
    {left right : Expr} (span : Span) (hoff : IsOffset k op left right) :
    Substitution.expr env s trace (.binary op left right span) =
      .ok (.binary op left right span) := by
  cases hoff with
  | mk =>
    simp only [Substitution.expr, h.pointer env trace Frame.framePointer _ (by decide)]
    rfl

/-- A cell of the free part stays as it is. -/
theorem KeepsCells.freeCell {s : Substitution} (h : KeepsCells s) {j : Nat} (hj : 1 ≤ j)
    (span : Span) :
    Substitution.target env s trace (freeCell j span) = .ok (Stack.freeCell j span) ∧
      Substitution.expr env s trace (Stack.freeCell j span).toExpr =
        .ok (Stack.freeCell j span).toExpr := by
  have hfind : s.find? (Ident.fixed Frame.stack span).name = none := h.find? isStackName_stack
  have hpointer := h.pointer env trace Frame.stackPointer span (by decide)
  have hindex : Substitution.exprs env s trace
      [(Frame.fixedVar Frame.stackPointer span).toExpr.op .sub (.int (Int32.ofNat j) span)] =
      .ok [(Frame.fixedVar Frame.stackPointer span).toExpr.op .sub (.int (Int32.ofNat j) span)] := by
    simp only [Substitution.exprs, Expr.op, Substitution.expr, hpointer]
    rfl
  rw [freeCell_eq hj]
  generalize (Frame.fixedVar Frame.stackPointer span).toExpr.op .sub _ = index at hindex ⊢
  constructor
  · simp only [Substitution.target, hfind, hindex]
    rfl
  · simp only [VarRef.toExpr, Substitution.expr, hfind, hindex]
    rfl

variable {env trace} {s : Substitution} {k k' : Nat}

/-- **What a substitution has to be like**: what it puts in is cells, and it leaves indices of
cells alone, unless there are none. -/
structure Fits (s : Substitution) (k k' : Nat) : Prop where
  grows : k ≤ k'
  values : ∀ b ∈ s, b.2.Meets (cells k')
  keeps : k = 0 ∨ KeepsCells s

theorem not_isOffset_zero {op : BinaryOp} {left right : Expr} : ¬ IsOffset 0 op left right := by
  rintro ⟨hj, hk⟩
  omega

theorem Fits.offset (hs : Fits s k k') {op : BinaryOp} {left right e' : Expr} {span : Span}
    (hoff : IsOffset k op left right)
    (h : Substitution.expr env s trace (.binary op left right span) = .ok e') :
    e' = .binary op left right span := by
  rcases hs.keeps with rfl | hkeeps
  · exact absurd hoff not_isOffset_zero
  · rw [hkeeps.offset env trace span hoff] at h
    cases h
    rfl

theorem Fits.endsInCell (hs : Fits s k k') {es es' : List Expr} (hes : EndsInCell k es)
    (h : Substitution.exprs env s trace es = .ok es') : EndsInCell k' es' := by
  obtain ⟨init, op, left, right, span, rfl, hoff⟩ := hes
  induction init generalizing es' with
  | nil =>
    obtain ⟨e', rest, he', hrest, rfl⟩ := Substitution.exprs_eq_cons h
    cases hrest
    rw [hs.offset hoff he']
    exact ⟨[], op, left, right, span, rfl, hoff.mono hs.grows⟩
  | cons e init ih =>
    obtain ⟨e', rest, -, hrest, rfl⟩ := Substitution.exprs_eq_cons h
    exact (ih hrest).append [e']

/-- **An expression with arguments in the place of parameters** refers to cells only. -/
theorem Fits.cells_carries (hs : Fits s k k') (env : Env) :
    Substitution.Carries env s (cells k) (cells k') where
  value _ hfind := hs.values _ (Substitution.mem_of_find? hfind)
  atom hoff h := by
    rw [hs.offset hoff h]
    exact .inl (IsOffset.mono hs.grows hoff)
  binary _ := trivial
  unary _ := trivial
  literal _ h := (cells_mono hs.grows).expr _ h
  var hi _ hes hstack := hs.endsInCell (hi hstack) hes
  merged _ hfind :=
    cells_var isStackName_append_lastPart (hs.values _ (Substitution.mem_of_find? hfind)).1
  call _ _ _ := ⟨trivial, id⟩

/-- **Substitution keeps to the cells of frames**, and to what is passed below the stack
pointer. -/
theorem Fits.carries (hs : Fits s k k') (env : Env) :
    (Substitution.leafMap env s).Carries (cells k) (cells k') where
  expr _ he h := (hs.cells_carries env).ofExpr _ he h
  target _ hv h := (hs.cells_carries env).ofTarget hv h
  call _ _ ha h := by
    obtain ⟨name, args, -, hargs, rfl⟩ := Substitution.call_eq_ok h
    exact ⟨trivial, (hs.cells_carries env).ofArgs id _ ha hargs⟩
  assign _ _ _ := trivial
  whole _ h _ _ := h.elim
  accessors _ _ _ := trivial
  reshape _ _ := trivial
  list _ _ := trivial

theorem Fits.carries_slotted (hs : Fits s k k') (hkeeps : KeepsCells s) (env : Env) :
    (Substitution.leafMap env s).Carries (slotted k) (slotted k') where
  expr _ he h := meets_slotted_iff.mpr
    ((hs.cells_carries env).ofExpr _ (meets_slotted_iff.mp he) h)
  target _ hv h := meets_slotted_iff.mpr
    ((hs.cells_carries env).ofTarget (meets_slotted_iff.mp hv) h)
  call {scope c c'} _ _ ha h := by
    obtain ⟨name, args, -, hargs, rfl⟩ := Substitution.call_eq_ok h
    have hcells : exprsMeet (cells k) c.args := exprsMeet_iff.mpr fun e he =>
      meets_slotted_iff.mp (exprsMeet_iff.mp (argsMeet_false.mp ha) e he)
    have hcells' := (hs.cells_carries env).ofExprs c.args hcells hargs
    exact ⟨trivial, argsMeet_false.mpr (exprsMeet_iff.mpr fun e he =>
      meets_slotted_iff.mpr (exprsMeet_iff.mp hcells' e he))⟩
  assign _ _ _ := trivial
  accessors _ _ _ := trivial
  whole {scope t v t' v'} _ h ht hv := by
    cases h with
    | @store j span _ hj hbound hvalue =>
      have hsame := (hkeeps.freeCell env scope.trace hj span).1.symm.trans ht
      cases hsame
      exact .store hj hbound ((hs.cells_carries env).ofExpr v hvalue hv)
    | @load j span _ hj hbound htarget =>
      have hsame := (hkeeps.freeCell env scope.trace hj span).2.symm.trans hv
      cases hsame
      exact .load hj hbound ((hs.cells_carries env).ofTarget htarget ht)
  reshape _ _ := trivial
  list _ _ := trivial

end Substitutions

/-! ### Calls of task functions -/

/-- **A statement that passes nothing on the stack**: it calls no task function, and no side of
it is a cell of the free part. -/
structure IsPlain (p : Program) (s : Stmt) : Prop where
  call : ∀ c, s.kind = .call c → c.usingCall = true → ∀ e, p.function? c.name.name = some e →
    e.fn.isTaskfunc = false
  assign : ∀ target value, s.kind = .assign target value → ∀ k, ¬ IsTransfer k target value

/-- **A list consists of the calls of task functions and of statements that pass nothing on the
stack.** -/
inductive Sited (p : Program) : List Stmt → Prop
  | nil : Sited p []
  | plain {s ss} (hs : IsPlain p s) (h : Sited p ss) : Sited p (s :: ss)
  | site {e name captured values targets ss} (he : p.function? name.name = some e)
    (htask : e.fn.isTaskfunc = true) (hpassed : Passed e.fn captured values targets)
    (span : Span) (trace : List Span) (h : Sited p ss) :
    Sited p (marshalled e.fn name span trace values targets ++ ss)

namespace Sited

variable {p p' : Program} {ss ss' : List Stmt}

theorem append (h : Sited p ss) (h' : Sited p ss') : Sited p (ss ++ ss') := by
  induction h with
  | nil => exact h'
  | plain hs _ ih => exact .plain hs ih
  | site he htask hpassed span trace _ ih =>
    rw [List.append_assoc]
    exact .site he htask hpassed span trace ih

theorem single {s : Stmt} (h : IsPlain p s) : Sited p [s] := .plain h .nil

theorem call {e : FunctionEntry} {name : Ident} {captured : Bool} {values : List (Option Expr)}
    {targets : List (Option VarRef)} (he : p.function? name.name = some e)
    (htask : e.fn.isTaskfunc = true) (hpassed : Passed e.fn captured values targets)
    (span : Span) (trace : List Span) : Sited p (marshalled e.fn name span trace values targets) := by
  rw [← List.append_nil (marshalled e.fn name span trace values targets)]
  exact .site he htask hpassed span trace .nil

/-- Only the headers of the functions matter. -/
theorem congr (hp : ∀ name, Option.Rel (fun e e' => ∃ body, e'.fn = { e.fn with body })
    (p.function? name) (p'.function? name)) (h : Sited p ss) : Sited p' ss := by
  induction h with
  | nil => exact .nil
  | plain hs _ ih =>
    refine .plain ⟨fun c hc hcall e' he' => ?_, hs.assign⟩ ih
    have hrel := hp c.name.name
    rw [he'] at hrel
    generalize hfind : p.function? c.name.name = o at hrel
    cases hrel with
    | some hfn =>
      obtain ⟨body, hfn⟩ := hfn
      rw [hfn]
      exact hs.call c hc hcall _ hfind
  | @site e name captured values targets ss he htask hpassed span trace _ ih =>
    have hrel := hp name.name
    rw [he] at hrel
    generalize hfind : p'.function? name.name = o at hrel
    cases hrel with
    | @some _ e' hfn =>
      obtain ⟨body, hfn⟩ := hfn
      have htask' : e'.fn.isTaskfunc = true := by rw [hfn]; exact htask
      have hpassed' : Passed e'.fn captured values targets := by
        rw [hfn]
        exact ⟨hpassed.result, hpassed.values, hpassed.targets, hpassed.bound⟩
      have hcode : marshalled e.fn name span trace values targets =
          marshalled e'.fn name span trace values targets := by
        rw [hfn]
        rfl
      rw [hcode]
      exact .site hfind htask' hpassed' span trace ih

theorem grows (h : Sited p ss) (hp : p.Grows p') : Sited p' ss := by
  refine h.congr fun name => optionRel_imp (hp.function? name) fun e e' hgrows => ?_
  rw [hgrows.fn]
  generalize e.fn = f
  cases f
  exact ⟨_, rfl⟩

/-- A single assignment is no call. -/
theorem isPlain {target : VarRef} {value : Expr} {span : Span} {trace : List Span}
    (h : Sited p [⟨.assign target value, span, trace⟩]) :
    IsPlain p ⟨.assign target value, span, trace⟩ := by
  generalize hl : [(⟨.assign target value, span, trace⟩ : Stmt)] = l at h
  cases h with
  | nil => cases hl
  | plain hs _ =>
    cases hl
    exact hs
  | @site e name _ values targets ss _ _ _ span' trace' _ =>
    have hcall : (⟨.call ⟨name, [], true, true, span'⟩, span', trace'⟩ : Stmt) ∈
        marshalled e.fn name span' trace' values targets ++ ss := by simp [marshalled]
    rw [← hl, List.mem_singleton] at hcall
    cases hcall

end Sited

/-- Sides that are cells of the frame, or none of the stack, pass nothing. -/
theorem isPlain_assign {p : Program} {k : Nat} {target : VarRef} {value : Expr} {span : Span}
    {trace : List Span} (ht : target.Meets (cells k)) (hv : value.Meets (cells k)) :
    IsPlain p ⟨.assign target value, span, trace⟩ := by
  refine ⟨fun c hc => (by cases hc), fun _ _ hkind k' htransfer => ?_⟩
  cases hkind
  cases htransfer with
  | store hj => exact not_meets_freeCell hj _ ht
  | load hj => exact not_meets_freeCell hj _ hv

theorem isPlain_call {p : Program} {c : Call} {span : Span} {trace : List Span}
    (h : c.usingCall = true → ∀ e, p.function? c.name.name = some e → e.fn.isTaskfunc = false) :
    IsPlain p ⟨.call c, span, trace⟩ := by
  refine ⟨fun c' hc => ?_, fun _ _ hkind => (by cases hkind)⟩
  cases hc
  exact h

theorem isPlain_reshaped {p : Program} {k k' : StmtKind} (h : k.Reshaped k') (span : Span)
    (trace : List Span) : IsPlain p ⟨k', span, trace⟩ := by
  refine ⟨fun c hc => ?_, fun _ _ hkind => ?_⟩
  · cases h <;> cases hc
  · cases h <;> cases hkind

/-! ### The scheme -/

/-- The number of variables in the frame of a block. -/
def roomOf (p : Program) : Inlining.Top → Nat
  | .callback _ => 0
  | .function name => room (p.function? name)

/-- **The rule of expanded code**: it keeps to the cells of its frame, and calls of task functions
pass their arguments on the stack. -/
def expanded (p₀ p : Program) (t : Inlining.Top) : Rule :=
  { slotted (roomOf p₀ t) with list := Sited p }

theorem meets_expanded_iff {p₀ p : Program} {t : Inlining.Top} {e : Expr} :
    e.Meets (expanded p₀ p t) ↔ e.Meets (cells (roomOf p₀ t)) := by
  have hto : (expanded p₀ p t).ImpliesExpr (cells (roomOf p₀ t)) :=
    ⟨fun _ h => h, fun _ h => h, fun _ _ _ h => h⟩
  have hof : (cells (roomOf p₀ t)).ImpliesExpr (expanded p₀ p t) :=
    ⟨fun _ h => h, fun _ h => h, fun _ _ _ h => h⟩
  exact ⟨fun h => h.imp hto, fun h => h.imp hof⟩

/-- **All lists consist of calls of task functions and of statements that pass nothing on the
stack.** -/
def passing (p : Program) : Rule where
  expr _ := True
  stmt _ := True
  list := Sited p
  skips _ := false
  atom _ _ _ := True
  whole _ _ := True

theorem cells_shallow (k : Nat) : (cells k).Shallow := ⟨fun _ _ => trivial, fun _ => trivial⟩

theorem IsOffset.meets_fixed {k : Nat} {op : BinaryOp} {left right : Expr}
    (h : IsOffset k op left right) : left.Meets .fixed ∧ right.Meets .fixed := by
  cases h with
  | mk => exact ⟨⟨rfl, trivial⟩, trivial⟩

/-- The function with a name, before the program grew. -/
theorem kept_of_function? {p₀ p : Program} (hp₀ : ∀ e ∈ p₀.functions, Kept e) (hp : p₀.Grows p)
    {name : String} {e : FunctionEntry} (he : p.function? name = some e) :
    ∃ e₀, Kept e₀ ∧ e₀.Grows e := by
  obtain ⟨e₀, he₀, hgrows⟩ := hp.exists_before he
  exact ⟨e₀, hp₀ e₀ (Program.mem_functions_of_function? he₀).1, hgrows⟩

theorem endsInCell_of_fixed {k : Nat} {es es' : List Expr} (h : EndsInCell k es)
    (hes : List.Forall₂ (fun e e' => e.Meets .fixed → e' = e) es es') : EndsInCell k es' := by
  obtain ⟨init, op, left, right, span, rfl, hoff⟩ := h
  induction init generalizing es' with
  | nil =>
    cases hes with
    | cons he hnil =>
      cases hnil
      have hfixed := hoff.meets_fixed
      rw [he (.inr ⟨trivial, hfixed.1, hfixed.2⟩)]
      exact ⟨[], op, left, right, span, rfl, hoff⟩
  | cons e init ih =>
    cases hes with
    | @cons _ e' _ _ _ hrest => exact (ih hrest).append [e']

/-- **Expansion keeps to the cells of frames**, when it starts on functions that do. -/
def expansion (env : Env) (p₀ : Program) (hp₀ : ∀ e ∈ p₀.functions, Kept e) :
    Inlining.Scheme env p₀ where
  src t := cells (roomOf p₀ t)
  dst := expanded p₀
  site _ _ _ _ := True
  here _ _ := True
  ready at' body _ := stmtsMeet (cells (roomOf p₀ at'.top)) body
  mono hp := ⟨fun _ h => h, fun _ h => h, fun _ h => h.grows hp, fun _ h => h, fun _ _ _ h => h,
    fun _ _ h => h⟩
  skips := rfl
  back h := meets_expanded_iff.mp h
  raw _ h := .inr (meets_expanded_iff.mpr h)
  atom h := ⟨h, h.meets_fixed⟩
  binary _ := trivial
  unary _ := trivial
  var _ h hes := fun hstack => endsInCell_of_fixed (h hstack) hes
  literal {_ _ e} _ _ := by cases e <;> trivial
  builtin _ _ _ _ _ := trivial
  builtinStmt _ _ _ _ _ := ⟨trivial, fun _ _ => .single (isPlain_call fun h => nomatch h)⟩
  siteOfCall _ := trivial
  siteOfStmt _ := trivial
  siteOfName _ _ := trivial
  siteOfGetter _ _ _ := trivial
  siteOfSetter _ _ _ := trivial
  nil := .nil
  append h h' := h.append h'
  assign ht hv := ⟨trivial, fun _ _ =>
    .single (isPlain_assign (meets_expanded_iff.mp ht) (meets_expanded_iff.mp hv))⟩
  reshape hk _ := ⟨trivial, fun span trace => .single (isPlain_reshaped hk span trace)⟩
  kept _ _ _ he htask _ _ := ⟨trivial, fun _ _ => .single (isPlain_call fun _ e' he' =>
    Option.some.inj (he.symm.trans he') ▸ htask)⟩
  noWhole h := h
  stored {_ _ count i _ _} hi hcount hv _ :=
    .inl (.store (j := count - i) (by omega) (by omega) (meets_expanded_iff.mp hv))
  loaded {_ _ count i _ _} hi hcount ht _ :=
    .inl (.load (j := count - i) (by omega) (by omega) (meets_expanded_iff.mp ht))
  single h := by
    obtain ⟨hlist, hwhole | ⟨-, -, hv⟩, -⟩ := h
    · exact absurd hwhole (hlist.isPlain.assign _ _ rfl _)
    · exact hv
  taskfunc _ _ _ he htask hpassed _ _ span trace :=
    ⟨trivial, .call he htask hpassed span trace⟩
  readyNil _ _ _ _ := trivial
  readyDecls {_ t _ _ _ _} hp _ he htask _ _ := by
    obtain ⟨e₀, hkept, hgrows⟩ := kept_of_function? hp₀ hp he
    have hold := hkept.hoisted (hgrows.fn ▸ htask)
    have hmono := cells_mono (Nat.zero_le (roomOf p₀ t))
    rcases hgrows.decls with ⟨hg, hl⟩ | ⟨hg, hl⟩
    · rw [hg, hl]
      exact stmtsMeet_mono hmono hold
    · rw [hg, hl]
      trivial
  readyBody {_ t _ _ _ _ s span body} hp _ he htask _ hs _ h := by
    obtain ⟨e₀, hkept, hgrows⟩ := kept_of_function? hp₀ hp he
    rw [hgrows.fn] at htask h
    have hbody : stmtsMeet (cells 0) e₀.fn.body := by
      have hroom : room (some e₀) = 0 := by simp [room, htask]
      exact hroom ▸ hkept.body
    have hfits : Fits s 0 (roomOf p₀ t) := ⟨Nat.zero_le _, fun b hb => (hs b hb).2, .inl rfl⟩
    exact (hfits.carries env).stmts trivial _ (stmtsMeet_copiedTo (cells_shallow 0) _ hbody) h

end FlatScript.Stack
