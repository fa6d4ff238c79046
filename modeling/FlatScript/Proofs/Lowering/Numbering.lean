import FlatScript.Proofs.Lowering.Storage
import FlatScript.Proofs.Renaming

/-!
# Functions up to the numbers of local variables

The names under which local variables are stored depend on the variables that are declared by
then, and nothing else in a lowered function does. To say so, the names are not compared
themselves: two functions are the same up to numbers, `FlatScript.Lowering.Renumbered`, if a
renaming that gives both names of every local variable the same name makes the functions equal.

Two ways of resolving references that such a renaming does not tell apart
(`FlatScript.Lowering.Refs.Agree`) give expressions and declarations that it does not tell apart,
and each way in which a declaration can change the function around it keeps the functions the same
up to numbers.
-/

namespace FlatScript

/-! ### Functions of the table, renamed -/

/-- A function of the table with the names in it changed. -/
def FunctionEntry.rename (g : Renaming) (e : FunctionEntry) : FunctionEntry :=
  { e with
    fn := { e.fn with body := g.stmts e.fn.body }
    globals := g.stmts e.globals
    locals := g.stmts e.locals
    frame := g.stmts e.frame
    substitutions := e.substitutions.map fun x => (x.1, g.varRef x.2) }

namespace Lowering

/-! ### Two resolutions of one reference -/

/-- **References are resolved in two ways that a renaming does not tell apart.** -/
structure Refs.Agree (g : Renaming) (r r' : Refs) : Prop where
  env : r'.env = r.env
  written : ∀ name, name ∈ r'.written ↔ name ∈ r.written
  params : r'.params = r.params
  substitutions : ∀ name, (r'.substitutions.lookup name).map g.varRef =
    (r.substitutions.lookup name).map g.varRef

section Agree

variable {g : Renaming} {r r' : Refs}

theorem Refs.Agree.qualify (h : r.Agree g r') (i : Ident) : r'.qualify i = r.qualify i := by
  have hwritten : r'.written.contains i.name = r.written.contains i.name := by
    rw [Bool.eq_iff_iff, List.contains_iff_mem, List.contains_iff_mem, h.written]
  have hkeeps : i.keepsName r.env.builtins r'.written r.params =
      i.keepsName r.env.builtins r.written r.params := by
    simp only [Ident.keepsName, hwritten]
  simp only [Refs.qualify, h.env, h.params, Ident.qualify, hkeeps]

/-- What stands in the place of a name, on both sides. -/
theorem Refs.Agree.substitute? (h : r.Agree g r') (i : Ident) :
    Option.Rel (fun v v' => g.varRef v' = g.varRef v) (r.substitute? i) (r'.substitute? i) := by
  have hmap := h.substitutions i.name
  unfold Refs.substitute?
  generalize r.substitutions.lookup i.name = o at hmap ⊢
  generalize r'.substitutions.lookup i.name = o' at hmap ⊢
  cases o with
  | none =>
    cases Option.map_eq_none_iff.mp hmap
    exact .none
  | some v =>
    obtain ⟨v', rfl, hv⟩ := Option.map_eq_some_iff.mp hmap
    exact .some hv

theorem Refs.Agree.ident (h : r.Agree g r') (i : Ident) :
    g.name (r'.ident i) = g.name (r.ident i) := by
  unfold Refs.ident
  rw [h.qualify]
  dsimp only
  have hrel := h.substitute? (r.qualify i)
  generalize r.substitute? (r.qualify i) = o at hrel ⊢
  generalize r'.substitute? (r.qualify i) = o' at hrel ⊢
  cases hrel with
  | none => rfl
  | some hv => exact congrArg VarRef.ident hv

theorem Refs.Agree.varRef (h : r.Agree g r') (i : Ident) {es es' : List Expr} (span : Span)
    (hes : g.exprs es' = g.exprs es) :
    g.varRef (r'.varRef i es' span) = g.varRef (r.varRef i es span) := by
  unfold Refs.varRef
  rw [h.qualify]
  dsimp only
  have hrel := h.substitute? (r.qualify i)
  generalize r.substitute? (r.qualify i) = o at hrel ⊢
  generalize r'.substitute? (r.qualify i) = o' at hrel ⊢
  cases hrel with
  | none => simp only [Renaming.varRef, hes]
  | some hv =>
    obtain ⟨hident, hsubscripts⟩ := VarRef.mk.inj hv
    rw [Renaming.exprs_eq_map, Renaming.exprs_eq_map] at hes hsubscripts
    simp only [Renaming.varRef, Renaming.exprs_eq_map, List.map_append, hident, hes, hsubscripts.1]

mutual

/-- **An expression is resolved in two ways that the renaming does not tell apart.** -/
theorem expr_agree (h : r.Agree g r') : ∀ e : Expr, g.expr (expr r' e) = g.expr (expr r e)
  | .binary op left right span => by
    simp only [expr, Renaming.expr, expr_agree h left, expr_agree h right]
  | .unary op operand span => by simp only [expr, Renaming.expr, expr_agree h operand]
  | .var i subscripts span => by
    have hv := h.varRef i span (exprs_agree h subscripts)
    simp only [Renaming.varRef, VarRef.mk.injEq] at hv
    simp only [expr, VarRef.toExpr, Renaming.expr, hv]
  | .call name args isProcedure usingCall span => by
    simp only [expr, Renaming.expr, h.ident, arguments_agree h]
  | .int _ _ | .real _ _ | .str _ _ | .bool _ _ | .raw _ _ => by simp only [expr]

theorem exprs_agree (h : r.Agree g r') :
    ∀ es : List Expr, g.exprs (exprs r' es) = g.exprs (exprs r es)
  | [] => by simp only [exprs]
  | e :: es => by simp only [exprs, Renaming.exprs, expr_agree h e, exprs_agree h es]

theorem arguments_agree (h : r.Agree g r') {keepFirst : Bool} :
    ∀ es : List Expr, g.exprs (arguments r' keepFirst es) = g.exprs (arguments r keepFirst es)
  | [] => by simp only [arguments]
  | e :: es => by
    cases keepFirst with
    | true => simp only [arguments, Renaming.exprs, exprs_agree h es, if_true]
    | false =>
      simp only [arguments, Renaming.exprs, exprs_agree h es, expr_agree h e, Bool.false_eq_true,
        if_false]

end

theorem option_agree (h : r.Agree g r') (o : Option Expr) :
    (o.map (expr r')).map g.expr = (o.map (expr r)).map g.expr := by
  cases o with
  | none => rfl
  | some e => simp only [Option.map_some, expr_agree h]

theorem varRef_agree (h : r.Agree g r') (v : VarRef) :
    g.varRef (varRef r' v) = g.varRef (varRef r v) :=
  h.varRef v.ident v.span (exprs_agree h v.subscripts)

theorem call_agree (h : r.Agree g r') (c : Call) : g.call (call r' c) = g.call (call r c) := by
  simp only [call, Renaming.call, h.ident, arguments_agree h]

/-! ### Declarations -/

/-- No name has a value while nothing is known of constants. -/
theorem eval_rename (g : Renaming) : ∀ e : Expr, (g.expr e).eval [] = e.eval []
  | .binary op left right span => by
    simp only [Renaming.expr, Expr.eval, eval_rename g left, eval_rename g right]
  | .unary op operand span => by simp only [Renaming.expr, Expr.eval, eval_rename g operand]
  | .var i [] span => by simp only [Renaming.expr, Renaming.exprs, Expr.eval, List.lookup_nil]
  | .var i (e :: es) span => by simp only [Renaming.expr, Renaming.exprs, Expr.eval]
  | .call _ _ _ _ _ => by simp only [Renaming.expr, Expr.eval]
  | .int _ _ | .real _ _ | .str _ _ | .bool _ _ | .raw _ _ => by simp only [Renaming.expr]

theorem sampleValue?_rename (g : Renaming) (d : Declaration) :
    sampleValue? (g.declaration d) = sampleValue? d := by
  unfold sampleValue? Declaration.firstValue?
  rcases hinit : d.init with _ | (e | es)
  · simp [Renaming.declaration, hinit]
  · simp [Renaming.declaration, hinit, Renaming.initializer, eval_rename]
  · cases es with
    | nil => simp [Renaming.declaration, hinit, Renaming.initializer, Renaming.exprs]
    | cons e es =>
      simp [Renaming.declaration, hinit, Renaming.initializer, Renaming.exprs, eval_rename]

/-- The sigil of a declaration does not depend on names. -/
theorem inferSigil_rename (g : Renaming) (d : Declaration) :
    inferSigil (g.declaration d) = inferSigil d := by
  unfold inferSigil
  rw [sampleValue?_rename]
  have hsize : (g.declaration d).size.isSome = d.size.isSome := by simp [Renaming.declaration]
  rw [hsize]
  rfl

/-- **A declaration is resolved in two ways that the renaming does not tell apart.** Its name is
the same in both. -/
theorem lowered_agree (h : r.Agree g r') (families : List String) (d : Declaration) :
    g.declaration (lowered r' families d) = g.declaration (lowered r families d) ∧
      (lowered r' families d).name = (lowered r families d).name := by
  have hinit : (d.init.map (initializer r')).map g.initializer =
      (d.init.map (initializer r)).map g.initializer := by
    rcases d.init with _ | (e | es)
    · rfl
    · simp only [Option.map_some, initializer, Renaming.initializer, expr_agree h]
    · simp only [Option.map_some, initializer, Renaming.initializer, exprs_agree h]
  -- Before the sigil is found.
  have hbare : g.declaration
        ⟨declaredName r'.env families d.name, d.modifiers, d.size.map (expr r'),
          exprs r' d.params, d.init.map (initializer r')⟩ =
      g.declaration ⟨declaredName r.env families d.name, d.modifiers, d.size.map (expr r),
        exprs r d.params, d.init.map (initializer r)⟩ := by
    simp only [Renaming.declaration, h.env, option_agree h, exprs_agree h, hinit]
  have hsigil := congrArg inferSigil hbare
  rw [inferSigil_rename, inferSigil_rename] at hsigil
  have hname : (lowered r' families d).name = (lowered r families d).name := by
    unfold lowered
    dsimp only
    rw [hsigil, h.env]
  refine ⟨?_, hname⟩
  simp only [Renaming.declaration, hname]
  simp only [lowered, option_agree h, exprs_agree h, hinit]

end Agree

/-! ### Storage names -/

/-- **A local variable is stored under a name with an underscore.** -/
theorem isUnique.isStorage {d : Declaration} {unique : String} (h : isUnique d unique) :
    isStorage (Text.lower unique) = true := by
  obtain ⟨sigil, rest, hlist⟩ := h.toList
  exact isStorage_lower hlist

/-! ### Functions up to numbers -/

/-- A renaming for which each of the pairs is one name. -/
def Identifies (g : Renaming) (pairs : List (Ident × Ident)) : Prop :=
  ∀ x ∈ pairs, g.name x.1 = g.name x.2

/-- **Two names under which one local variable can be stored.** They differ in the numbers. -/
def Renumbers (i i' : Ident) : Prop :=
  ∃ d u u', isUnique d u ∧ isUnique d u' ∧ i = .fixed u d.name.span ∧ i' = .fixed u' d.name.span

/-- **A function is lowered in two ways that differ only in the names of its local variables.** A
renaming that does not tell the two names of each of them apart does not tell the functions
apart. -/
structure Renumbered (pairs : List (Ident × Ident)) (e e' : FunctionEntry) : Prop where
  left : e.storage = pairs.map Prod.fst
  right : e'.storage = pairs.map Prod.snd
  numbers : ∀ x ∈ pairs, Renumbers x.1 x.2
  same : ∀ g, Identifies g pairs → e'.rename g = e.rename g

section Renumbered

variable {g : Renaming} {pairs more : List (Ident × Ident)} {e e' : FunctionEntry}

theorem Identifies.before (h : Identifies g (pairs ++ more)) : Identifies g pairs :=
  fun x hx => h x (List.mem_append_left _ hx)

/-- Nothing but names can differ. -/
theorem Renumbered.blank (h : Renumbered pairs e e') :
    e'.rename ⟨fun _ => default, id⟩ = e.rename ⟨fun _ => default, id⟩ :=
  h.same _ fun _ _ => rfl

/-- The functions have the same name, parameters and result, and are of the same kind. -/
theorem Renumbered.fn (h : Renumbered pairs e e') : e'.fn = { e.fn with body := e'.fn.body } := by
  have hfn := congrArg FunctionEntry.fn h.blank
  simp only [FunctionEntry.rename, FunctionDef.mk.injEq] at hfn
  obtain ⟨hname, hparams, hresult, -, htaskfunc, hoverride, hspan⟩ := hfn
  dsimp only
  rw [← hname, ← hparams, ← hresult, ← htaskfunc, ← hoverride, ← hspan]
  cases e'.fn with
  | mk => rfl

theorem Renumbered.name (h : Renumbered pairs e e') : e'.name = e.name := by
  rw [FunctionEntry.name, h.fn]
  rfl

theorem Renumbered.localNames (h : Renumbered pairs e e') : e'.localNames = e.localNames :=
  congrArg (·.localNames) h.blank

theorem Renumbered.frame (h : Renumbered pairs e e') : e'.frame.length = e.frame.length := by
  have hlength := congrArg (fun e : FunctionEntry => e.frame.length) h.blank
  simpa [FunctionEntry.rename, Renaming.stmts_eq_map] using hlength

theorem Renumbered.substitutions (h : Renumbered pairs e e') (hg : Identifies g pairs)
    (name : String) : (e'.substitutions.lookup name).map g.varRef =
      (e.substitutions.lookup name).map g.varRef := by
  have hlookup : ∀ l : List (String × VarRef),
      (l.map fun x => (x.1, g.varRef x.2)).lookup name = (l.lookup name).map g.varRef := by
    intro l
    induction l with
    | nil => rfl
    | cons x l ih =>
      obtain ⟨k, v⟩ := x
      simp only [List.map_cons, List.lookup_cons, ih]
      cases name == k <;> rfl
  rw [← hlookup, ← hlookup]
  exact congrArg (fun e : FunctionEntry => e.substitutions.lookup name) (h.same g hg)

/-- The names of local variables are like those of local variables, on both sides. -/
theorem Renumbered.isStorage (h : Renumbered pairs e e') {i : Ident}
    (hi : i ∈ e.storage ∨ i ∈ e'.storage) : Lowering.isStorage i.key = true := by
  rw [h.left, h.right, List.mem_map, List.mem_map] at hi
  rcases hi with ⟨x, hx, rfl⟩ | ⟨x, hx, rfl⟩
  · obtain ⟨d, u, u', hu, -, hi, -⟩ := h.numbers x hx
    rw [hi, Ident.key, Ident.full_fixed]
    exact hu.isStorage
  · obtain ⟨d, u, u', -, hu', -, hi⟩ := h.numbers x hx
    rw [hi, Ident.key, Ident.full_fixed]
    exact hu'.isStorage

/-- A function starts out without local variables. -/
theorem Renumbered.opened (env : Env) (f : FunctionDef) :
    Renumbered [] (opened env f) (opened env f) :=
  ⟨rfl, rfl, by simp, fun _ _ => rfl⟩

end Renumbered

/-! ### Declarations in functions -/

/-- **Statements that differ only in the names of local variables.** -/
def Alike (pairs : List (Ident × Ident)) (ss ss' : List Stmt) : Prop :=
  ∀ g, Identifies g pairs → g.stmts ss' = g.stmts ss

/-- A declaration that differs only in the names of local variables in it. -/
structure SameDeclaration (pairs : List (Ident × Ident)) (d d' : Declaration) : Prop where
  name : d'.name = d.name
  same : ∀ g, Identifies g pairs → g.declaration d' = g.declaration d

theorem SameDeclaration.modifiers {pairs : List (Ident × Ident)} {d d' : Declaration}
    (h : SameDeclaration pairs d d') : d'.modifiers = d.modifiers :=
  congrArg (·.modifiers) (h.same ⟨fun _ => default, id⟩ fun _ _ => rfl)

theorem splitInit_rename (g : Renaming) (target : VarRef) (d : Declaration) (span : Span)
    (trace : List Span) :
    g.stmts ((splitInit target d).1.map (⟨·, span, trace⟩)) =
        (splitInit (g.varRef target) (g.declaration d)).1.map (⟨·, span, trace⟩) ∧
      g.declaration (splitInit target d).2 =
        (splitInit (g.varRef target) (g.declaration d)).2 := by
  obtain ⟨name, modifiers, size, params, init⟩ := d
  unfold splitInit
  have hconst : (g.declaration ⟨name, modifiers, size, params, init⟩).isConst =
      (⟨name, modifiers, size, params, init⟩ : Declaration).isConst := rfl
  have hsize : (g.declaration ⟨name, modifiers, size, params, init⟩).size.isSome = size.isSome := by
    simp [Renaming.declaration]
  rw [hconst, hsize]
  split
  · simp [Renaming.stmts_eq_map]
  · rcases init with _ | (e | es)
    · simp [Renaming.declaration, Renaming.stmts_eq_map]
    · simp [Renaming.declaration, Renaming.initializer, Renaming.stmts_eq_map, Renaming.stmt]
    · simp [Renaming.declaration, Renaming.initializer, Renaming.stmts_eq_map]

section LocalDeclaration

variable {pairs : List (Ident × Ident)} {f f' : FunctionEntry} {d d' : Declaration}
  (hf : Renumbered pairs f f') (hd : SameDeclaration pairs d d') (span : Span) (trace : List Span)
include hf

theorem Renumbered.note (names : List String) :
    Renumbered pairs { f with localNames := names } { f' with localNames := names } :=
  ⟨hf.left, hf.right, hf.numbers, fun g hg =>
    congrArg (fun e : FunctionEntry => { e with localNames := names }) (hf.same g hg)⟩

include hd

/-- A declaration of a global variable. -/
theorem Renumbered.addGlobal :
    Renumbered pairs
      { f with globals := f.globals ++ [⟨.declare (d.withoutModifier "global"), span, trace⟩] }
      { f' with globals := f'.globals ++ [⟨.declare (d'.withoutModifier "global"), span, trace⟩] } := by
  refine ⟨hf.left, hf.right, hf.numbers, fun g hg => ?_⟩
  have hsame := hf.same g hg
  have hdecl : g.declaration (d'.withoutModifier "global") =
      g.declaration (d.withoutModifier "global") :=
    congrArg (·.withoutModifier "global") (hd.same g hg)
  simp only [FunctionEntry.rename, FunctionEntry.mk.injEq] at hsame
  simp only [FunctionEntry.rename, Renaming.stmts_append, Renaming.stmts, Renaming.stmt, hdecl,
    hsame]

/-- A declaration of a cell of the frame. -/
theorem Renumbered.addFrameLocal :
    Renumbered pairs (addFrameLocal f d span trace).2 (addFrameLocal f' d' span trace).2 ∧
      Alike pairs (addFrameLocal f d span trace).1 (addFrameLocal f' d' span trace).1 := by
  have hboth : ∀ g, Identifies g pairs →
      (Lowering.addFrameLocal f' d' span trace).2.rename g =
          (Lowering.addFrameLocal f d span trace).2.rename g ∧
        g.stmts (Lowering.addFrameLocal f' d' span trace).1 =
          g.stmts (Lowering.addFrameLocal f d span trace).1 := by
    intro g hg
    have hsame := hf.same g hg
    simp only [FunctionEntry.rename, FunctionEntry.mk.injEq] at hsame
    obtain ⟨hfn, hglobals, hlocals, hframe, hsubstitutions, hlocalNames, hused⟩ := hsame
    unfold Lowering.addFrameLocal
    rw [hd.name, hf.frame]
    dsimp only
    have hsplit := splitInit_rename g (Frame.slot Frame.framePointer .add (f.frame.length + 1)
      d.name.span) d span trace
    have hsplit' := splitInit_rename g (Frame.slot Frame.framePointer .add (f.frame.length + 1)
      d.name.span) d' span trace
    rw [hd.same g hg] at hsplit'
    refine ⟨?_, hsplit'.1.trans hsplit.1.symm⟩
    simp only [FunctionEntry.rename, hfn, hglobals, hlocals, hlocalNames, hused, List.map_cons,
      hsubstitutions, Renaming.stmts_append, hframe, Renaming.stmts, Renaming.stmt, hsplit'.2,
      hsplit.2]
  exact ⟨⟨hf.left, hf.right, hf.numbers, fun g hg => (hboth g hg).1⟩, fun g hg => (hboth g hg).2⟩

/-- **A declaration of a local variable** that gets a name of its own on each side. -/
theorem Renumbered.addRenamedLocal {u u' : String} (hu : isUnique d u) (hu' : isUnique d u') :
    Renumbered (pairs ++ [(.fixed u d.name.span, .fixed u' d.name.span)])
        (addRenamedLocal f u d span trace).2 (addRenamedLocal f' u' d' span trace).2 ∧
      Alike (pairs ++ [(.fixed u d.name.span, .fixed u' d.name.span)])
        (addRenamedLocal f u d span trace).1 (addRenamedLocal f' u' d' span trace).1 := by
  have hboth : ∀ g, Identifies g (pairs ++ [(.fixed u d.name.span, .fixed u' d.name.span)]) →
      (Lowering.addRenamedLocal f' u' d' span trace).2.rename g =
          (Lowering.addRenamedLocal f u d span trace).2.rename g ∧
        g.stmts (Lowering.addRenamedLocal f' u' d' span trace).1 =
          g.stmts (Lowering.addRenamedLocal f u d span trace).1 := by
    intro g hg
    have hsame := hf.same g hg.before
    simp only [FunctionEntry.rename, FunctionEntry.mk.injEq] at hsame
    obtain ⟨hfn, hglobals, hlocals, hframe, hsubstitutions, hlocalNames, hused⟩ := hsame
    have hname : g.name (.fixed u' d.name.span) = g.name (.fixed u d.name.span) :=
      (hg (_, _) (List.mem_append_right _ (List.mem_singleton_self _))).symm
    have htarget : g.varRef (.plain (.fixed u' d.name.span)) =
        g.varRef (.plain (.fixed u d.name.span)) := by
      simp only [Renaming.varRef, VarRef.plain, hname]
      rfl
    have hdecl : g.declaration { d'.withoutModifier "local" with name := .fixed u' d.name.span } =
        g.declaration { d.withoutModifier "local" with name := .fixed u d.name.span } := by
      have hdecl := hd.same g hg.before
      simp only [Renaming.declaration, Declaration.mk.injEq] at hdecl
      obtain ⟨-, hmodifiers, hsize, hparams, hinit⟩ := hdecl
      simp only [Renaming.declaration, Declaration.withoutModifier, hmodifiers, hsize, hparams,
        hinit, hname]
    unfold Lowering.addRenamedLocal
    rw [hd.name]
    dsimp only
    have hsplit := splitInit_rename g (.plain (.fixed u d.name.span))
      { d.withoutModifier "local" with name := .fixed u d.name.span } span trace
    have hsplit' := splitInit_rename g (.plain (.fixed u' d.name.span))
      { d'.withoutModifier "local" with name := .fixed u' d.name.span } span trace
    rw [htarget, hdecl] at hsplit'
    refine ⟨?_, hsplit'.1.trans hsplit.1.symm⟩
    simp only [FunctionEntry.rename, hfn, hglobals, hframe, hlocalNames, hused, List.map_cons,
      hsubstitutions, htarget, Renaming.stmts_append, hlocals, Renaming.stmts, Renaming.stmt,
      hsplit'.2, hsplit.2]
  -- Each side stores the variable behind those that it has.
  have hstorage : ∀ (e : FunctionEntry) (d : Declaration) (u : String),
      (Lowering.addRenamedLocal e u d span trace).2.storage =
        e.storage ++ [.fixed u d.name.span] := by
    intro e d u
    obtain ⟨d₁, hname, hlocals⟩ := addRenamedLocal_locals e u d span trace
    rw [FunctionEntry.storage, hlocals, stmtsDeclared_append]
    simp [FunctionEntry.storage, stmtsDeclared, Stmt.declared, hname]
  refine ⟨⟨?_, ?_, fun x hx => ?_, fun g hg => (hboth g hg).1⟩, fun g hg => (hboth g hg).2⟩
  · rw [hstorage, hf.left, List.map_append]
    rfl
  · rw [hstorage, hf.right, List.map_append, hd.name]
    rfl
  · rcases List.mem_append.mp hx with hx | hx
    · exact hf.numbers x hx
    · rw [List.mem_singleton.mp hx]
      exact ⟨d, u, u', hu, hu', rfl, rfl⟩

end LocalDeclaration

end Lowering

end FlatScript
