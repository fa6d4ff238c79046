import FlatScript.Proofs.Characters
import FlatScript.Proofs.Hoisting
import FlatScript.Proofs.Inlining.Arguments
import FlatScript.Proofs.Inlining.Calls
import FlatScript.Proofs.Sigils

/-!
# The calls of a compiled script

A call that is left in a compiled script is one of a built-in function, or it is written with
`call`, and then the function that it calls stands before the block that it is in. So the
functions of a compiled script never call each other in a circle.

This is true of the blocks whose calls have been expanded. It is left open for the others:

* a function that has a result and no parameters can be called with `call`, but is not expanded,
* a task function may have a parameter that is called like a function, and then calls of the
  function are taken for ones through the parameter,
* the declarations that are moved into the init callback are not expanded.

Main statements:

* `FlatScript.callsTo` is the rule on calls, and the theorems about it go from step to step.
* `FlatScript.compile_callsBack` is the statement on compilations.
-/

namespace FlatScript

variable {env : Env} {s s' : Script} {p p' : Program} {B B' T T' : String → Prop}

/-! ### The rule -/

/-- **What is called**: without the word `call` something that is built in, and with it a
target. -/
def callsTo (B T : String → Prop) : Rule where
  expr
    | .call name _ _ usingCall _ => usingCall = false ∧ B name.name
    | _ => True
  stmt
    | .call c => (c.usingCall = false ∧ B c.name.name) ∨ (c.usingCall = true ∧ T c.name.name)
    | _ => True
  list _ := True
  skips := Builtins.keepsFirstArgument
  atom _ _ _ := False

theorem callsTo_mono (hB : ∀ n, B n → B' n) (hT : ∀ n, T n → T' n) :
    (callsTo B T).Implies (callsTo B' T') := by
  refine ⟨fun e he => ?_, fun k hk => ?_, fun _ h => h, fun _ h => h, fun _ _ _ h => h,
    fun _ _ h => h⟩
  · cases e with
    | call name args isProcedure usingCall span => exact ⟨he.1, hB _ he.2⟩
    | _ => trivial
  · cases k with
    | call c =>
      rcases hk with ⟨hword, hname⟩ | ⟨hword, hname⟩
      · exact .inl ⟨hword, hB _ hname⟩
      · exact .inr ⟨hword, hT _ hname⟩
    | _ => trivial

theorem callsTo_reshaped {k k' : StmtKind} (h : k.Reshaped k') (_ : (callsTo B T).stmt k) :
    (callsTo B T).stmt k' := by
  cases h <;> trivial

/-! ### Sigils -/

namespace Sigils

/-- Finding sigils leaves calls alone, in every expression. -/
theorem callsTo_carries (env : Env) (p : Program) (scope : Scope) (B T : String → Prop) :
    Carries env p scope (callsTo B T) (callsTo B T) where
  atom h := h.elim
  binary _ := trivial
  unary _ := trivial
  literal _ h := h
  var _ _ _ := trivial
  call h := h
  skips h := h
  kept h := .inl h

/-- Finding sigils leaves calls alone. -/
theorem carries_callsTo (env : Env) (p : Program) (B T : String → Prop) :
    (leafMap env p).Carries (callsTo B T) (callsTo B T) where
  expr _ hm h := (callsTo_carries env p _ B T).ofExpr _ hm h
  target _ hm h := (callsTo_carries env p _ B T).ofVarRef hm h
  call _ hk hm h := by
    obtain ⟨args, hargs, rfl⟩ := call_eq_ok h
    exact ⟨hk, (callsTo_carries env p _ B T).ofArguments _ hm hargs⟩
  assign _ _ _ := trivial
  whole _ h := h.elim
  accessors _ _ _ := trivial
  reshape := callsTo_reshaped
  list _ _ := trivial

end Sigils

/-! ### Frames -/

namespace Substitution

/-- **A substitution that has nothing to do with calls.** -/
structure Callless (B T : String → Prop) (σ : Substitution) : Prop where
  names : ∀ n, B n ∨ T n → σ.find? n = none
  values : ∀ pair ∈ σ, pair.2.Meets (callsTo B T)

variable {σ : Substitution} {trace : List Span}

theorem Callless.functionName (hσ : σ.Callless B T) {name name' : Ident} {span : Span}
    (hname : B name.name ∨ T name.name)
    (h : functionName env σ trace name span = .ok name') : name' = name := by
  rw [Substitution.functionName, hσ.names _ hname] at h
  cases h
  rfl

/-- Such a substitution leaves calls alone, in every expression. -/
theorem Callless.callsTo_carries (env : Env) (hσ : σ.Callless B T) :
    Carries env σ (callsTo B T) (callsTo B T) where
  value _ hfind := hσ.values _ (mem_of_find? hfind)
  atom h := h.elim
  binary _ := trivial
  unary _ := trivial
  literal _ h := h
  var _ _ _ := trivial
  merged _ _ := trivial
  call h hname _ := by
    rw [hσ.functionName (.inl h.2) hname]
    exact ⟨h, id⟩

/-- Such a substitution leaves calls alone. -/
theorem Callless.carries (env : Env) (hσ : σ.Callless B T) :
    (leafMap env σ).Carries (callsTo B T) (callsTo B T) where
  expr _ hm h := (hσ.callsTo_carries env).ofExpr _ hm h
  target _ hm h := (hσ.callsTo_carries env).ofTarget hm h
  call _ hk hm h := by
    obtain ⟨name, args, hname, hargs, rfl⟩ := call_eq_ok h
    rw [hσ.functionName (hk.imp And.right And.right) hname]
    exact ⟨hk, (hσ.callsTo_carries env).ofArgs id _ hm hargs⟩
  assign _ _ _ := trivial
  whole _ h := h.elim
  accessors _ _ _ := trivial
  reshape := callsTo_reshaped
  list _ _ := trivial

end Substitution

/-! ### Controls, dots and folding -/

/-- The check of controls puts in calls of one function, which has to be built in. -/
theorem Controls.carries_callsTo (hid : B "get_ui_id") :
    Controls.Carries (callsTo B T) (callsTo B T) where
  binary _ := trivial
  unary _ := trivial
  var _ _ _ := trivial
  call h := h
  literal _ h := h
  id := ⟨rfl, hid⟩
  callStmt h := h
  assign _ := trivial
  skips _ h := h
  noAtom h := h
  noWhole h := h
  reshape := callsTo_reshaped
  list _ := trivial

/-- The names of what is called lose their dots. -/
theorem Undotting.carries_callsTo (hB : ∀ n, B n → B' (Name.undotted n))
    (hT : ∀ n, T n → T' (Name.undotted n)) : undot.Carries (callsTo B T) (callsTo B' T') where
  expr {e} h := by
    cases e with
    | call name _ _ _ _ =>
      simp only [Renaming.expr]
      exact ⟨h.1, hB _ h.2⟩
    | _ =>
      simp only [Renaming.expr]
      trivial
  stmt {k} _ _ h := by
    cases k with
    | call c =>
      simp only [Renaming.stmt]
      rcases h with ⟨hword, hname⟩ | ⟨hword, hname⟩
      · exact .inl ⟨hword, hB _ hname⟩
      · exact .inr ⟨hword, hT _ hname⟩
    | _ =>
      simp only [Renaming.stmt]
      trivial
  list _ := trivial
  skipsExpr {name} _ _ _ _ _ h := by
    change Builtins.keepsFirstArgument (Name.undotted name.name) = true
    rwa [Undotting.keepsFirstArgument h]
  skipsStmt {c} _ h := by
    change Builtins.keepsFirstArgument (Name.undotted c.name.name) = true
    rwa [Undotting.keepsFirstArgument h]
  atom h := h
  whole h := h

/-- Folding leaves calls alone. -/
theorem callsTo_folds (B T : String → Prop) : (callsTo B T).Folds where
  literal {constants e v e'} _ he := by
    cases v <;> simp only [Value.toExpr?, Option.some.injEq, reduceCtorEq] at he <;> subst he <;>
      trivial
  binary _ := trivial
  unary _ := trivial
  var _ _ := trivial
  call h _ := h
  callStmt h _ := h
  assign _ := trivial
  chain _ _ := trivial
  reshape := callsTo_reshaped
  list _ := trivial
  noAtom h := h
  noWhole h := h

/-! ### Blocks -/

/-- **A script in which calls go back**: apart from the blocks that are exempt, what is called is
built in or stands in an earlier block. -/
def Script.CallsBack (exempt : Block.Head → Prop) (B : String → Prop) (s : Script) : Prop :=
  ∀ before b after, s.blocks = before ++ b :: after → exempt b.head ∨
    stmtsMeet (callsTo B (· ∈ (⟨before⟩ : Script).functionNames)) b.body

/-- A step that treats blocks one by one keeps the direction of calls. -/
theorem Script.CallsBack.step {exempt exempt' : Block.Head → Prop} {f : Block.Head → Block.Head}
    {g : String → String} (h : s.CallsBack exempt B)
    (hf : ∀ head, (f head).functionName? = head.functionName?.map g)
    (hexempt : ∀ head, exempt head → exempt' (f head))
    (hblocks : List.Forall₂ (fun b b' : Block => b'.head = f b.head ∧
      ∀ T T' : String → Prop, (∀ n, T n → T' (g n)) → stmtsMeet (callsTo B T) b.body →
        stmtsMeet (callsTo B' T') b'.body) s.blocks s'.blocks) :
    s'.CallsBack exempt' B' := by
  intro before' b' after' hsplit'
  rw [hsplit'] at hblocks
  obtain ⟨before, b, after, hsplit, hbefore, hhead, hcarries⟩ := exists_split_of_forall₂ hblocks
  have hnames : (⟨before'⟩ : Script).functionNames = (⟨before⟩ : Script).functionNames.map g := by
    have hheads : (⟨before'⟩ : Script).heads = (⟨before⟩ : Script).heads.map f := by
      simp only [Script.heads, List.map_map]
      exact map_eq_of_forall₂ hbefore fun _ _ hb => hb.1
    rw [Script.functionNames_eq, Script.functionNames_eq, hheads, List.filterMap_map,
      List.map_filterMap]
    congr 1
    funext head
    exact hf head
  rw [hhead]
  refine (h before b after hsplit).imp (hexempt b.head) (hcarries _ _ fun n hn => ?_)
  rw [hnames]
  exact List.mem_map_of_mem hn

/-- A step that changes the leaves of statements and leaves calls alone. -/
theorem Script.CallsBack.mapLeaves {exempt : Block.Head → Prop} {f : LeafMap CompileError}
    {control : Ident → Except CompileError Ident} (h : s.CallsBack exempt B)
    (hf : ∀ T, f.Carries (callsTo B T) (callsTo B T))
    (hblocks : List.Forall₂ (Block.MapLeaves f control) s.blocks s'.blocks) :
    s'.CallsBack exempt B :=
  h.step (f := id) (g := id) (fun _ => Option.map_id_apply.symm) (fun _ h => h)
    (hblocks.imp fun _ _ hb => ⟨hb.head, fun T _ hT hm =>
      stmtsMeet_mono (callsTo_mono (fun _ h => h) hT) ((hf T).block hm hb)⟩)

/-- Names without dots. -/
theorem Script.CallsBack.undot {exempt : Block.Head → Prop} (h : s.CallsBack exempt B) :
    (Undotting.undot.script s).CallsBack
      (fun head' => ∃ head, exempt head ∧ head' = head.rename Undotting.ident)
      (fun n => ∃ m, B m ∧ n = Name.undotted m) := by
  refine h.step (f := Block.Head.rename Undotting.ident) (g := Name.undotted) (fun head => ?_)
    (fun head hhead => ⟨head, hhead, rfl⟩) ?_
  · cases head <;> rfl
  · refine List.forall₂_map_right_iff.mpr (List.forall₂_same.mpr fun b _ => ?_)
    cases b with
    | callback c =>
      exact ⟨rfl, fun T T' hT =>
        (Undotting.carries_callsTo (fun n hn => ⟨n, hn, rfl⟩) hT).ofStmts c.body⟩
    | function f =>
      exact ⟨rfl, fun T T' hT =>
        (Undotting.carries_callsTo (fun n hn => ⟨n, hn, rfl⟩) hT).ofStmts f.body⟩

/-- Folding. -/
theorem Script.CallsBack.fold {exempt : Block.Head → Prop} (h : s.CallsBack exempt B) :
    (Folding.script s).CallsBack exempt B := by
  refine h.step (f := id) (g := id) (fun _ => Option.map_id_apply.symm) (fun _ h => h)
    (List.forall₂_map_right_iff.mpr (List.forall₂_same.mpr fun b _ => ?_))
  have hbody : ∀ body (T T' : String → Prop), (∀ n, T n → T' n) → stmtsMeet (callsTo B T) body →
      stmtsMeet (callsTo B T') (Folding.stmts (Folding.constantsOf s) body) :=
    fun body T T' hT hm => Folding.meets_stmts (callsTo_folds B T') body
      (stmtsMeet_mono (callsTo_mono (fun _ h => h) hT) hm)
  cases b with
  | callback c => exact ⟨rfl, hbody c.body⟩
  | function f => exact ⟨rfl, hbody f.body⟩

/-! ### Expanded functions -/

/-- The calls that are left by expansion are recorded ones. -/
theorem Inlining.fullyInlined_callsTo (env : Env) (p : Program) (t : Top) :
    (fullyInlined env p t).Implies
      (callsTo (env.builtins.isFunction · = true) (Recorded p t)) := by
  have hbuiltin : ∀ name, p.isBuiltinCall env.builtins name = true →
      env.builtins.isFunction name = true := by
    intro name h
    rw [Program.isBuiltinCall, Bool.and_eq_true] at h
    exact h.1
  refine ⟨fun e he => ?_, fun k hk => ?_, fun _ h => h, fun _ h => h, fun _ _ _ h => h,
    fun _ _ h => h⟩
  · cases e with
    | call name args isProcedure usingCall span => exact ⟨he.1, hbuiltin _ he.2⟩
    | _ => trivial
  · cases k with
    | call c =>
      rcases hk with ⟨hword, hname⟩ | ⟨hword, -, hname⟩
      · exact .inl ⟨hword, hbuiltin _ hname⟩
      · exact .inr ⟨hword, hname⟩
    | _ => trivial

/-- The cells of a frame are no calls. -/
theorem Taskfunc.callless_slots {e : FunctionEntry}
    (h : ∀ n, B n ∨ T n → Name.firstPart n ∉ slotNames e.fn) : (slots e).Callless B T := by
  have hspec : ∀ (names : List String) (offset : Nat),
      ∀ pair ∈ slotsFrom e.fn.span offset names,
        pair.1 ∈ names ∧ pair.2.Meets (callsTo B T) := by
    intro names
    induction names with
    | nil => simp [slotsFrom]
    | cons name names ih =>
      intro offset pair hpair
      rcases List.mem_cons.mp hpair with rfl | hpair
      · refine ⟨by simp, ?_⟩
        unfold Frame.slot
        dsimp only
        split <;> simp [VarRef.toExpr, Expr.op, Frame.fixedVar, VarRef.plain, Expr.Meets,
          exprsMeet, callsTo]
      · exact ⟨by simp [(ih _ pair hpair).1], (ih _ pair hpair).2⟩
  refine ⟨fun n hn => ?_, fun pair hpair => (hspec _ _ pair (List.mem_reverse.mp hpair)).2⟩
  cases hfound : (slots e).find? n with
  | none => rfl
  | some value =>
    have hmem := List.mem_reverse.mp (Substitution.mem_of_find? hfound)
    exact absurd (hspec _ _ _ hmem).1 (h n hn)

/-- A function with its frame calls what it has called before. -/
theorem Taskfunc.callsTo_withFrame {e e' : FunctionEntry}
    (h : e.fn.isTaskfunc = true → ∀ n, B n ∨ T n → Name.firstPart n ∉ slotNames e.fn)
    (hbody : stmtsMeet (callsTo B T) e.fn.body) (hframe : withFrame env e = .ok e') :
    stmtsMeet (callsTo B T) e'.fn.body := by
  rcases withFrame_eq_ok hframe with ⟨-, rfl⟩ | ⟨htask, -, body, hsubst, rfl⟩
  · exact hbody
  · have hmiddle := ((callless_slots (h htask)).carries env).stmts trivial _ hbody hsubst
    have hslot : ∀ (text : String) (op : BinaryOp) (k : Nat) (span : Span),
        (Frame.slot text op k span).Meets (callsTo B T) := by
      intro text op k span
      unfold Frame.slot
      dsimp only
      split <;> simp [VarRef.Meets, VarRef.toExpr, Expr.op, Frame.fixedVar, VarRef.plain,
        Expr.Meets, exprsMeet, callsTo]
    have hvar : ∀ (text : String) (span : Span),
        (Frame.fixedVar text span).Meets (callsTo B T) := fun _ _ => ⟨trivial, trivial⟩
    have hassign : ∀ {target : VarRef} {value : Expr} {span : Span},
        target.Meets (callsTo B T) → value.Meets (callsTo B T) →
          (assign target value span).Meets (callsTo B T) :=
      fun ht hv => .inr ⟨trivial, ht, hv⟩
    have hop : ∀ {left : Expr} {op : BinaryOp} {k : Int32} {span : Span},
        left.Meets (callsTo B T) → (left.op op (.int k span)).Meets (callsTo B T) :=
      fun hl => .inr ⟨trivial, hl, trivial⟩
    simp only [enter, leave, stmtsMeet_append]
    exact ⟨⟨⟨hassign (hslot _ _ _ _) (hvar _ _), hassign (hvar _ _) (hop (hvar _ _)),
      hassign (hvar _ _) (hvar _ _), trivial⟩, hmiddle⟩,
      hassign (hvar _ _) (hvar _ _), hassign (hvar _ _) (hslot _ _ _ _),
      hassign (hvar _ _) (hop (hvar _ _)), trivial⟩

/-! ### Compilations -/

namespace Compilation

variable {o : Options} {source : String} (r : Compilation env o source)

/-- What is built in. -/
def builtin (env : Env) (n : String) : Prop := env.builtins.isFunction n = true

/-- **A function of the source whose calls may be something else**: it has a result but cannot be
given one, or it is a task function, and a parameter or the result is called like a function. -/
inductive Doubtful (e : FunctionEntry) : Prop
  | result (h : Inlining.isStandalone e.fn = false)
  | capture {n : String} (htask : e.fn.isTaskfunc = true)
    (hn : builtin env n ∨ r.lowered.2.isUserFunction n = true)
    (hslot : Name.firstPart n ∈ Taskfunc.slotNames e.fn)

/-- **The blocks that are exempt**, by their first lines: doubtful functions, and the init callback
if functions are called in the declarations of a function. -/
def Exempt : Block.Head → Prop
  | .callback name => name = "init" ∧ ∃ e ∈ r.lowered.2.functions,
      ¬ stmtsMeet (callsTo (builtin env) fun _ => False) (e.globals ++ e.locals)
  | .function name _ => ∃ e ∈ r.lowered.2.functions, e.name = name.name ∧ r.Doubtful e

/-- What is known of a function before it gets its frame. -/
structure Expanded (q : Program) (e : FunctionEntry) : Prop where
  source : ∃ e₀ ∈ r.lowered.2.functions, e.fn = { e₀.fn with body := e.fn.body } ∧
    (stmtsMeet (callsTo (builtin env) fun _ => False) (e₀.globals ++ e₀.locals) →
      stmtsMeet (callsTo (builtin env) fun _ => False) (e.globals ++ e.locals))
  body : Inlining.isStandalone e.fn = true →
    stmtsMeet (callsTo (builtin env) (Inlining.Recorded q (.function e.name))) e.fn.body

/-- **A program in which the calls of the expanded script are recorded.** -/
structure Recording (q : Program) : Prop where
  calls : q.calls = r.framed.calls
  complete : q.calls.Complete
  names : q.functions.map FunctionEntry.name = r.lowered.2.functions.map FunctionEntry.name
  framed : r.framed.functions.map FunctionEntry.name = r.lowered.2.functions.map FunctionEntry.name
  callbacks : ∀ c, .callback c ∈ r.expanded.1.blocks →
    stmtsMeet (callsTo (builtin env) (Inlining.Recorded q (.callback c.isInit))) c.body
  functions : ∀ e ∈ r.expanded.2.functions, r.Expanded q e

theorem exists_recording : ∃ q, r.Recording q := by
  obtain ⟨-, functions, htyped, hentries⟩ := Sigils.script_run r.type_eq
  obtain ⟨q, bodies, hgrows, hexpanded, hblocks, hbodies⟩ :=
    Inlining.Scheme.script_run (Inlining.callScheme_starts env _ _) r.expand_eq
  obtain ⟨functions', hframed, hwith⟩ := Taskfunc.program_run r.frame_eq
  have hnoCalls : r.typed.2.calls.calls = [] := by
    rw [htyped]
    exact (Lowering.table_of_script r.lower_eq).noCalls trivial
  have hnames : q.functions.map FunctionEntry.name =
      r.lowered.2.functions.map FunctionEntry.name := by
    rw [hgrows.names, htyped]
    exact Sigils.names_eq hentries
  refine ⟨q, ?_, hgrows.complete ?_, hnames, ?_, fun c hc => ?_, fun e he => ?_⟩
  · rw [hframed, hexpanded]
  · rw [CallGraph.Complete, hnoCalls]
    simp
  · rw [hframed]
    change functions'.map FunctionEntry.name = _
    rw [map_eq_of_forall₂ hwith fun _ _ => Taskfunc.withFrame_name, hexpanded, ← hnames]
    simp
  · exact stmtsMeet_mono (Inlining.fullyInlined_callsTo env q _)
      (Inlining.Scheme.callbacks_of_blocks hblocks hc).2
  · rw [hexpanded] at he
    obtain ⟨e₁, he₁, rfl⟩ := List.mem_map.mp he
    obtain ⟨e₂, he₂, hgrow⟩ := hgrows.mem_before he₁
    rw [htyped] at he₂
    obtain ⟨e₀, he₀, hentry⟩ := exists_mem_of_forall₂ hentries he₂
    obtain ⟨body, globals, locals, -, hglobals, hlocals, rfl⟩ := Sigils.entry_eq_ok hentry
    have hfn := Inlining.withBody_fn bodies e₁
    refine ⟨⟨e₀, he₀, ?_, fun hdecls => ?_⟩, fun hstand => ?_⟩
    · rw [hfn, hgrow.fn]
    · have hwith : (Inlining.withBody bodies e₁).globals ++ (Inlining.withBody bodies e₁).locals =
          e₁.globals ++ e₁.locals := by
        unfold Inlining.withBody
        split <;> rfl
      rw [hwith]
      have hcarries := Sigils.carries_callsTo env r.lowered.2 (builtin env) fun _ => False
      have hold := stmtsMeet_append.mp hdecls
      rcases hgrow.decls with ⟨hg, hl⟩ | ⟨hg, hl⟩
      · rw [hg, hl]
        exact stmtsMeet_append.mpr ⟨hcarries.stmts trivial _ hold.1 hglobals,
          hcarries.stmts trivial _ hold.2 hlocals⟩
      · rw [hg, hl]
        trivial
    · rw [Inlining.withBody_name]
      have hstand₁ : Inlining.isStandalone e₁.fn = true := by
        rw [hfn] at hstand
        exact hstand
      have hmem := Inlining.mem_of_withBody (hbodies.total e₁ he₁ hstand₁)
      exact stmtsMeet_mono (Inlining.fullyInlined_callsTo env q _) (hbodies.meets _ hmem).2

namespace Recording

variable {r} {q : Program} (hq : r.Recording q)
include hq

/-- Calls that are recorded are of functions of the source. -/
theorem known {n : String} (h : q.isUserFunction n = true) :
    r.lowered.2.isUserFunction n = true := by
  rw [Program.isUserFunction_iff, hq.names] at h
  exact Program.isUserFunction_iff.mpr h

theorem framed_complete : r.framed.calls.Complete := hq.calls ▸ hq.complete

theorem acyclic : r.framed.calls.Acyclic :=
  CallGraph.acyclic_of_findCycle hq.framed_complete (Arrangement.findCycle_eq_none r.arrange_eq)

/-- What calls lead to is used. -/
theorem exists_used {n : String} (hknown : q.isUserFunction n = true)
    (hled : r.framed.calls.LeadsTo none n) :
    ∃ e ∈ Arrangement.markUsed r.framed, e.name = n ∧ e.used = true := by
  have hmem : n ∈ r.framed.functions.map FunctionEntry.name := by
    rw [hq.framed]
    exact Program.isUserFunction_iff.mp (hq.known hknown)
  obtain ⟨e, he, rfl⟩ := List.mem_map.mp hmem
  exact Arrangement.exists_used he hled

omit hq in
/-- Calls lead from a callback to every function that is used. -/
theorem leadsTo_of_used {e : FunctionEntry} (he : e ∈ Arrangement.markUsed r.framed)
    (hused : e.used = true) : r.framed.calls.LeadsTo none e.name := by
  refine (Arrangement.used_iff (fun e he => ?_) he).mp hused
  exact called_of_framed r.lower_eq r.type_eq r.expand_eq r.frame_eq he

omit hq in
theorem exists_unframed {e : FunctionEntry} (he : e ∈ Arrangement.markUsed r.framed) :
    ∃ e₃ ∈ r.expanded.2.functions, ∃ e₄, Taskfunc.withFrame env e₃ = .ok e₄ ∧ e.fn = e₄.fn ∧
      e.globals ++ e.locals = e₃.globals ++ e₃.locals := by
  obtain ⟨functions, hframed, hwith⟩ := Taskfunc.program_run r.frame_eq
  obtain ⟨e₄, he₄, rfl⟩ := List.mem_map.mp he
  rw [hframed] at he₄
  obtain ⟨e₃, he₃, hframe⟩ := exists_mem_of_forall₂ hwith he₄
  refine ⟨e₃, he₃, e₄, hframe, rfl, ?_⟩
  rcases Taskfunc.withFrame_eq_ok hframe with ⟨-, rfl⟩ | ⟨-, -, body, -, rfl⟩ <;> rfl

/-- **The init callback calls built-in functions only**, unless there are calls in the declarations
that have moved into it. -/
theorem init {c : Callback} (hc : .callback c ∈ r.expanded.1.blocks) (hinit : c.isInit = true)
    (hdecls : ∀ e ∈ r.lowered.2.functions,
      stmtsMeet (callsTo (builtin env) fun _ => False) (e.globals ++ e.locals)) (T : String → Prop) :
    stmtsMeet (callsTo (builtin env) T)
      (Arrangement.hoist (Arrangement.markUsed r.framed) c.body) := by
  refine stmtsMeet_mono (callsTo_mono (fun _ h => h) fun _ h => False.elim h)
    (Arrangement.meets_hoist (fun e he => ?_) ?_)
  · obtain ⟨e₃, he₃, e₄, -, -, hsame⟩ := exists_unframed he
    obtain ⟨e₀, he₀, -, hkeeps⟩ := (hq.functions e₃ he₃).source
    rw [hsame]
    exact hkeeps (hdecls e₀ he₀)
  · refine stmtsMeet_mono (callsTo_mono (fun _ h => h) fun n hn => ?_) (hq.callbacks c hc)
    have hnot := hn.notInit
    rw [hinit] at hnot
    cases hnot

/-- **What a function calls is written before it**, unless the function is doubtful. -/
theorem function {f : FunctionDef} {before after : List FunctionDef}
    (h : Arrangement.written r.framed.calls (Arrangement.markUsed r.framed) =
      before ++ f :: after) :
    r.Exempt (.function f.name f.params) ∨
      stmtsMeet (callsTo (builtin env) (· ∈ before.map (·.name.name))) f.body := by
  obtain ⟨-, e, he, hused, rfl⟩ := Arrangement.mem_written (f := f) (by rw [h]; simp)
  obtain ⟨e₃, he₃, e₄, hframe, hfn, -⟩ := exists_unframed he
  obtain ⟨e₀, he₀, hsignature, -⟩ := (hq.functions e₃ he₃).source
  have hname₃ : e₃.name = e₀.name := congrArg (·.name.name) hsignature
  have hname : e.fn.name.name = e₃.name := by
    rw [hfn]
    exact Taskfunc.withFrame_name hframe
  by_cases hdoubtful : r.Doubtful e₀
  · exact .inl ⟨e₀, he₀, (hname.trans hname₃).symm, hdoubtful⟩
  · right
    have hstand : Inlining.isStandalone e₃.fn = true := by
      rw [hsignature]
      change Inlining.isStandalone e₀.fn = true
      by_contra hnot
      exact hdoubtful (.result (by simpa using hnot))
    -- No parameter of a task function is taken for a function that it calls.
    have hbody := Taskfunc.callsTo_withFrame (fun htask n hn hslot => hdoubtful ?_)
      ((hq.functions e₃ he₃).body hstand) hframe
    · rw [hfn]
      refine stmtsMeet_mono (callsTo_mono (fun _ h => h) fun n hn => ?_) hbody
      have hedge : (some e.fn.name.name, n) ∈ r.framed.calls.calls := by
        rw [hname, ← hq.calls]
        exact hn.edge
      have hled : r.framed.calls.LeadsTo none n := .step (leadsTo_of_used he hused) hedge
      obtain ⟨e', he', hname', hused'⟩ := hq.exists_used hn.known hled
      obtain ⟨g, hg, hgname⟩ := Arrangement.written_before hq.framed_complete hq.acyclic h hedge
        (hq.calls ▸ hn.explicit) he' hname' hused'
      exact List.mem_map.mpr ⟨g, hg, hgname⟩
    · rw [hsignature] at htask hslot
      exact .capture htask (hn.imp_right fun hn => hq.known hn.known) hslot

/-- **What a callback calls is written.** -/
theorem callback {c : Callback} (hc : .callback c ∈ r.expanded.1.blocks) :
    stmtsMeet (callsTo (builtin env) (· ∈ (Arrangement.written r.framed.calls
      (Arrangement.markUsed r.framed)).map (·.name.name))) c.body := by
  refine stmtsMeet_mono (callsTo_mono (fun _ h => h) fun n hn => ?_) (hq.callbacks c hc)
  have hedge : (none, n) ∈ r.framed.calls.calls := hq.calls ▸ hn.edge
  obtain ⟨e', he', hname', hused'⟩ := hq.exists_used hn.known (.call hedge)
  obtain ⟨g, hg, hgname⟩ := Arrangement.exists_written hq.framed_complete hq.acyclic hedge
    (hq.calls ▸ hn.explicit) he' hname' hused'
  exact List.mem_map.mpr ⟨g, hg, hgname⟩

end Recording

theorem functionNames_functions (fs : List FunctionDef) (bs : List Block) :
    (⟨fs.map .function ++ bs⟩ : Script).functionNames =
      fs.map (·.name.name) ++ (⟨bs⟩ : Script).functionNames := by
  simp only [Script.functionNames, Script.functions, List.filterMap_append, List.map_append]
  congr 2
  induction fs with
  | nil => rfl
  | cons f fs ih => exact congrArg (f :: ·) ih

/-- **In the arranged script, calls go back.** -/
theorem arranged_callsBack : r.arranged.1.CallsBack r.Exempt (builtin env) := by
  obtain ⟨q, hq⟩ := r.exists_recording
  obtain ⟨init, rest, hblocks, harranged, -⟩ := Arrangement.script_run r.arrange_eq
  intro before b after hsplit
  rw [harranged] at hsplit
  rcases before with _ | ⟨first, before⟩
  · -- The init callback, with the declarations that have moved into it.
    obtain ⟨rfl, -⟩ := List.cons.inj hsplit
    have hname : init.name = "init" := by
      have hhead := r.arranged_heads.1
      rw [Script.heads, harranged] at hhead
      exact Block.Head.callback.inj (Option.some.inj hhead)
    by_cases hdecls : ∀ e ∈ r.lowered.2.functions,
        stmtsMeet (callsTo (builtin env) fun _ => False) (e.globals ++ e.locals)
    · exact .inr (hq.init (by simp [hblocks]) (by simp [Callback.isInit, hname]) hdecls _)
    · exact .inl ⟨hname, by simpa using hdecls⟩
  · rw [List.cons_append, List.cons.injEq] at hsplit
    obtain ⟨rfl, hsplit⟩ := hsplit
    change _ ∨ stmtsMeet (callsTo _ (· ∈ (⟨before⟩ : Script).functionNames)) b.body
    have hcallback : ∀ b ∈ rest, ∀ bs : List Block, stmtsMeet (callsTo (builtin env)
        (· ∈ (⟨(Arrangement.written r.framed.calls (Arrangement.markUsed r.framed)).map
          Block.function ++ bs⟩ : Script).functionNames)) b.body := by
      intro b hb bs
      have hmem : b ∈ r.expanded.1.blocks := by simp [hblocks, hb]
      obtain ⟨c, rfl⟩ := (Inlining.script_heads r.expand_eq).2 b hmem
      refine stmtsMeet_mono (callsTo_mono (fun _ h => h) fun n hn => ?_) (hq.callback hmem)
      rw [functionNames_functions]
      exact List.mem_append_left _ hn
    rcases List.append_eq_append_iff.mp hsplit with ⟨bs, rfl, hrest⟩ | ⟨bs, hwritten, hrest⟩
    · exact .inr (hcallback b (by simp [hrest]) bs)
    · rcases bs with _ | ⟨b', bs⟩
      · rw [List.append_nil] at hwritten
        have hb : b ∈ rest := by simp [← show b :: after = rest from hrest]
        have hbody := hcallback b hb []
        rw [List.append_nil, hwritten] at hbody
        exact .inr hbody
      · obtain ⟨rfl, -⟩ := List.cons.inj hrest
        obtain ⟨fs, gs, hfs, rfl, hgs⟩ := List.map_eq_append_iff.mp hwritten
        obtain ⟨f, gs', rfl, rfl, -⟩ := List.map_eq_cons_iff.mp hgs
        refine (hq.function hfs).imp_right fun hbody => ?_
        refine stmtsMeet_mono (callsTo_mono (fun _ h => h) fun n hn => ?_) hbody
        have hall := functionNames_functions fs []
        rw [List.append_nil] at hall
        rw [hall]
        exact List.mem_append_left _ hn

/-- **In the script before names are shortened, calls go back.** -/
theorem folded_callsBack (hid : builtin env "get_ui_id") : r.folded.CallsBack
    (fun head' => ∃ head, r.Exempt head ∧ head' = head.rename Undotting.ident)
    (fun n => ∃ m, builtin env m ∧ n = Name.undotted m) := by
  have hresolved : r.resolved.1.CallsBack r.Exempt (builtin env) :=
    r.arranged_callsBack.mapLeaves (Sigils.carries_callsTo env _ _)
      (Sigils.script_run r.resolve_eq).1
  have hchecked : r.checked.CallsBack r.Exempt (builtin env) :=
    hresolved.mapLeaves (fun T => (Controls.carries_callsTo hid).leafMap env _)
      (Script.mapLeaves_eq_ok (Controls.script_run r.check_eq).2)
  have hundotted := hchecked.undot
  rw [← r.undotted_eq] at hundotted
  rw [r.fold_eq]
  split
  · exact hundotted.fold
  · exact hundotted

end Compilation

/-- **The calls of a compiled script go back.** Names are looked up before they are shortened, and
no two functions had the same name before dots were taken out of names. -/
theorem compile_callsBack {o : Options} {source : String} {c : Compiled}
    (hid : env.builtins.isFunction "get_ui_id" = true) (h : compile env o source = .ok c) :
    ∃ r : Compilation env c.options source,
      c.code = Printer.script env.builtins c.options r.final ∧ r.checked.functionNames.Nodup ∧
      r.folded.functionNames = r.checked.functionNames.map Name.undotted ∧
      r.folded.CallsBack (fun head' => ∃ head, r.Exempt head ∧ head' = head.rename Undotting.ident)
        (fun n => ∃ m, env.builtins.isFunction m = true ∧ n = Name.undotted m) := by
  obtain ⟨r, rfl⟩ := exists_compilation h
  refine ⟨r, rfl, r.nodup_checked, ?_, r.folded_callsBack hid⟩
  have hundotted : r.undotted.1.functionNames = r.checked.functionNames.map Name.undotted := by
    rw [r.undotted_eq]
    exact Renaming.functionNames_eq (fun _ => rfl) r.checked
  rw [r.fold_eq]
  split
  · rw [Script.functionNames_eq, Folding.script_heads, ← Script.functionNames_eq, hundotted]
  · exact hundotted

/-- A function that is called, and calls another one that is written behind it. -/
def chainText : String :=
  "on init\nend on\non note\ncall f\nend on\nfunction f\ncall g\nend function\n" ++
    "function g\nmessage(1)\nend function\n"

/-- What is written for it. -/
def chainCode : String :=
  "on init\nend on\nfunction g\nmessage(1)\nend function\nfunction f\ncall g\nend function\n" ++
    "on note\ncall f\nend on\n"

/-- The functions of the engine that are needed for it. -/
def chainBuiltins : Builtins where
  functions := [("message", ⟨["text"], none⟩), ("get_ui_id", ⟨["variable"], none⟩)]

theorem chainText_callsBack : ∃ c, compile ⟨chainBuiltins, .empty⟩ {} chainText = .ok c ∧
    c.code = chainCode ∧ chainBuiltins.isFunction "get_ui_id" = true ∧
    ∃ r : Compilation ⟨chainBuiltins, .empty⟩ c.options chainText,
      c.code = Printer.script chainBuiltins c.options r.final ∧ r.checked.functionNames.Nodup ∧
      r.folded.functionNames = r.checked.functionNames.map Name.undotted ∧
      r.folded.CallsBack (fun head' => ∃ head, r.Exempt head ∧ head' = head.rename Undotting.ident)
        (fun n => ∃ m, chainBuiltins.isFunction m = true ∧ n = Name.undotted m) := by
  set_option maxRecDepth 4000 in
  have htext : chainText.toList = _ := Text.toList_pieces String.toList_ofList String.toList_ofList
  have hcode : (compile ⟨chainBuiltins, .empty⟩ {} chainText).toOption.map Compiled.code =
      some chainCode := by
    rw [compile_eq_ofChars _ _ htext (by decide +kernel)]
    decide +kernel
  obtain ⟨c, hrun, hcode⟩ := Option.map_eq_some_iff.mp hcode
  have hrun := Except.toOption_eq_some.mp hrun
  have hid : chainBuiltins.isFunction "get_ui_id" = true := by decide
  exact ⟨c, hrun, hcode, hid, compile_callsBack hid hrun⟩

end FlatScript
