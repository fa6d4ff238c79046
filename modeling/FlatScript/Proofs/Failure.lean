import FlatScript.Proofs.Compilation
import FlatScript.Proofs.Sigils.Table
import Mathlib.Algebra.Group.Nat.Defs

/-!
# Steps that fail

What a compilation can fail with is known by following its steps to their errors, as what it
leaves is known by following them to their results. `FlatScript.FailsWith` says of a step
without a state that all of its errors are of one kind, and it is put together like the step.

Most steps know one kind of error only, `FlatScript.CompileError.IsPlain`: a fault of the
script at a place, other than a call of a function in a copy of itself. The steps that change
the leaves of statements are of this sort when their leaves are.

* `FlatScript.Breaks` lists the steps at which a compilation may end early, with the results of
  the steps before.
* `FlatScript.breaks_of_compileStaged` is the inversion of a compilation that failed.
-/

namespace FlatScript

/-! ### Kinds of errors -/

/-- **A fault of the script at a place** that has nothing to do with recursion. -/
def CompileError.IsPlain (e : CompileError) : Prop :=
  ∃ fault loc, e = .fault fault loc ∧ ∀ chain, fault ≠ .recursiveCall chain

/-- **All errors of a step are of one kind.** -/
def FailsWith {ε α : Type} (E : ε → Prop) (x : Except ε α) : Prop := ∀ e, x = .error e → E e

theorem Env.isPlain_errorAt (env : Env) {fault : Fault} (span : Span) (trace : List Span)
    (h : ∀ chain, fault ≠ .recursiveCall chain) : (env.errorAt fault span trace).IsPlain :=
  ⟨fault, _, rfl, h⟩

namespace FailsWith

variable {ε α β : Type} {E E' : ε → Prop}

theorem ok (a : α) : FailsWith E (.ok a : Except ε α) := nofun

theorem error {e : ε} (h : E e) : FailsWith E (.error e : Except ε α) := by
  rintro _ ⟨⟩
  exact h

theorem imp {x : Except ε α} (h : FailsWith E x) (himp : ∀ e, E e → E' e) : FailsWith E' x :=
  fun e he => himp e (h e he)

/-- A sequence fails where its first part fails, or the second one on the result of it. -/
theorem bind {x : Except ε α} {f : α → Except ε β} (hx : FailsWith E x)
    (hf : ∀ a, x = .ok a → FailsWith E (f a)) : FailsWith E (x >>= f) := by
  cases x with
  | error e => exact .error (hx e rfl)
  | ok a => exact hf a rfl

/-- A step that goes on with what it has. -/
theorem map {x : Except ε α} {f : α → β} (hx : FailsWith E x) :
    FailsWith E (x >>= fun a => pure (f a)) :=
  hx.bind fun a _ => .ok (f a)

theorem list {f : α → Except ε β} {l : List α} (h : ∀ a ∈ l, FailsWith E (f a)) :
    FailsWith E (l.mapM f) := by
  induction l with
  | nil => exact .ok []
  | cons a l ih =>
    rw [List.mapM_cons]
    refine (h a (by simp)).bind fun b _ => ?_
    exact (ih fun a ha => h a (by simp [ha])).map

theorem forM {f : α → Except ε PUnit} {l : List α} (h : ∀ a ∈ l, FailsWith E (f a)) :
    FailsWith E (l.forM f) := by
  induction l with
  | nil => exact .ok _
  | cons a l ih =>
    exact (h a List.mem_cons_self).bind fun _ _ => ih fun a ha => h a (List.mem_cons_of_mem _ ha)

theorem option {f : α → Except ε β} {o : Option α} (h : ∀ a ∈ o, FailsWith E (f a)) :
    FailsWith E (o.mapM f) := by
  cases o with
  | none => exact .ok none
  | some a =>
    rw [Option.mapM_some]
    simp only [map_eq_pure_bind]
    exact (h a rfl).map

end FailsWith

/-! ### Leaves -/

/-- The errors of a change of leaves are of one kind. -/
structure LeafMap.Fails {ε : Type} (r : LeafMap ε) (E : ε → Prop) : Prop where
  expr : ∀ scope e, FailsWith E (r.expr scope e)
  target : ∀ scope v, FailsWith E (r.target scope v)
  call : ∀ scope c, FailsWith E (r.call scope c)

namespace LeafMap.Fails

variable {ε : Type} {r : LeafMap ε} {E : ε → Prop}

theorem declaration (hr : r.Fails E) (scope : Scope) (d : Declaration) :
    FailsWith E (r.declaration scope d) := by
  refine (FailsWith.option fun e _ => hr.expr scope e).bind fun size _ => ?_
  refine (FailsWith.list fun e _ => hr.expr scope e).bind fun params _ => ?_
  refine (FailsWith.option fun i _ => ?_).map
  cases i with
  | single e => exact (hr.expr scope e).map
  | list es => exact (FailsWith.list fun e _ => hr.expr scope e).map

mutual

theorem stmt (hr : r.Fails E) {params : List String} :
    ∀ s : Stmt, FailsWith E (s.mapLeaves r params)
  | ⟨.property name fs, span, trace⟩ => by
    simp only [Stmt.mapLeaves]
    exact (functions hr fs).map
  | ⟨.synonym name indices target, span, trace⟩ => by
    simp only [Stmt.mapLeaves]
    exact (hr.target _ target).map
  | ⟨.declare d, span, trace⟩ => by
    simp only [Stmt.mapLeaves]
    exact (hr.declaration _ d).map
  | ⟨.assign target value, span, trace⟩ => by
    simp only [Stmt.mapLeaves]
    exact (hr.target _ target).bind fun _ _ => (hr.expr _ value).map
  | ⟨.call c, span, trace⟩ => by
    simp only [Stmt.mapLeaves]
    exact (hr.call _ c).map
  | ⟨.whileLoop cond body, span, trace⟩ => by
    simp only [Stmt.mapLeaves]
    exact (hr.expr _ cond).bind fun _ _ => (stmts hr body).map
  | ⟨.forLoop var start stop step downto body, span, trace⟩ => by
    simp only [Stmt.mapLeaves]
    refine (hr.target _ var).bind fun _ _ => ?_
    refine (hr.expr _ start).bind fun _ _ => ?_
    refine (hr.expr _ stop).bind fun _ _ => ?_
    exact (FailsWith.option fun e _ => hr.expr _ e).bind fun _ _ => (stmts hr body).map
  | ⟨.family name body, span, trace⟩ => by
    simp only [Stmt.mapLeaves]
    exact (stmts hr body).map
  | ⟨.ifChain bs otherwise, span, trace⟩ => by
    simp only [Stmt.mapLeaves]
    exact (branches hr bs).bind fun _ _ => (stmts hr otherwise).map
  | ⟨.select subject cs, span, trace⟩ => by
    simp only [Stmt.mapLeaves]
    exact (hr.expr _ subject).bind fun _ _ => (cases hr cs).map
termination_by structural s => s

/-- **Statements fail where their leaves do.** -/
theorem stmts (hr : r.Fails E) {params : List String} :
    ∀ ss : List Stmt, FailsWith E (mapLeavesStmts r params ss)
  | [] => .ok []
  | s :: ss => by
    simp only [mapLeavesStmts]
    exact (stmt hr s).bind fun _ _ => (stmts hr ss).map
termination_by structural ss => ss

theorem branches (hr : r.Fails E) {scope : Scope} :
    ∀ bs : List Branch, FailsWith E (mapLeavesBranches r scope bs)
  | [] => .ok []
  | ⟨cond, body⟩ :: rest => by
    simp only [mapLeavesBranches]
    refine (hr.expr _ cond).bind fun _ _ => ?_
    exact (stmts hr body).bind fun _ _ => (branches hr rest).map
termination_by structural bs => bs

theorem cases (hr : r.Fails E) {scope : Scope} :
    ∀ cs : List Case, FailsWith E (mapLeavesCases r scope cs)
  | [] => .ok []
  | ⟨start, stop, body⟩ :: rest => by
    simp only [mapLeavesCases]
    refine (hr.expr _ start).bind fun _ _ => ?_
    refine (FailsWith.option fun e _ => hr.expr _ e).bind fun _ _ => ?_
    exact (stmts hr body).bind fun _ _ => (cases hr rest).map
termination_by structural cs => cs

theorem functions (hr : r.Fails E) :
    ∀ fs : List FunctionDef, FailsWith E (mapLeavesFunctions r fs)
  | [] => .ok []
  | ⟨name, params, result, body, isTaskfunc, isOverride, span⟩ :: rest => by
    simp only [mapLeavesFunctions]
    exact (stmts hr body).bind fun _ _ => (functions hr rest).map
termination_by structural fs => fs

end

/-- **A script fails where its leaves do**, or the controls of its callbacks. -/
theorem script (hr : r.Fails E) {control : Ident → Except ε Ident}
    (hcontrol : ∀ i, FailsWith E (control i)) (s : Script) :
    FailsWith E (s.mapLeaves r control) := by
  refine (FailsWith.list fun b _ => ?_).map
  cases b with
  | callback c =>
    exact (FailsWith.option fun i _ => hcontrol i).bind fun _ _ => (hr.stmts c.body).map
  | function f => exact FailsWith.map (FailsWith.map (hr.stmts f.body))

end LeafMap.Fails

/-! ### Arguments in the place of parameters -/

namespace Substitution

variable (env : Env) (s : Substitution) (trace : List Span)

theorem functionName_fails (name : Ident) (span : Span) :
    FailsWith CompileError.IsPlain (functionName env s trace name span) := by
  unfold functionName
  split
  · exact .ok _
  · exact .ok _
  · refine .error (env.isPlain_errorAt _ _ ?_)
    rintro _ ⟨⟩

mutual

theorem expr_fails : ∀ e : Expr, FailsWith CompileError.IsPlain (expr env s trace e)
  | .binary op left right span => by
    simp only [expr]
    exact (expr_fails left).bind fun _ _ => (expr_fails right).map
  | .unary op operand span => by
    simp only [expr]
    exact (expr_fails operand).map
  | .var i subscripts span => by
    simp only [expr]
    split
    · exact (exprs_fails subscripts).map
    · exact (exprs_fails subscripts).map
    · exact .ok _
  | .call name args isProcedure usingCall span => by
    simp only [expr]
    exact (functionName_fails env s trace name span).bind fun _ _ => (exprs_fails args).map
  | .int _ _ | .real _ _ | .str _ _ | .bool _ _ | .raw _ _ => by
    simp only [expr]
    exact .ok _

theorem exprs_fails : ∀ es : List Expr, FailsWith CompileError.IsPlain (exprs env s trace es)
  | [] => .ok []
  | e :: es => by
    simp only [exprs]
    exact (expr_fails e).bind fun _ _ => (exprs_fails es).map

end

/-- **Putting arguments in the place of parameters fails with plain faults only.** -/
theorem stmts_fails (body : List Stmt) : FailsWith CompileError.IsPlain (s.stmts env body) := by
  refine LeafMap.Fails.stmts ⟨?_, ?_, ?_⟩ body
  · exact fun scope e => expr_fails env s scope.trace e
  · intro scope v
    show FailsWith _ (target env s scope.trace v)
    unfold target
    split
    · exact (exprs_fails env s scope.trace v.subscripts).map
    · exact (exprs_fails env s scope.trace v.subscripts).map
    · exact .error (env.isPlain_errorAt _ _ nofun)
  · intro scope c
    refine (functionName_fails env s scope.trace c.name c.span).bind fun _ _ => ?_
    exact (exprs_fails env s scope.trace c.args).map

end Substitution

/-! ### Sigils -/

namespace Sigils

variable (env : Env) (p : Program) (scope : Scope)

theorem ident_fails (i : Ident) (subscripted : Bool) :
    FailsWith CompileError.IsPlain (ident env p scope i subscripted) := by
  have hresolve : FailsWith (fun fault => ∀ chain, fault ≠ Fault.recursiveCall chain)
      (resolve env.builtins p scope.params i subscripted) := by
    unfold resolve
    split
    · split
      · exact .ok _
      · split
        · exact .error nofun
        · exact .ok _
        · exact .error nofun
    · split
      · exact .ok _
      · split
        · exact .error nofun
        · exact .error nofun
  intro e he
  unfold ident at he
  cases hr : resolve env.builtins p scope.params i subscripted with
  | ok j => rw [hr] at he; cases he
  | error fault =>
    rw [hr] at he
    cases he
    exact env.isPlain_errorAt _ _ (hresolve fault hr)

mutual

theorem expr_fails : ∀ e : Expr, FailsWith CompileError.IsPlain (expr env p scope e)
  | .binary op left right span => by
    simp only [expr]
    exact (expr_fails left).bind fun _ _ => (expr_fails right).map
  | .unary op operand span => by
    simp only [expr]
    exact (expr_fails operand).map
  | .var i subscripts span => by
    simp only [expr]
    exact (exprs_fails subscripts).bind fun _ _ => (ident_fails env p scope i _).map
  | .call name args isProcedure usingCall span => by
    simp only [expr]
    exact (arguments_fails _ args).map
  | .int _ _ | .real _ _ | .str _ _ | .bool _ _ | .raw _ _ => by
    simp only [expr]
    exact .ok _

theorem exprs_fails : ∀ es : List Expr, FailsWith CompileError.IsPlain (exprs env p scope es)
  | [] => .ok []
  | e :: es => by
    simp only [exprs]
    exact (expr_fails e).bind fun _ _ => (exprs_fails es).map

theorem arguments_fails (keepFirst : Bool) :
    ∀ es : List Expr, FailsWith CompileError.IsPlain (arguments env p scope keepFirst es)
  | [] => .ok []
  | e :: es => by
    simp only [arguments]
    split
    · exact FailsWith.bind (.ok e) fun _ _ => (exprs_fails es).map
    · exact (expr_fails e).bind fun _ _ => (exprs_fails es).map

end

theorem leafMap_fails : (leafMap env p).Fails CompileError.IsPlain where
  expr := expr_fails env p
  target scope v := by
    refine (exprs_fails env p scope v.subscripts).bind fun _ _ => ?_
    exact (ident_fails env p scope v.ident _).map
  call scope c := (arguments_fails env p scope _ c.args).map

/-- **Sigils are found, or there is a plain fault.** -/
theorem script_fails (s : Script) : FailsWith CompileError.IsPlain ((script env s).run p) := by
  have hleaves := leafMap_fails env p
  rw [script_run_eq]
  refine (hleaves.script (fun i => ident_fails env p _ i false) s).bind fun s' _ => ?_
  refine FailsWith.bind (.list fun e _ => ?_) fun _ _ => .ok _
  refine (hleaves.stmts e.fn.body).bind fun _ _ => ?_
  exact (hleaves.stmts e.globals).bind fun _ _ => (hleaves.stmts e.locals).map

end Sigils

/-! ### Controls -/

namespace Controls

variable (env : Env) (symbols : Symbols) (trace : List Span)

theorem checkSubscripts_fails (i : Ident) (subscripts : List Expr) (span : Span) :
    FailsWith CompileError.IsPlain (checkSubscripts env trace i subscripts span) := by
  unfold checkSubscripts
  split
  · exact .error (env.isPlain_errorAt _ _ nofun)
  · exact .ok ()

theorem arguments_fails (name : String) (usingCall : Bool) (args : List Expr) :
    FailsWith CompileError.IsPlain (arguments env symbols trace name usingCall args) := by
  unfold arguments
  split
  · exact .ok args
  · split
    · split
      · exact .error (env.isPlain_errorAt _ _ nofun)
      · exact .ok args
    · split
      · exact .ok _
      · split
        · exact .ok _
        · exact .ok args

mutual

theorem expr_fails : ∀ e : Expr, FailsWith CompileError.IsPlain (expr env symbols trace e)
  | .binary op left right span => by
    simp only [expr]
    exact (expr_fails left).bind fun _ _ => (expr_fails right).map
  | .unary op operand span => by
    simp only [expr]
    exact (expr_fails operand).map
  | .var i subscripts span => by
    simp only [expr]
    refine (checkSubscripts_fails env trace i subscripts span).bind fun _ _ => ?_
    exact (exprs_fails subscripts).map
  | .call name args isProcedure usingCall span => by
    simp only [expr]
    exact (exprs_fails args).bind fun _ _ => (arguments_fails env symbols trace _ _ _).map
  | .int _ _ | .real _ _ | .str _ _ | .bool _ _ | .raw _ _ => by
    simp only [expr]
    exact .ok _

theorem exprs_fails : ∀ es : List Expr, FailsWith CompileError.IsPlain (exprs env symbols trace es)
  | [] => .ok []
  | e :: es => by
    simp only [exprs]
    exact (expr_fails e).bind fun _ _ => (exprs_fails es).map

end

/-- **Controls are replaced, or there is a plain fault.** -/
theorem script_fails (p : Program) (s : Script) :
    FailsWith CompileError.IsPlain ((script env s).run p) := by
  unfold script
  simp only [StateT.run_bind, StateT.run_get, pure_bind]
  refine FailsWith.map (LeafMap.Fails.script ⟨?_, ?_, ?_⟩ (fun i => .ok i) s)
  · exact fun scope e => expr_fails env p.symbols scope.trace e
  · intro scope v
    refine (checkSubscripts_fails env scope.trace v.ident v.subscripts v.span).bind fun _ _ => ?_
    exact (exprs_fails env p.symbols scope.trace v.subscripts).map
  · intro scope c
    refine (exprs_fails env p.symbols scope.trace c.args).bind fun _ _ => ?_
    exact (arguments_fails env p.symbols scope.trace c.name.name c.usingCall _).map

end Controls

/-! ### The steps behind expansion -/

/-- **Frames are built**, or there is a plain fault, or a frame is too large. -/
theorem Taskfunc.program_fails {E : CompileError → Prop} (env : Env) (p : Program)
    (hplain : ∀ e : CompileError, e.IsPlain → E e)
    (hlarge : ∀ e ∈ p.functions, e.fn.isTaskfunc = true → 2 ^ 31 ≤ frameSize e →
      ∀ message, E (.internal message)) :
    FailsWith E ((program env).run p) := by
  unfold program
  simp only [StateT.run_bind, StateT.run_get, pure_bind]
  refine FailsWith.bind (FailsWith.map (FailsWith.list fun e he => ?_)) fun _ _ => .ok _
  unfold withFrame
  split
  · next htask =>
    dsimp only
    split
    · next hsize => exact FailsWith.bind (.error (hlarge e he htask hsize _)) fun _ h => nomatch h
    · exact ((Substitution.stmts_fails env _ _).imp hplain).map
  · exact .ok e

/-- **A script is arranged**, or its functions call each other in a circle, or it does not start
with a callback. -/
theorem Arrangement.script_fails {E : CompileError → Prop} (s : Script) (p : Program)
    (hcircle : ∀ cycle, E (.recursionDetected cycle))
    (hinit : (∀ c rest, s.blocks ≠ .callback c :: rest) → ∀ message, E (.internal message)) :
    FailsWith E ((script s).run p) := by
  unfold script
  simp only [StateT.run_bind, StateT.run_get, pure_bind]
  split
  · exact .error (hcircle _)
  · split
    · exact .ok _
    · next hblocks => exact .error (hinit (fun c rest h => hblocks c rest h) _)

/-- **Short names are given**, or two names are the same. -/
theorem Compaction.script_fails {E : CompileError → Prop} (env : Env) (preserve : List String)
    (s : Script) (p : Program) (hbuiltin : ∀ name short, E (.builtinCollision name short))
    (hshort : ∀ first second short, E (.compactionCollision first second short)) :
    FailsWith E ((script env preserve s).run p) := by
  have hadd : ∀ patterns t name,
      FailsWith E (addName env.builtins shortName patterns t name) := by
    intro patterns t name
    unfold addName
    split
    · exact .ok _
    split
    · exact .error (hbuiltin _ _)
    · unfold ShortNames.insert
      split
      · exact .error (hshort _ _ _)
      · exact .ok _
  have hfold : ∀ patterns (names : List String) t,
      FailsWith E (names.foldlM (addName env.builtins shortName patterns) t) := by
    intro patterns names
    induction names with
    | nil => exact fun t => .ok t
    | cons name names ih =>
      intro t
      rw [List.foldlM_cons]
      exact (hadd patterns t name).bind fun t' _ => ih t'
  unfold script scriptWith
  simp only [StateT.run_bind, StateT.run_get, pure_bind]
  exact FailsWith.bind (FailsWith.map (hfold _ _ _)) fun _ _ => .ok _

/-! ### Compilations that end early -/

/-- **The results of the steps before expansion.** -/
structure Typing (env : Env) (o : Options) (source : String) where
  /-- The script as it is written. -/
  parsed : Script
  /-- The script without functions, properties and families, and the table of functions. -/
  lowered : Script × Program
  /-- References with their sigils. -/
  typed : Script × Program
  parse_eq : Script.parse source env.lines = .ok parsed
  lower_eq : (Lowering.script env
    (if o.combineCallbacks then parsed.combineCallbacks else parsed)).run {} = .ok lowered
  type_eq : (Sigils.script env lowered.1).run lowered.2 = .ok typed

/-- **Where a compilation ends early**, with which error, and what has been done before. -/
inductive Breaks (env : Env) (o : Options) (source : String) (e : CompileError) : Prop
  | lower {s : Script} (h : (Lowering.script env s).run {} = .error e)
  | type {s : Script} {p : Program} (h : (Sigils.script env s).run p = .error e)
  | expand (r : Typing env o source)
    (h : (Inlining.script env r.typed.1).run r.typed.2 = .error e)
  | frame (r : Typing env o source) {expanded : Script × Program}
    (expand_eq : (Inlining.script env r.typed.1).run r.typed.2 = .ok expanded)
    (h : (Taskfunc.program env).run expanded.2 = .error e)
  | arrange (r : Typing env o source) {expanded : Script × Program} {framed : Program}
    (expand_eq : (Inlining.script env r.typed.1).run r.typed.2 = .ok expanded)
    (h : (Arrangement.script expanded.1).run framed = .error e)
  | check {s : Script} {p : Program} (h : (Controls.script env s).run p = .error e)
  | shorten {s : Script} {p : Program}
    (h : (Compaction.script env o.preserveNames s).run p = .error e)

namespace Staged

variable {α β : Type} {stages stages' : List Stage} {failure : Failure}
  {stop : List Stage → Bool}

/-- A sequence fails in its first part, or in the second one on the result of it. -/
theorem bind_eq_error {x : Staged α} {f : α → Staged β}
    (h : (x >>= f).run stages = .error failure stages') :
    x.run stages = .error failure stages' ∨
      ∃ a stages₁, x.run stages = .ok a stages₁ ∧ (f a).run stages₁ = .error failure stages' := by
  rw [EStateM.run_bind] at h
  split at h
  · next a stages₁ hx => exact .inr ⟨a, stages₁, hx, h⟩
  · next hx =>
    cases h
    exact .inl hx

/-- Entering a stage fails only because the caller stops the compilation. -/
theorem enter_ne_error {stage : Stage} {e : CompileError} :
    (enter stop stage).run stages ≠ .error (.program e) stages' := by
  intro h
  unfold enter at h
  rcases bind_eq_error h with h | ⟨reported, stages₁, -, h⟩
  · cases h
  split at h
  · rcases bind_eq_error h with h | ⟨_, _, h, -⟩
    · cases h
    · cases h
  · cases h

theorem ofParse_eq_error {x : Except (List ParseError) α}
    (h : (ofParse x).run stages = .error failure stages') : ∃ errors, failure = .parse errors := by
  cases x with
  | error errors => cases h; exact ⟨errors, rfl⟩
  | ok a => cases h

theorem ofCompile_eq_error {step : Compile α} {p : Program} {e : CompileError}
    (h : (ofCompile step p).run stages = .error (.program e) stages') :
    step.run p = .error e := by
  unfold ofCompile at h
  split at h
  · cases h
  · next hrun =>
    cases h
    exact hrun

/-- Of some steps, the first one fails, or it leaves what the others fail on. -/
theorem runSteps_cons_eq_error {step : Step} {rest : List Step} {s : Script} {p : Program}
    {e : CompileError}
    (h : (runSteps stop (step :: rest) s p).run stages = .error (.program e) stages') :
    (step.run s).run p = .error e ∨
      ∃ s₁ p₁ stages₁, (step.run s).run p = .ok (s₁, p₁) ∧
        (runSteps stop rest s₁ p₁).run stages₁ = .error (.program e) stages' := by
  rcases bind_eq_error h with h | ⟨⟨⟩, stages₁, -, h⟩
  · exact absurd h enter_ne_error
  rcases bind_eq_error h with h | ⟨⟨s₁, p₁⟩, stages₂, hstep, h⟩
  · exact .inl (ofCompile_eq_error h)
  · exact .inr ⟨s₁, p₁, stages₂, ofCompile_eq_ok hstep, h⟩

/-- A step that is left out, or cannot fail, is not the one that fails. -/
theorem runSteps_optional_eq_error {c : Bool} {stage : Stage} {f : Script → Script}
    {rest : List Step} {s : Script} {p : Program} {e : CompileError}
    (h : (runSteps stop ((if c then [⟨stage, fun s => return f s⟩] else []) ++ rest) s p).run
      stages = .error (.program e) stages') :
    ∃ stages₁, (runSteps stop rest (if c then f s else s) p).run stages₁ =
      .error (.program e) stages' := by
  cases c with
  | false => exact ⟨stages, h⟩
  | true =>
    rcases runSteps_cons_eq_error h with h | ⟨s₁, p₁, stages₁, hstep, h⟩
    · cases h
    · cases hstep
      exact ⟨stages₁, h⟩

end Staged

/-- The step at which the steps of a compilation end early. -/
theorem breaks_of_steps {env : Env} {o : Options} {source : String} {parsed : Script}
    (hparse : Script.parse source env.lines = .ok parsed) {e : CompileError}
    {stop : List Stage → Bool} {stages stages' : List Stage}
    (h : (Staged.runSteps stop (steps env o) parsed {}).run stages =
      .error (.program e) stages') : Breaks env o source e := by
  unfold steps at h
  rw [List.append_assoc] at h
  obtain ⟨_, h⟩ := Staged.runSteps_optional_eq_error h
  rcases Staged.runSteps_cons_eq_error h with h | ⟨s₁, p₁, _, hlower, h⟩
  · exact .lower h
  rcases Staged.runSteps_cons_eq_error h with h | ⟨s₂, p₂, _, htype, h⟩
  · exact .type h
  -- Every step from here on breaks behind the same first two.
  let r : Typing env o source := ⟨parsed, (s₁, p₁), (s₂, p₂), hparse, hlower, htype⟩
  rcases Staged.runSteps_cons_eq_error h with h | ⟨s₃, p₃, _, hexpand, h⟩
  · exact .expand r h
  rcases Staged.runSteps_cons_eq_error h with h | ⟨s₄, p₄, _, hframe, h⟩
  -- The frames bring no script with them, so only their own error is left.
  · refine .frame r hexpand ?_
    cases hrun : (Taskfunc.program env).run p₃ with
    | error e' =>
      rw [StateT.run_bind, hrun] at h
      cases h
      rfl
    | ok r =>
      rw [StateT.run_bind, hrun] at h
      cases h
  obtain ⟨⟨⟩, q, hframe, hpure⟩ := StateT.bind_eq_ok.mp hframe
  cases hpure
  rcases Staged.runSteps_cons_eq_error h with h | ⟨s₅, p₅, _, -, h⟩
  · exact .arrange r hexpand h
  rcases Staged.runSteps_cons_eq_error h with h | ⟨s₆, p₆, _, -, h⟩
  · cases hrun : (Sigils.script env s₅).run p₅ with
    | error e' =>
      rw [StateT.run_bind, hrun] at h
      cases h
      exact .type hrun
    | ok r =>
      rw [StateT.run_bind, hrun] at h
      exact .check h
  rcases Staged.runSteps_cons_eq_error h with h | ⟨s₇, p₇, _, -, h⟩
  · cases h
  rw [← List.append_nil (if o.optimizeCode then _ else _)] at h
  obtain ⟨_, h⟩ := Staged.runSteps_optional_eq_error h
  cases h

/-- **The step at which a compilation ended early**, whatever its caller stops it for. -/
theorem breaks_of_compileStaged {stop : List Stage → Bool} {env : Env} {o : Options}
    {source : String} {e : CompileError} {stages stages' : List Stage}
    (hrun : (compileStaged stop env o source).run stages = .error (.program e) stages') :
    Breaks env (o.withPragmas source env.lines) source e := by
  unfold compileStaged at hrun
  dsimp only at hrun
  generalize o.withPragmas source env.lines = o' at hrun ⊢
  rcases Staged.bind_eq_error hrun with hrun | ⟨⟨⟩, _, -, hrun⟩
  · exact absurd hrun Staged.enter_ne_error
  rcases Staged.bind_eq_error hrun with hrun | ⟨⟨⟩, _, -, hrun⟩
  · exact absurd hrun Staged.enter_ne_error
  rcases Staged.bind_eq_error hrun with hrun | ⟨parsed, _, hparse, hrun⟩
  · obtain ⟨errors, herrors⟩ := Staged.ofParse_eq_error hrun
    cases herrors
  rcases Staged.bind_eq_error hrun with hrun | ⟨⟨s, p⟩, _, -, hrun⟩
  · exact breaks_of_steps (Staged.ofParse_eq_ok hparse) hrun
  rcases Staged.bind_eq_error hrun with hrun | ⟨⟨final, short⟩, _, -, hrun⟩
  · unfold Staged.compact at hrun
    split at hrun
    · rcases Staged.bind_eq_error hrun with hrun | ⟨⟨⟩, _, -, hrun⟩
      · exact absurd hrun Staged.enter_ne_error
      rcases Staged.bind_eq_error hrun with hrun | ⟨_, _, -, hrun⟩
      · exact .shorten (Staged.ofCompile_eq_error hrun)
      · cases hrun
    · cases hrun
  rcases Staged.bind_eq_error hrun with hrun | ⟨⟨⟩, _, -, hrun⟩
  · exact absurd hrun Staged.enter_ne_error
  rcases Staged.bind_eq_error hrun with hrun | ⟨⟨⟩, _, -, hrun⟩
  · exact absurd hrun Staged.enter_ne_error
  · cases hrun

/-- The step at which a compilation ended early. -/
theorem breaks_of_compile {env : Env} {o : Options} {source : String} {e : CompileError}
    (h : compile env o source = .error (.program e)) :
    Breaks env (o.withPragmas source env.lines) source e := by
  unfold compile at h
  split at h
  · cases h
  · next hrun =>
    cases h
    exact breaks_of_compileStaged hrun

end FlatScript
