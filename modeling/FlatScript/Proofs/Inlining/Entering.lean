import FlatScript.Proofs.Inlining.Runs

/-!
# What a call is replaced by

A call is looked up and checked before it is replaced, and from then on expansion relies on what
was checked: that the function is in the table, and that what takes the place of the call is
what its use asks for. Where it finds otherwise it gives up with an internal error. So these
errors cannot come up, and a call is replaced as if they were not there:

* `FlatScript.Inlining.enterCall_run` is what entering a call comes to;
* `FlatScript.Inlining.callStmts_eq` and `FlatScript.Inlining.callExpr_eq` say what becomes of a
  call, without the errors that cannot come up.
-/

namespace FlatScript.Inlining

variable {env : Env} {at' : Place}

/-! ### Entering a call -/

/-- The program after a call has been recorded. -/
def entered (p : Program) (t : Top) (name : String) (usingCall : Bool) : Program :=
  let p := { p with calls := p.calls.addCall t.caller name }
  let p := if usingCall then { p with calls := p.calls.markExplicit name } else p
  if t.caller.isNone then p.updateFunction name ({ · with used := true }) else p

theorem grows_entered {p : Program} (t : Top) {name : String} {usingCall : Bool}
    (hname : usingCall = true → p.IsTarget name) : p.Grows (entered p t name usingCall) := by
  refine (p.grows_addCall t.caller name).trans ?_
  set q : Program := { p with calls := p.calls.addCall t.caller name }
  have htarget : usingCall = true → q.IsTarget name := hname
  have hused : ∀ p : Program, p.Grows (p.updateFunction name ({ · with used := true })) :=
    fun p => p.grows_updateFunction name fun _ => ⟨rfl, .inl ⟨rfl, rfl⟩, rfl⟩
  unfold entered
  dsimp only
  split <;> split
  · next _ hcall => exact (Program.grows_markExplicit (htarget hcall)).trans (hused _)
  · exact hused _
  · next _ hcall => exact Program.grows_markExplicit (htarget hcall)
  · exact .refl _

/-- A call that is entered is recorded. -/
theorem mem_calls_entered (p : Program) (t : Top) (name : String) (usingCall : Bool) :
    (t.caller, name) ∈ (entered p t name usingCall).calls.calls := by
  have h := Program.mem_addCall p.calls t.caller name
  unfold entered Program.updateFunction CallGraph.markExplicit
  dsimp only
  split <;> split <;> exact h

/-- A call with the keyword `call` that is entered is marked. -/
theorem isExplicit_entered (p : Program) (t : Top) (name : String) :
    (entered p t name true).calls.isExplicit name = true := by
  have h := Program.isExplicit_markExplicit (p.calls.addCall t.caller name) name
  unfold entered Program.updateFunction
  dsimp only
  split <;> exact h

/-- The functions of the table look the same after a call has been entered, except that one
of them may be used. -/
theorem function?_entered {p : Program} {t : Top} {name : String} {usingCall : Bool}
    {e : FunctionEntry} (h : p.function? name = some e) :
    ∃ u, (entered p t name usingCall).function? name = some { e with used := u } := by
  have hname := (Program.mem_functions_of_function? h).2
  have hcalls : ∀ g : CallGraph, Program.function? { p with calls := g } name = some e :=
    fun _ => h
  unfold entered
  dsimp only
  split
  · refine ⟨true, ?_⟩
    simp only [Program.updateFunction, Program.function?, List.find?_map, Function.comp_def]
    have hfun : (fun x : FunctionEntry => (FunctionEntry.name
        (if (x.name == name) = true then { x with used := true } else x)) == name)
        = fun x => x.name == name := by
      funext x
      split <;> rfl
    rw [hfun]
    split <;> simp [Program.function?] at h ⊢ <;> simp [h, hname]
  · refine ⟨e.used, ?_⟩
    split <;> exact h

/-- **What entering a call comes to.** -/
theorem enterCall_run (env : Env) (at' : Place) (c : CallSite) (use : Use) (p : Program) :
    (enterCall env at' c use).run p =
      match p.function? c.name.name with
      | none => .error (at'.error env (.unknownFunction c.name.name) c.span)
      | some e =>
        match callFault? at' e.fn c use with
        | some fault => .error (at'.error env fault c.span)
        | none => .ok (e, entered p at'.top c.name.name c.usingCall) := by
  simp only [enterCall, StateT.run_bind, StateT.run_get, pure_bind]
  cases p.function? c.name.name with
  | none => rfl
  | some e =>
    unfold entered
    dsimp only
    cases c.usingCall <;> cases callFault? at' e.fn c use <;> cases at'.top.caller <;> rfl

/-- What is known of a call without a fault. -/
structure Faultless (at' : Place) (f : FunctionDef) (c : CallSite) (use : Use) : Prop where
  fresh : c.name.name ∉ at'.stack
  arity : c.args.length = f.params.length
  result : use.isStatement = false → f.result.isSome = true
  noTaskfunc : use.isExpression = true → f.isTaskfunc = false
  notInit : c.usingCall = true ∨ f.isTaskfunc = true → at'.top.isInit = false
  keyword : c.usingCall = true → f.isTaskfunc = false → c.args = [] ∧ use.isStatement = true

theorem faultless_of_callFault? {f : FunctionDef} {c : CallSite} {use : Use}
    (h : callFault? at' f c use = none) : Faultless at' f c use := by
  unfold callFault? at h
  simp only [List.contains_iff_mem] at h
  split at h
  · cases h
  next hfresh =>
  split at h
  · cases h
  next harity =>
  split at h
  · cases h
  next hresult =>
  split at h
  · cases h
  next htask =>
  split at h
  · cases h
  next hinit =>
  refine ⟨hfresh, not_not.mp harity, ?_, ?_, ?_, ?_⟩
  · intro huse
    simpa [huse, Option.isSome_iff_ne_none] using hresult
  · intro huse
    simpa [huse] using htask
  · intro hkeep
    cases htop : at'.top.isInit with
    | false => rfl
    | true => rcases hkeep with hc | hf <;> simp_all
  · intro hc hf
    simp only [hc, hf, Bool.not_false, Bool.and_self, if_true] at h
    split at h
    · cases h
    next hargs =>
    split at h
    · cases h
    next huse => exact ⟨by simpa using hargs, by simpa using huse⟩

/-- A function that is called with the keyword `call` is a task function or has no parameters. -/
theorem Faultless.isTarget {f : FunctionDef} {c : CallSite} {use : Use}
    (h : Faultless at' f c use) (hcall : c.usingCall = true) : f.IsTarget := by
  cases htask : f.isTaskfunc with
  | true => exact .inl htask
  | false =>
    have harity := h.arity
    rw [(h.keyword hcall htask).1] at harity
    exact .inr (List.length_eq_zero_iff.mp harity.symm)

/-! ### Errors that cannot come up -/

/-- **The function of a call that has been entered is still there**, and gets copied. Whether it
was used before makes no difference to the copy. -/
theorem inlineCall_bind_run {β : Type} {p : Program} {inner : Expander} {c : CallSite} {use : Use}
    {e : FunctionEntry} {u : Bool} (h : p.function? c.name.name = some { e with used := u })
    (f : Expanded → Compile β) :
    (inlineCall env inner at' c use >>= f).run p =
      (inlineBody env inner at' e c use.target? >>= fun body =>
        (copyExpanded env at' c e.fn body use : Compile Expanded) >>= f).run p := by
  unfold inlineCall
  simp only [StateT.run_bind, StateT.run_get, pure_bind, h, bind_assoc]
  rfl

/-- Two steps that do the same once a call has been entered do the same. -/
theorem enterCall_bind_congr {β : Type} {c : CallSite} {use : Use} {f g : FunctionEntry → Compile β}
    (h : ∀ e p u, Faultless at' e.fn c use → p.function? c.name.name = some { e with used := u } →
      (f e).run p = (g e).run p) :
    enterCall env at' c use >>= f = enterCall env at' c use >>= g := by
  refine StateT.ext fun p => ?_
  rw [StateT.run_bind, StateT.run_bind, enterCall_run]
  cases hfind : p.function? c.name.name with
  | none => rfl
  | some e =>
    dsimp only
    cases hfault : callFault? at' e.fn c use with
    | some fault => rfl
    | none =>
      obtain ⟨u, hu⟩ := function?_entered hfind
      exact h e _ u (faultless_of_callFault? hfault) hu

/-- Statements are not mistaken for an expression. -/
theorem stmts_bind_toStmts (x : Compile (List Stmt)) :
    ((do return .stmts (← x)) >>= fun r : Expanded => (r.toStmts : Compile (List Stmt))) = x := by
  rw [bind_assoc]
  exact bind_pure x

/-- **What becomes of a call that is a statement**, or a whole right side: statements, whatever
it reaches. -/
theorem callStmts_eq (inner : Expander) (c : CallSite) (target : Option VarRef) :
    callStmts env inner at' c target = (do
      if reachesBuiltin env (← get) c then
        let call ← builtinCall at' c
        return [at'.stmt (match target with
          | some target => .assign target call.toExpr
          | none => .call call) c.span]
      let entry ← enterCall env at' c (.ofTarget target)
      if entry.fn.isTaskfunc then taskfuncCall at' entry.fn c target
      else if c.usingCall then
        let args := c.args.map (·.written)
        return [at'.stmt (.call ⟨c.name, args, c.isProcedure, c.usingCall, c.span⟩) c.span]
      else inlineBody env inner at' entry c target) := by
  unfold callStmts expandCall
  rw [bind_assoc]
  refine bind_congr fun q => ?_
  dsimp only
  split
  · rw [bind_assoc]
    refine bind_congr fun call => ?_
    cases target <;> rfl
  · rw [bind_assoc]
    refine enterCall_bind_congr fun e p u _ hfound => ?_
    have htarget : (Use.ofTarget target).target? = target := by cases target <;> rfl
    split
    · have hcaptured : (Use.ofTarget target).captured = .ok target := by cases target <;> rfl
      rw [hcaptured]
      exact congrArg (StateT.run · p) (stmts_bind_toStmts (taskfuncCall at' e.fn c target))
    · split
      · rfl
      · have hcopied : ∀ body, copyExpanded env at' c e.fn body (.ofTarget target) =
            .ok (.stmts body) := fun body => by cases target <;> rfl
        rw [inlineCall_bind_run hfound, htarget]
        simp only [hcopied]
        exact congrArg (StateT.run · p) (bind_pure (inlineBody env inner at' e c target))

/-- **What becomes of a call inside an expression**: an expression, whatever it reaches. -/
theorem callExpr_eq (inner : Expander) (c : CallSite) :
    callExpr env inner at' c = (do
      if reachesBuiltin env (← get) c then return (← builtinCall at' c).toExpr
      let entry ← enterCall env at' c .expression
      let body ← inlineBody env inner at' entry c none
      match resultOf? entry.fn body with
      | some value => return value
      | none => throw (at'.error env (.notSingleAssignment c.name.name) c.span)) := by
  unfold callExpr expandCall
  rw [bind_assoc]
  refine bind_congr fun q => ?_
  dsimp only
  split
  · rw [bind_assoc]
    rfl
  · rw [bind_assoc]
    refine enterCall_bind_congr fun e p u hfault hfound => ?_
    have htask : e.fn.isTaskfunc = false := hfault.noTaskfunc rfl
    have hcall : c.usingCall = false := by
      by_contra hcall
      obtain ⟨-, hstatement⟩ := hfault.keyword (by simpa using hcall) htask
      cases hstatement
    rw [htask, hcall]
    simp only [Bool.false_eq_true, if_false]
    rw [inlineCall_bind_run hfound]
    refine congrArg (StateT.run · p) (bind_congr fun body => ?_)
    unfold copyExpanded
    cases resultOf? e.fn body <;> rfl

end FlatScript.Inlining
