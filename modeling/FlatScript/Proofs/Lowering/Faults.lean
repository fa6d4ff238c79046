import FlatScript.Proofs.Failure
import FlatScript.Proofs.Lowering.Scheme

/-!
# What lowering can fail with

Lowering fails with plain faults of the script and with nothing else. The one thing to show for
that is that the function around a statement does not get lost: a body is lowered with a function
around it, every declaration puts the function back that it has taken, and a function that is
entered inside leaves the one around it as it was.
-/

namespace FlatScript.Lowering

variable {α β : Type} {env : Env}

/-! ### Steps -/

/-- **A step of lowering fails with plain faults**, and does not lose the function around it. -/
def Plainly (x : Lower α) : Prop :=
  ∀ s, FailsWith CompileError.IsPlain (x.run s) ∧
    ∀ a s', x.run s = .ok (a, s') → s.current.isSome = true → s'.current.isSome = true

namespace Plainly

variable {x : Lower α} {f : α → Lower β}

theorem ret (a : α) : Plainly (pure a : Lower α) := by
  intro s
  refine ⟨.ok _, ?_⟩
  rintro b s' ⟨⟩ hs
  exact hs

theorem fail_bind {fault : Fault} {span : Span} {trace : List Span}
    (h : ∀ chain, fault ≠ .recursiveCall chain) :
    Plainly ((throw (env.errorAt fault span trace) : Lower α) >>= f) :=
  fun _ => ⟨.error (env.isPlain_errorAt span trace h), nofun⟩

theorem bind (hx : Plainly x) (hf : ∀ a, Plainly (f a)) : Plainly (x >>= f) := by
  intro s
  obtain ⟨hfail, hok⟩ := hx s
  constructor
  · rw [StateT.run_bind]
    refine hfail.bind ?_
    rintro ⟨a, s₁⟩ -
    exact (hf a s₁).1
  · intro b s' hrun hs
    obtain ⟨a, s₁, hrunx, hrunf⟩ := StateT.bind_eq_ok.mp hrun
    exact (hf a s₁).2 b s' hrunf (hok a s₁ hrunx hs)

theorem read : Plainly (get : Lower State) := by
  intro s
  refine ⟨.ok _, ?_⟩
  rintro a s' ⟨⟩ hs
  exact hs

theorem change {m : State → State}
    (hm : ∀ s, s.current.isSome = true → (m s).current.isSome = true) :
    Plainly (modify m : Lower PUnit) := by
  intro s
  refine ⟨.ok _, ?_⟩
  rintro a s' ⟨⟩ hs
  exact hm s hs

theorem lift {z : Except CompileError α} (hz : FailsWith CompileError.IsPlain z) :
    Plainly (liftM z : Lower α) := by
  intro s
  refine ⟨?_, ?_⟩
  · exact FailsWith.map hz
  · intro a s' hrun hs
    obtain ⟨-, rfl⟩ := StateT.lift_eq_ok.mp hrun
    exact hs

end Plainly

theorem refs_plainly (env : Env) : Plainly (refs env) :=
  Plainly.read.bind fun _ => .ret _

theorem modifySymbols_plainly (f : Symbols → Symbols) : Plainly (modifySymbols f) :=
  .change fun _ hs => hs

/-! ### Single statements -/

theorem assignment_plainly {target : VarRef} {value : Expr} {span : Span} {trace : List Span} :
    Plainly (assignment env target value span trace) :=
  (refs_plainly env).bind fun _ => .ret _

theorem declareIn_plainly (f : FunctionEntry) (d : Declaration) (span : Span)
    (trace : List Span) : Plainly (declareIn env f d span trace) := by
  unfold declareIn
  dsimp only
  split
  · refine (modifySymbols_plainly _).bind fun _ => ?_
    exact Plainly.bind (.change fun _ _ => rfl) fun _ => .ret []
  split
  · exact .fail_bind nofun
  split
  · exact Plainly.bind (.change fun _ _ => rfl) fun _ => .ret _
  · refine Plainly.read.bind fun _ => (modifySymbols_plainly _).bind fun _ => ?_
    exact Plainly.bind (.change fun _ _ => rfl) fun _ => .ret _

/-- **A declaration is in a callback or in the function around it**, so there is a function for a
local one. -/
theorem declaration_eq (fs : List String) (d : Declaration) (span : Span) (trace : List Span) :
    declaration env fs d span trace = (do
      let r ← refs env
      let d : Declaration :=
        { d with
          name := declaredName env fs d.name
          size := d.size.map (expr r)
          params := exprs r d.params
          init := d.init.map (initializer r) }
      let d := { d with name := { d.name with sigil := some (d.name.sigil.getD (inferSigil d)) } }
      match (← get).current with
      | none =>
        modifySymbols (·.addVariable d.name.full d.uiKind?.isSome)
        return [⟨.declare d, span, trace⟩]
      | some f => declareIn env f d span trace) := by
  refine StateT.ext fun s => ?_
  obtain ⟨program, current⟩ := s
  cases current <;> rfl

theorem declaration_plainly {fs : List String} {d : Declaration} {span : Span}
    {trace : List Span} : Plainly (declaration env fs d span trace) := by
  rw [declaration_eq]
  refine (refs_plainly env).bind fun _ => Plainly.read.bind fun s => ?_
  dsimp only
  split
  · exact (modifySymbols_plainly _).bind fun _ => .ret _
  · exact declareIn_plainly _ _ _ _

/-! ### Functions -/

/-- **What entering a function comes to.** -/
theorem functionWith_run (env : Env) (f : FunctionDef) (body : Lower (List Stmt)) (s : State) :
    (functionWith env f body).run s =
      if ¬ f.paramNames.Nodup then
        .error (env.errorAt (.duplicateParameter f.name.full) f.span [])
      else match entryFor s.program { f with name := f.name.qualifyDeclared env.lines } with
        | .overridden => .ok ((), s)
        | .taken => .error (env.errorAt
            (.duplicateFunction (f.name.qualifyDeclared env.lines).name)
            (f.name.qualifyDeclared env.lines).span [])
        | .free => (body.run ⟨s.program, some (opened env f)⟩) >>= fun r =>
          match r.2.current with
          | none => .error (.internal "function scope lost while lowering")
          | some e => .ok ((), ⟨enter r.2.program { e with fn := { e.fn with body := r.1 } },
              s.current⟩) := by
  unfold functionWith
  dsimp only
  split
  · rfl
  · simp only [StateT.run_bind, StateT.run_get, pure_bind]
    cases entryFor s.program { f with name := f.name.qualifyDeclared env.lines } with
    | overridden => rfl
    | taken => rfl
    | free =>
      simp only [StateT.run_bind, StateT.run_get, StateT.run_modify, pure_bind]
      show (body.run ⟨s.program, some (opened env f)⟩ >>= _) = _
      congr 1
      funext r
      obtain ⟨ss, program, current⟩ := r
      cases current <;> rfl

theorem functionWith_plainly {f : FunctionDef} {body : Lower (List Stmt)} (hbody : Plainly body) :
    Plainly (functionWith env f body) := by
  intro s
  rw [functionWith_run]
  split
  · exact ⟨.error (env.isPlain_errorAt _ _ nofun), nofun⟩
  split
  · refine ⟨.ok _, ?_⟩
    rintro ⟨⟩ s' ⟨⟩ hs
    exact hs
  · exact ⟨.error (env.isPlain_errorAt _ _ nofun), nofun⟩
  -- The body starts with a function around it, and ends with one.
  obtain ⟨hfail, hok⟩ := hbody ⟨s.program, some (opened env f)⟩
  cases hrun : body.run ⟨s.program, some (opened env f)⟩ with
  | error e => exact ⟨.error (hfail e hrun), nofun⟩
  | ok r =>
    obtain ⟨ss, program, current⟩ := r
    obtain ⟨e, rfl⟩ := Option.isSome_iff_exists.mp (hok ss ⟨program, current⟩ hrun rfl)
    refine ⟨.ok _, ?_⟩
    rintro ⟨⟩ s' ⟨⟩ hs
    exact hs

theorem synonym_plainly {property : String} {indices : List Ident} {target : VarRef}
    {span : Span} : Plainly (synonym env property indices target span) := by
  refine (functionWith_plainly ?_).bind fun _ => functionWith_plainly ?_
  · exact assignment_plainly.bind fun _ => .ret _
  · exact assignment_plainly.bind fun _ => .ret _

theorem checkAccessors_fails (property : String) (fs : List FunctionDef) (span : Span) :
    FailsWith CompileError.IsPlain (checkAccessors env property fs span) := by
  have haccessor : ∀ f fault, accessorFault? property f = some fault →
      ∀ chain, fault ≠ Fault.recursiveCall chain := by
    rintro f _ h chain rfl
    unfold accessorFault? at h
    split at h
    · split at h <;> cases h
    split at h
    · split at h
      · cases h
      split at h <;> cases h
    · cases h
  unfold checkAccessors
  split
  · refine FailsWith.bind (.error (env.isPlain_errorAt _ _ ?_)) ?_
    · rintro chain ⟨⟩
    · rintro a ⟨⟩
  · refine .forM fun f _ => ?_
    cases hfault : accessorFault? property f with
    | none => exact .ok _
    | some fault => exact .error (env.isPlain_errorAt _ _ (haccessor f fault hfault))

/-! ### Statements -/

mutual

theorem stmt_plainly {fs : List String} : ∀ x : Stmt, Plainly (stmt env fs x)
  | ⟨.forLoop var start stop step downto body, span, trace⟩ => by
    simp only [stmt]
    refine assignment_plainly.bind fun _ => (refs_plainly env).bind fun _ => ?_
    refine (stmts_plainly body).bind fun _ => ?_
    exact ((refs_plainly env).bind fun _ => .ret _).bind fun _ => .ret _
  | ⟨.ifChain bs otherwise, span, trace⟩ => by
    simp only [stmt]
    exact (chain_plainly (stmts_plainly otherwise) bs).bind fun _ => .ret _
  | ⟨.family name body, span, trace⟩ => by
    simp only [stmt]
    exact (modifySymbols_plainly _).bind fun _ => stmts_plainly body
  | ⟨.property name functions, span, trace⟩ => by
    simp only [stmt]
    refine (Plainly.lift (checkAccessors_fails _ functions span)).bind fun _ => ?_
    refine (accessors_plainly functions).bind fun _ => ?_
    exact (modifySymbols_plainly _).bind fun _ => .ret _
  | ⟨.synonym name indices target, span, trace⟩ => by
    simp only [stmt]
    refine synonym_plainly.bind fun _ => ?_
    exact (modifySymbols_plainly _).bind fun _ => .ret _
  | ⟨.declare d, span, trace⟩ => by
    simp only [stmt]
    exact declaration_plainly
  | ⟨.assign target value, span, trace⟩ => by
    simp only [stmt]
    exact assignment_plainly.bind fun _ => .ret _
  | ⟨.call c, span, trace⟩ => by
    simp only [stmt]
    exact (refs_plainly env).bind fun _ => .ret _
  | ⟨.whileLoop cond body, span, trace⟩ => by
    simp only [stmt]
    exact (refs_plainly env).bind fun _ => (stmts_plainly body).bind fun _ => .ret _
  | ⟨.select subject cs, span, trace⟩ => by
    simp only [stmt]
    exact (refs_plainly env).bind fun _ => (cases_plainly cs).bind fun _ => .ret _

/-- **Statements are lowered, or there is a plain fault.** -/
theorem stmts_plainly {fs : List String} : ∀ ss : List Stmt, Plainly (stmts env fs ss)
  | [] => by
    simp only [stmts]
    exact .ret []
  | s :: ss => by
    simp only [stmts]
    exact (stmt_plainly s).bind fun _ => (stmts_plainly ss).bind fun _ => .ret _

theorem chain_plainly {fs : List String} {span : Span} {trace : List Span}
    {otherwise : Lower (List Stmt)} (ho : Plainly otherwise) :
    ∀ bs : List Branch, Plainly (chain env fs span trace otherwise bs)
  | [] => by
    simp only [chain]
    exact ho.bind fun _ => .ret _
  | [⟨cond, body⟩] => by
    simp only [chain]
    refine (refs_plainly env).bind fun _ => (stmts_plainly body).bind fun _ => ?_
    exact ho.bind fun _ => .ret _
  | ⟨cond, body⟩ :: b :: rest => by
    simp only [chain]
    refine (refs_plainly env).bind fun _ => (stmts_plainly body).bind fun _ => ?_
    exact (chain_plainly ho (b :: rest)).bind fun _ => .ret _

theorem cases_plainly {fs : List String} : ∀ cs : List Case, Plainly (cases env fs cs)
  | [] => by
    simp only [cases]
    exact .ret []
  | ⟨start, stop, body⟩ :: rest => by
    simp only [cases]
    refine (refs_plainly env).bind fun _ => (stmts_plainly body).bind fun _ => ?_
    exact (cases_plainly rest).bind fun _ => .ret _

theorem accessors_plainly {property : String} :
    ∀ fs : List FunctionDef, Plainly (accessors env property fs)
  | [] => by
    simp only [accessors]
    exact .ret _
  | ⟨name, params, result, body, isTaskfunc, isOverride, span⟩ :: rest => by
    simp only [accessors]
    exact (functionWith_plainly (stmts_plainly body)).bind fun _ => accessors_plainly rest

end

/-! ### Scripts -/

theorem blocks_plainly : ∀ bs : List Block, Plainly (blocks env bs)
  | [] => by
    simp only [blocks]
    exact .ret []
  | .callback c :: rest => by
    simp only [blocks]
    refine (refs_plainly env).bind fun _ => (stmts_plainly c.body).bind fun _ => ?_
    exact (blocks_plainly rest).bind fun _ => .ret _
  | .function f :: rest => by
    simp only [blocks]
    exact (functionWith_plainly (stmts_plainly f.body)).bind fun _ => blocks_plainly rest

/-- **A script is lowered, or there is a plain fault.** -/
theorem script_fails (env : Env) (s : Script) (p : Program) :
    FailsWith CompileError.IsPlain ((script env s).run p) := by
  unfold script
  simp only [StateT.run_bind, StateT.run_get, pure_bind]
  refine FailsWith.bind ?_ fun _ _ => .ok _
  exact FailsWith.map (blocks_plainly (initFirst s.blocks) _).1

/-- What is left of the blocks are callbacks. -/
theorem callbacks_of_blocks : ∀ {bs bs' : List Block} {s s' : State},
    (blocks env bs).run s = .ok (bs', s') → ∀ b ∈ bs', ∃ c, b = .callback c
  | [], _, _, _, h => by
    simp only [blocks] at h
    cases h
    simp
  | .callback c :: rest, _, _, _, h => by
    simp only [blocks] at h
    obtain ⟨_, _, -, h⟩ := StateT.bind_eq_ok.mp h
    obtain ⟨body, _, -, h⟩ := StateT.bind_eq_ok.mp h
    obtain ⟨rest', _, hrest, h⟩ := StateT.bind_eq_ok.mp h
    cases h
    intro b hb
    rcases List.mem_cons.mp hb with rfl | hb
    · exact ⟨_, rfl⟩
    · exact callbacks_of_blocks hrest b hb
  | .function f :: rest, _, _, _, h => by
    simp only [blocks] at h
    obtain ⟨_, _, -, h⟩ := StateT.bind_eq_ok.mp h
    exact callbacks_of_blocks h

/-- **A lowered script consists of callbacks.** -/
theorem script_callbacks {s s' : Script} {p p' : Program}
    (h : (script env s).run p = .ok (s', p')) : ∀ b ∈ s'.blocks, ∃ c, b = .callback c := by
  unfold script at h
  simp only [StateT.run_bind, StateT.run_get, pure_bind] at h
  obtain ⟨⟨⟨bs, state⟩, p₁⟩, hrun, h⟩ := Except.bind_eq_ok.mp h
  cases h
  obtain ⟨hrun, -⟩ := StateT.lift_eq_ok.mp hrun
  exact callbacks_of_blocks hrun

end FlatScript.Lowering
