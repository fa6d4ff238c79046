import FlatScript.Proofs.Places

/-!
# Expansion does not depend on places

Two statements that are the same apart from places expand to statements that are so too. The second
expansion may also stand further out, among fewer functions that are being copied, and it may be
allowed to nest copies deeper: whenever the first ends with a result, so does the second.

* `FlatScript.Inlining.Nearer` relates the two places, and `FlatScript.Inlining.Follows` says that
  one step follows another.
* `FlatScript.Inlining.expandAt_follows` is the statement for whole bodies.
-/

namespace FlatScript.Inlining

variable {env : Env}

/-! ### Steps that follow one another -/

/-- **What may differ**: the second expansion stands among fewer functions that are being copied,
and statements may remember anything. There is no error for it to stop with. -/
def outward (env : Env) : Mirror env where
  traces _ _ := True
  around stack stack' := stack' ⊆ stack
  stop _ := False
  known _ := True
  ready _ := True
  push _ h := List.append_subset.mpr ⟨fun _ hx => List.mem_append_left _ (h hx), fun _ hx =>
    List.mem_append_right _ hx⟩
  fresh h hnot hmem := absurd (h hmem) hnot
  used _ := trivial
  drained _ := trivial
  readyNil := trivial
  readyDecls _ := trivial
  readyBody _ _ := trivial

/-- The second place is in the same block as the first one, but not further in. -/
abbrev Nearer (env : Env) (at₁ at₂ : Place) : Prop := (outward env).Facing at₁ at₂

/-- The programs have the same names and the same functions, apart from what has been learnt of
their use. -/
abbrev Akin (env : Env) (p q : Program) : Prop := (outward env).Agrees p q

/-- **The second step follows the first one**: if the first has a result, so has the second, and the
results are related. -/
abbrev Follows (env : Env) {α β : Type} (p q : Program) (x : Compile α) (y : Compile β)
    (R : α → β → Prop) : Prop := (outward env).Echoes p q x y R

namespace Akin

variable {p q r : Program}

theorem refl (env : Env) (p : Program) : Akin env p p :=
  ⟨rfl, List.forall₂_same.mpr fun _ _ => ⟨trivial, rfl, rfl, rfl⟩⟩

theorem symm (h : Akin env p q) : Akin env q p :=
  ⟨h.symbols.symm, h.functions.flip.imp fun _ _ he =>
    ⟨trivial, he.2.fn.symm, he.2.globals.symm, he.2.locals.symm⟩⟩

theorem trans (h : Akin env p q) (h' : Akin env q r) : Akin env p r := by
  refine ⟨h'.symbols.trans h.symbols, ?_⟩
  have hfirst := h.functions
  have hsecond := h'.functions
  generalize p.functions = es, q.functions = es', r.functions = es'' at hfirst hsecond ⊢
  induction hfirst generalizing es'' with
  | nil => exact hsecond
  | cons he _ ih =>
    cases hsecond with
    | cons he' hs' =>
      exact .cons ⟨trivial, he'.2.fn.trans he.2.fn, he'.2.globals.trans he.2.globals,
        he'.2.locals.trans he.2.locals⟩ (ih _ hs')

end Akin

theorem Nearer.within {at₁ at₂ : Place} (h : Nearer env at₁ at₂) (t t' : List Span) :
    Nearer env { at₁ with trace := t } { at₂ with trace := t' } :=
  ⟨h.top, h.around, trivial⟩

/-- What a step that follows another one comes to. -/
theorem Follows.run {α β : Type} {p q : Program} {x : Compile α} {y : Compile β}
    {R : α → β → Prop} (h : Follows env p q x y R) {a : α} {p' : Program}
    (hrun : x.run p = .ok (a, p')) : ∃ b q', y.run q = .ok (b, q') ∧ Akin env p' q' ∧ R a b := by
  rcases h a p' hrun with hok | ⟨_, _, hstop⟩
  · exact hok
  · exact hstop.elim

/-! ### Arguments and calls -/

/-- Two arguments are the same apart from places, and expanding the second follows expanding the
first. -/
structure ArgFollows (env : Env) (a a' : Argument) : Prop where
  written : a.written.Matches a'.written
  value : ∀ p q, Akin env p q → Follows env p q a.value a'.value Expr.Matches
  target : Option.Rel (fun x x' => ∀ p q, Akin env p q → Follows env p q x x' VarRef.Matches)
    a.target? a'.target?

/-- Two call sites are the same apart from places, and expanding the arguments of the second follows
expanding those of the first. -/
structure SiteFollows (env : Env) (c c' : CallSite) : Prop where
  name : c.name.Matches c'.name
  isProcedure : c'.isProcedure = c.isProcedure
  usingCall : c'.usingCall = c.usingCall
  args : List.Forall₂ (ArgFollows env) c.args c'.args

/-- A reference that is expanded already, as an argument. -/
theorem argFollows_captured {v v' : VarRef} (h : v.Matches v') :
    ArgFollows env ⟨v.toExpr, pure v.toExpr, some (pure v)⟩
      ⟨v'.toExpr, pure v'.toExpr, some (pure v')⟩ where
  written := h.toExpr
  value _ _ hpq := .ret hpq h.toExpr
  target := .some fun _ _ hpq => .ret hpq h

variable {p q : Program} {at₁ at₂ : Place}

/-! ### Built-in functions -/

theorem mapM_value_follows {as as' : List Argument} (h : List.Forall₂ (ArgFollows env) as as')
    (hpq : Akin env p q) :
    Follows env p q (as.mapM (·.value)) (as'.mapM (·.value)) ExprsMatch := by
  induction h generalizing p q with
  | nil => exact .ret hpq .nil
  | cons ha _ ih =>
    simp only [List.mapM_cons]
    refine (ha.value p q hpq).bind fun e e' p' q' hpq he => ?_
    exact (ih hpq).bind fun es es' _ _ hpq hes => .ret hpq (.cons he hes)

theorem builtinArgs_follows (name : String) {as as' : List Argument}
    (h : List.Forall₂ (ArgFollows env) as as') (hpq : Akin env p q) :
    Follows env p q (builtinArgs name as) (builtinArgs name as') ExprsMatch := by
  cases h with
  | nil => exact .ret hpq .nil
  | cons ha has =>
    simp only [builtinArgs]
    split
    · rw [pure_bind, pure_bind]
      exact (mapM_value_follows has hpq).bind fun es es' _ _ hpq hes =>
        .ret hpq (.cons ha.written hes)
    · refine (ha.value p q hpq).bind fun e e' p' q' hpq he => ?_
      exact (mapM_value_follows has hpq).bind fun es es' _ _ hpq hes => .ret hpq (.cons he hes)

theorem builtinCall_follows (hat : Nearer env at₁ at₂) {c c' : CallSite}
    (hc : SiteFollows env c c') (hpq : Akin env p q) :
    Follows env p q (builtinCall at₁ c) (builtinCall at₂ c') Call.Matches := by
  have hargs : ∀ {p q}, Akin env p q → Follows env p q
      (builtinArgs c.name.name c.args >>= fun args =>
        (pure ⟨c.name, args, c.isProcedure, c.usingCall, c.span⟩ : Compile Call))
      (builtinArgs c'.name.name c'.args >>= fun args =>
        pure ⟨c'.name, args, c'.isProcedure, c'.usingCall, c'.span⟩) Call.Matches := by
    intro p q hpq
    rw [hc.name.name]
    exact (builtinArgs_follows _ hc.args hpq).bind fun args args' _ _ hpq hargs =>
      .ret hpq ⟨hc.name, hargs, hc.isProcedure, hc.usingCall⟩
  unfold builtinCall
  rw [hc.name.name] at hargs ⊢
  dsimp only
  split
  · rw [hat.top]
    split
    · exact .modify_bind (hargs (hpq.aside rfl rfl rfl rfl))
    · exact hargs hpq
  · exact hargs hpq

/-! ### Functions of the script -/

/-- A call without a fault has none further out. -/
theorem callFault?_nearer (hat : Nearer env at₁ at₂) {f : FunctionDef} {c c' : CallSite}
    {use use' : Use} (hname : c'.name.name = c.name.name) (husing : c'.usingCall = c.usingCall)
    (hlen : c'.args.length = c.args.length) (hstatement : use'.isStatement = use.isStatement)
    (hexpression : use'.isExpression = use.isExpression)
    (h : callFault? at₁ f c use = none) : callFault? at₂ f c' use' = none := by
  have hnil : c'.args.isEmpty = c.args.isEmpty := by
    rw [Bool.eq_iff_iff, List.isEmpty_iff_length_eq_zero, List.isEmpty_iff_length_eq_zero, hlen]
  have hfresh : c.name.name ∉ at₁.stack := (faultless_of_callFault? h).fresh
  have hfresh' : c.name.name ∉ at₂.stack := fun hmem => hfresh (hat.around hmem)
  rw [← h]
  simp only [callFault?, hname, husing, hlen, hnil, hat.top, hstatement, hexpression,
    List.contains_iff_mem, hfresh, hfresh', if_false]

theorem enterCall_follows (hat : Nearer env at₁ at₂) {c c' : CallSite} {use use' : Use}
    (hname : c'.name.name = c.name.name) (husing : c'.usingCall = c.usingCall)
    (hlen : c'.args.length = c.args.length) (hstatement : use'.isStatement = use.isStatement)
    (hexpression : use'.isExpression = use.isExpression) (hpq : Akin env p q) :
    Follows env p q (enterCall env at₁ c use) (enterCall env at₂ c' use') FunctionEntry.Same := by
  intro e p' hrun
  rw [enterCall_run] at hrun ⊢
  have hfind := hpq.function? c.name.name
  rw [hname, husing, hat.top]
  generalize p.function? c.name.name = o, q.function? c.name.name = o' at hfind hrun
  cases hfind with
  | none => cases hrun
  | @some e e' he =>
    dsimp only at hrun ⊢
    split at hrun
    · cases hrun
    next hfault =>
    cases hrun
    rw [he.2.fn, callFault?_nearer hat hname husing hlen hstatement hexpression hfault]
    exact .inl ⟨_, _, rfl, hpq.entered .., he.2⟩

/-! ### Task functions -/

/-- The cells of the stack do not depend on the place. -/
theorem argumentSlot_matches (count i : Nat) (span span' : Span) :
    (argumentSlot count i span).Matches (argumentSlot count i span') := by
  refine ⟨⟨rfl, rfl⟩, .cons ?_ .nil⟩
  have hbase : (Frame.fixedVar Frame.stackPointer span).toExpr.Matches
      (Frame.fixedVar Frame.stackPointer span').toExpr := .var ⟨rfl, rfl⟩ .nil
  split
  · exact hbase
  · exact .binary hbase .int

theorem storeArgs_follows (count : Nat) (span span' : Span) {as as' : List (Argument × ParamKind)}
    (h : List.Forall₂ (fun a a' => ArgFollows env a.1 a'.1 ∧ a'.2 = a.2) as as') (i : Nat)
    (hpq : Akin env p q) :
    Follows env p q (storeArgs at₁ count span i as) (storeArgs at₂ count span' i as')
      StmtsMatch := by
  induction h generalizing p q i with
  | nil => exact .ret hpq .nil
  | @cons a a' as as' ha _ ih =>
    obtain ⟨arg, kind⟩ := a
    obtain ⟨arg', kind'⟩ := a'
    obtain ⟨ha, rfl⟩ := ha
    simp only [storeArgs, Place.stmt]
    split
    · refine (ha.value p q hpq).bind fun e e' p' q' hpq he => ?_
      simp only [pure_bind]
      refine (ih (i + 1) hpq).bind fun ss ss' _ _ hpq hss => .ret hpq ?_
      exact .cons (.assign (argumentSlot_matches count i span span') he) hss
    · simp only [pure_bind]
      exact (ih (i + 1) hpq).bind fun ss ss' _ _ hpq hss => .ret hpq hss

theorem loadArgs_follows (count : Nat) (span span' : Span) {as as' : List (Argument × ParamKind)}
    (h : List.Forall₂ (fun a a' => ArgFollows env a.1 a'.1 ∧ a'.2 = a.2) as as') (i : Nat)
    (hpq : Akin env p q) :
    Follows env p q (loadArgs at₁ count span i as) (loadArgs at₂ count span' i as')
      StmtsMatch := by
  induction h generalizing p q i with
  | nil => exact .ret hpq .nil
  | @cons a a' as as' ha _ ih =>
    obtain ⟨⟨written, value, target⟩, kind⟩ := a
    obtain ⟨⟨written', value', target'⟩, kind'⟩ := a'
    obtain ⟨ha, rfl⟩ := ha
    have hskip : ∀ {p q}, Akin env p q →
        Follows env p q (loadArgs at₁ count span (i + 1) as >>= fun ss => pure ([] ++ ss))
          (loadArgs at₂ count span' (i + 1) as' >>= fun ss => pure ([] ++ ss)) StmtsMatch :=
      fun hpq => (ih (i + 1) hpq).bind fun ss ss' _ _ hpq hss => .ret hpq hss
    have htarget := ha.target
    dsimp only at htarget
    cases htarget with
    | none => cases hk : kind'.copiesOut <;> simpa [loadArgs, hk] using hskip hpq
    | some htarget =>
      cases hk : kind'.copiesOut with
      | false => simpa [loadArgs, hk] using hskip hpq
      | true =>
        simp only [loadArgs, Place.stmt, hk]
        refine (htarget p q hpq).bind fun v v' p' q' hpq hv => ?_
        simp only [pure_bind]
        refine (ih (i + 1) hpq).bind fun ss ss' _ _ hpq hss => .ret hpq ?_
        exact .cons (.assign hv (argumentSlot_matches count i span span').toExpr) hss

theorem taskfuncCall_follows (f : FunctionDef) {c c' : CallSite} (hc : SiteFollows env c c')
    {captured captured' : Option VarRef} (hcap : Option.Rel VarRef.Matches captured captured')
    (hpq : Akin env p q) :
    Follows env p q (taskfuncCall at₁ f c captured) (taskfuncCall at₂ f c' captured')
      StmtsMatch := by
  have hnone : captured'.isNone = captured.isNone := by
    cases hcap <;> rfl
  have hargs := Mirror.forall₂_passed (f.params.map (·.kind)) hc.args
    (optionRel_imp hcap fun _ _ hv => argFollows_captured hv)
  simp only [taskfuncCall]
  rw [← hargs.length_eq, hc.name.name, hnone]
  generalize HAdd.hAdd (List.length _) _ = count
  split
  · exact Mirror.Echoes.fail
  · refine .modify_bind ?_
    have hmarked : Akin env { p with calls := p.calls.markExplicit c.name.name }
        { q with calls := q.calls.markExplicit c.name.name } := hpq.aside rfl rfl rfl rfl
    refine (storeArgs_follows count c.span c'.span hargs 0 hmarked).bind
      fun stores stores' p' q' hpq hstores => ?_
    refine (loadArgs_follows _ c.span c'.span hargs 0 hpq).bind
      fun loads loads' _ _ hpq hloads => .ret hpq ?_
    have hcall : Call.Matches ⟨c.name, [], true, true, c.span⟩ ⟨c'.name, [], true, true, c'.span⟩ :=
      ⟨hc.name, .nil, rfl, rfl⟩
    exact (hstores.append (.single (.call hcall))).append hloads

/-! ### Copies -/

/-- An argument, as it stands in the place of a parameter. -/
theorem argumentSubstitution_follows (params : List Param) {as as' : List Argument}
    (h : List.Forall₂ (ArgFollows env) as as') (hpq : Akin env p q) :
    Follows env p q (argumentSubstitution (params.zip as)) (argumentSubstitution (params.zip as'))
      Substitution.Matches := by
  induction h generalizing p q params with
  | nil =>
    rw [List.zip_nil_right]
    exact .ret hpq .nil
  | @cons a a' as as' ha _ ih =>
    cases params with
    | nil => exact .ret hpq .nil
    | cons param params =>
      simp only [List.zip_cons_cons, argumentSubstitution]
      have hrest : ∀ {e e' : Expr} {p q}, e.Matches e' → Akin env p q → Follows env p q
          (argumentSubstitution (params.zip as) >>= fun s =>
            pure (s ++ [(Name.firstPart param.name.name, e)]))
          (argumentSubstitution (params.zip as') >>= fun s =>
            pure (s ++ [(Name.firstPart param.name.name, e')])) Substitution.Matches :=
        fun he hpq => (ih params hpq).bind fun s s' _ _ hpq hs =>
          .ret hpq (List.rel_append hs (.cons ⟨rfl, he⟩ .nil))
      have hwritten := ha.written
      have hvalue := ha.value p q hpq
      obtain ⟨written, value, target⟩ := a
      obtain ⟨written', value', target'⟩ := a'
      dsimp only at hwritten hvalue ⊢
      cases hwritten with
      | var hi hes =>
        simp only [pure_bind]
        exact hrest (.var hi hes) hpq
      | _ => exact hvalue.bind fun e e' _ _ hpq he => hrest he hpq

/-- **How copied bodies are treated in the second expansion follows the first one.** -/
def Answers (env : Env) (inner inner' : Expander) : Prop :=
  ∀ at₁ at₂ body body' p q, Nearer env at₁ at₂ → StmtsMatch body body' → Akin env p q →
    Follows env p q (inner at₁ body) (inner' at₂ body') StmtsMatch

variable {inner inner' : Expander}

theorem takeDeclarations_follows (hat : Nearer env at₁ at₂) {e e' : FunctionEntry}
    (hsame : e.Same e') (hpq : Akin env p q) :
    Follows env p q (takeDeclarations at₁ e) (takeDeclarations at₂ e') StmtsMatch := by
  unfold takeDeclarations
  rw [hat.top, hsame.name, hsame.globals, hsame.locals]
  split
  · refine .modify_bind (.ret ?_ (.refl _))
    exact hpq.updateFunction _ fun _ _ _ hsame => ⟨trivial, hsame.fn, rfl, rfl⟩
  · exact .ret hpq .nil

/-- What the result of a function is replaced by. -/
def resultsOf (f : FunctionDef) (result : Option VarRef) : Substitution :=
  match resultKey? f, result with
  | some key, some target => [(key, target.toExpr)]
  | _, _ => []

theorem resultsOf_matches (f : FunctionDef) {result result' : Option VarRef}
    (h : Option.Rel VarRef.Matches result result') :
    (resultsOf f result).Matches (resultsOf f result') := by
  unfold resultsOf
  cases h with
  | none => cases resultKey? f <;> exact .nil
  | some h =>
    cases resultKey? f with
    | none => exact .nil
    | some key => exact .cons ⟨rfl, h.toExpr⟩ .nil

/-- A body is copied, with what stands in the place of its parameters. -/
def copyBody (env : Env) (inner : Expander) (at' : Place) (entry : FunctionEntry) (span : Span)
    (σ : Substitution) : Compile (List Stmt) := do
  let body ← Substitution.stmts env σ (stmtsCopiedTo span entry.fn.body)
  inner { at' with stack := at'.stack ++ [entry.name] } body

theorem inlineBody_eq (env : Env) (inner : Expander) (at' : Place) (entry : FunctionEntry)
    (c : CallSite) (result : Option VarRef) :
    inlineBody env inner at' entry c result = do
      let decls ← takeDeclarations at' entry
      let decls ← inner at' decls
      let params ← argumentSubstitution (entry.fn.params.zip c.args)
      let copy ← copyBody env inner at' entry c.span (resultsOf entry.fn result ++ params)
      return decls ++ copy := by
  unfold inlineBody resultsOf
  refine bind_congr fun decls => bind_congr fun decls' => bind_congr fun params => ?_
  cases resultKey? entry.fn <;> cases result <;> exact (bind_assoc _ _ _).symm

theorem copyBody_follows (hinner : Answers env inner inner') (hat : Nearer env at₁ at₂)
    {e e' : FunctionEntry} (hsame : e.Same e') (span span' : Span) {σ σ' : Substitution}
    (hσ : σ.Matches σ') (hpq : Akin env p q) :
    Follows env p q (copyBody env inner at₁ e span σ) (copyBody env inner' at₂ e' span' σ')
      StmtsMatch := by
  unfold copyBody
  rw [hsame.fn, hsame.name]
  have hnext : Nearer env { at₁ with stack := at₁.stack ++ [e.name] }
      { at₂ with stack := at₂.stack ++ [e.name] } := hat.push e.name
  refine .lift_bind fun body hbody => ?_
  obtain ⟨body', hbody', hmatch⟩ := Substitution.stmts_match hσ span span' hbody
  refine ⟨body', hbody', ?_⟩
  exact hinner _ _ body body' p q hnext hmatch hpq

/-- **A copy of a body follows** the one at the other place. -/
theorem inlineBody_follows (hinner : Answers env inner inner') (hat : Nearer env at₁ at₂)
    {e e' : FunctionEntry} (hsame : e.Same e') {c c' : CallSite} (hc : SiteFollows env c c')
    {result result' : Option VarRef} (hresult : Option.Rel VarRef.Matches result result')
    (hpq : Akin env p q) :
    Follows env p q (inlineBody env inner at₁ e c result) (inlineBody env inner' at₂ e' c' result')
      StmtsMatch := by
  rw [inlineBody_eq, inlineBody_eq]
  refine (takeDeclarations_follows hat hsame hpq).bind fun decls decls' p₁ q₁ hpq hdecls => ?_
  refine (hinner at₁ at₂ _ _ p₁ q₁ hat hdecls hpq).bind fun decls decls' p₂ q₂ hpq hdecls => ?_
  rw [hsame.fn]
  refine (argumentSubstitution_follows _ hc.args hpq).bind fun params params' p₃ q₃ hpq hs => ?_
  have hσ := List.rel_append (resultsOf_matches e.fn hresult) hs
  exact (copyBody_follows hinner hat hsame c.span c'.span hσ hpq).bind
    fun copy copy' _ _ hpq hcopy => .ret hpq (hdecls.append hcopy)

/-! ### Calls -/

theorem reachesBuiltin_akin {c c' : CallSite} (hname : c'.name.name = c.name.name)
    (husing : c'.usingCall = c.usingCall) (hpq : Akin env p q) :
    reachesBuiltin env q c' = reachesBuiltin env p c := by
  simp only [reachesBuiltin, hname, husing, hpq.isBuiltinCall]

theorem callStmts_follows (hinner : Answers env inner inner') (hat : Nearer env at₁ at₂)
    {c c' : CallSite} (hc : SiteFollows env c c') {target target' : Option VarRef}
    (htarget : Option.Rel VarRef.Matches target target') (hpq : Akin env p q) :
    Follows env p q (callStmts env inner at₁ c target) (callStmts env inner' at₂ c' target')
      StmtsMatch := by
  rw [callStmts_eq, callStmts_eq]
  refine .get_bind ?_
  rw [reachesBuiltin_akin hc.name.name hc.usingCall hpq]
  split
  · refine (builtinCall_follows hat hc hpq).bind fun k k' _ _ hpq hk => .ret hpq ?_
    cases htarget with
    | none => exact .single (.call hk)
    | some h => exact .single (.assign h hk.toExpr)
  · dsimp only
    have hlen := hc.args.length_eq.symm
    refine (enterCall_follows hat hc.name.name hc.usingCall hlen ?_ ?_ hpq).bind
      fun e e' p₁ q₁ hpq he => ?_
    · cases htarget <;> rfl
    · cases htarget <;> rfl
    rw [he.fn, hc.usingCall, hc.isProcedure]
    split
    · exact taskfuncCall_follows e.fn hc htarget hpq
    · split
      · have hwritten : ∀ {as as' : List Argument}, List.Forall₂ (ArgFollows env) as as' →
            ExprsMatch (as.map (·.written)) (as'.map (·.written)) := by
          intro as as' h
          induction h with
          | nil => exact .nil
          | cons ha _ ih => exact .cons ha.written ih
        exact .ret hpq (.single (.call ⟨hc.name, hwritten hc.args, rfl, rfl⟩))
      · exact inlineBody_follows hinner hat he hc htarget hpq

theorem callExpr_follows (hinner : Answers env inner inner') (hat : Nearer env at₁ at₂)
    {c c' : CallSite} (hc : SiteFollows env c c') (hpq : Akin env p q) :
    Follows env p q (callExpr env inner at₁ c) (callExpr env inner' at₂ c') Expr.Matches := by
  rw [callExpr_eq, callExpr_eq]
  refine .get_bind ?_
  rw [reachesBuiltin_akin hc.name.name hc.usingCall hpq]
  split
  · exact (builtinCall_follows hat hc hpq).bind fun k k' _ _ hpq hk => .ret hpq hk.toExpr
  · have hlen := hc.args.length_eq.symm
    refine (enterCall_follows hat hc.name.name hc.usingCall hlen rfl rfl hpq).bind
      fun e e' p₁ q₁ hpq he => ?_
    refine (inlineBody_follows hinner hat he hc .none hpq).bind fun body body' p₂ q₂ hpq hbody => ?_
    rw [he.fn]
    have hrel := hbody.resultOf? e.fn
    generalize resultOf? e.fn body = o, resultOf? e.fn body' = o' at hrel
    cases hrel with
    | none => exact .fail
    | some hv => exact .ret hpq hv

theorem getterSite_follows (hpq : Akin env p q) {i i' : Ident} (hi : i.Matches i')
    {as as' : List Argument} (has : List.Forall₂ (ArgFollows env) as as') {span : Span}
    (span' : Span) {c : CallSite} (h : getterSite env at₁ p i as span = .ok c) :
    ∃ c', getterSite env at₂ q i' as' span' = .ok c' ∧ SiteFollows env c c' := by
  unfold getterSite at h ⊢
  dsimp only at h ⊢
  rw [hpq.isUserFunction, hi.name]
  split at h
  · next huser =>
    cases h
    exact ⟨_, if_pos huser, ⟨rfl, rfl⟩, rfl, rfl, has⟩
  · cases h

theorem setterSite_follows (hpq : Akin env p q) {target target' : VarRef}
    (ht : target.Matches target') {as as' : List Argument}
    (has : List.Forall₂ (ArgFollows env) as as') {span : Span} (span' : Span) {c : CallSite}
    (h : setterSite env at₁ p target as span = .ok c) :
    ∃ c', setterSite env at₂ q target' as' span' = .ok c' ∧ SiteFollows env c c' := by
  unfold setterSite at h ⊢
  dsimp only at h ⊢
  rw [hpq.isUserFunction, ht.ident.name]
  split at h
  · next huser =>
    cases h
    exact ⟨_, if_pos huser, ⟨rfl, rfl⟩, rfl, rfl, has⟩
  · cases h

/-! ### Expressions -/

/-- The same name is that of a property, or of a function, in both programs. -/
theorem Akin.isPropertyRef_matches (hpq : Akin env p q) {i i' : Ident} (hi : i.Matches i') :
    isPropertyRef q i' = isPropertyRef p i := by
  rw [← hpq.isPropertyRef, isPropertyRef, isPropertyRef, hi.sigil, hi.name]

theorem Akin.namesFunction_matches (hpq : Akin env p q) {i i' : Ident} (hi : i.Matches i') :
    namesFunction q i' = namesFunction p i := by
  rw [← hpq.namesFunction, namesFunction, namesFunction, hi.sigil, hi.name]

mutual

/-- **An expression, expanded, follows** one that is the same apart from places. -/
theorem expr_follows (hinner : Answers env inner inner') (hat : Nearer env at₁ at₂) :
    ∀ {e e' : Expr}, e.Matches e' → ∀ p q, Akin env p q →
      Follows env p q (expr env inner at₁ e) (expr env inner' at₂ e') Expr.Matches
  | _, _, .binary hl hr, p, q, hpq => by
    simp only [expr]
    refine (expr_follows hinner hat hl p q hpq).bind fun l l' p₁ q₁ hpq hl => ?_
    exact (expr_follows hinner hat hr p₁ q₁ hpq).bind fun r r' _ _ hpq hr =>
      .ret hpq (.binary hl hr)
  | _, _, .unary ho, p, q, hpq => by
    simp only [expr]
    exact (expr_follows hinner hat ho p q hpq).bind fun o o' _ _ hpq ho => .ret hpq (.unary ho)
  | _, _, .var hi hes, p, q, hpq => by
    simp only [expr]
    refine .get_bind ?_
    rw [hpq.isPropertyRef_matches hi, hpq.namesFunction_matches hi, hes.isEmpty]
    split
    · refine .lift_bind fun c hc => ?_
      obtain ⟨c', hc', hsite⟩ :=
        getterSite_follows hpq hi (arguments_follow hinner hat hes) _ hc
      exact ⟨c', hc', callExpr_follows hinner hat hsite hpq⟩
    · split
      · exact callExpr_follows hinner hat ⟨hi, rfl, rfl, .nil⟩ hpq
      · exact (exprs_follow hinner hat hes p q hpq).bind fun es es' _ _ hpq hes =>
          .ret hpq (.var hi hes)
  | _, _, .call hname hargs, p, q, hpq => by
    simp only [expr]
    exact callExpr_follows hinner hat ⟨hname, rfl, rfl, arguments_follow hinner hat hargs⟩ hpq
  | _, _, .int, p, q, hpq => .ret hpq .int
  | _, _, .real, p, q, hpq => .ret hpq .real
  | _, _, .str, p, q, hpq => .ret hpq .str
  | _, _, .bool, p, q, hpq => .ret hpq .bool
  | _, _, .raw, p, q, hpq => .ret hpq .raw

theorem exprs_follow (hinner : Answers env inner inner') (hat : Nearer env at₁ at₂) :
    ∀ {es es' : List Expr}, ExprsMatch es es' → ∀ p q, Akin env p q →
      Follows env p q (exprs env inner at₁ es) (exprs env inner' at₂ es') ExprsMatch
  | _, _, .nil, p, q, hpq => .ret hpq .nil
  | _, _, .cons he hes, p, q, hpq => by
    simp only [exprs]
    refine (expr_follows hinner hat he p q hpq).bind fun e e' p₁ q₁ hpq he => ?_
    exact (exprs_follow hinner hat hes p₁ q₁ hpq).bind fun es es' _ _ hpq hes =>
      .ret hpq (.cons he hes)

theorem arguments_follow (hinner : Answers env inner inner') (hat : Nearer env at₁ at₂) :
    ∀ {es es' : List Expr}, ExprsMatch es es' →
      List.Forall₂ (ArgFollows env) (arguments env inner at₁ es) (arguments env inner' at₂ es')
  | _, _, .nil => by
    simp only [arguments]
    exact .nil
  | _, _, .cons he hes => by
    simp only [arguments]
    exact .cons ⟨he, expr_follows hinner hat he, targetOf?_follows hinner hat he⟩
      (arguments_follow hinner hat hes)

theorem targetOf?_follows (hinner : Answers env inner inner') (hat : Nearer env at₁ at₂) :
    ∀ {e e' : Expr}, e.Matches e' → Option.Rel
      (fun x x' => ∀ p q, Akin env p q → Follows env p q x x' VarRef.Matches)
      (targetOf? env inner at₁ e) (targetOf? env inner' at₂ e')
  | _, _, .var hi hes => by
    simp only [targetOf?]
    refine .some fun p q hpq => ?_
    exact (exprs_follow hinner hat hes p q hpq).bind fun es es' _ _ hpq hes => .ret hpq ⟨hi, hes⟩
  | _, _, .binary _ _ => .none
  | _, _, .unary _ => .none
  | _, _, .call _ _ => .none
  | _, _, .int => .none
  | _, _, .real => .none
  | _, _, .str => .none
  | _, _, .bool => .none
  | _, _, .raw => .none

end

/-! ### Assignments and declarations -/

theorem varRef_follows (hinner : Answers env inner inner') (hat : Nearer env at₁ at₂)
    {v v' : VarRef} (hv : v.Matches v') (hpq : Akin env p q) :
    Follows env p q (varRef env inner at₁ v) (varRef env inner' at₂ v') VarRef.Matches := by
  unfold varRef
  exact (exprs_follow hinner hat hv.subscripts p q hpq).bind fun es es' _ _ hpq hes =>
    .ret hpq ⟨hv.ident, hes⟩

/-- The call that a right side is. -/
theorem siteOfValue?_follows (hinner : Answers env inner inner') (hat : Nearer env at₁ at₂)
    (hpq : Akin env p q) {value value' : Expr} (hv : value.Matches value') {o : Option CallSite}
    (h : siteOfValue? env inner at₁ p value = .ok o) :
    ∃ o', siteOfValue? env inner' at₂ q value' = .ok o' ∧
      Option.Rel (SiteFollows env) o o' := by
  cases hv with
  | call hname hargs =>
    cases h
    exact ⟨_, rfl, .some ⟨hname, rfl, rfl, arguments_follow hinner hat hargs⟩⟩
  | var hi hes =>
    simp only [siteOfValue?] at h ⊢
    rw [hpq.isPropertyRef_matches hi, hpq.namesFunction_matches hi, hes.isEmpty]
    split at h
    · next hprop =>
      obtain ⟨c, hc, h⟩ := Except.bind_eq_ok.mp h
      cases h
      obtain ⟨c', hc', hsite⟩ :=
        getterSite_follows hpq hi (arguments_follow hinner hat hes) _ hc
      refine ⟨some c', ?_, .some hsite⟩
      rw [if_pos hprop, hc']
      rfl
    · next hprop =>
      rw [if_neg hprop]
      split at h
      · next hname =>
        cases h
        exact ⟨_, if_pos hname, .some ⟨hi, rfl, rfl, .nil⟩⟩
      · next hname =>
        cases h
        exact ⟨_, if_neg hname, .none⟩
  | _ =>
    cases h
    exact ⟨_, rfl, .none⟩

/-- What a target is assigned, once the target has been expanded. -/
def assigned (env : Env) (inner : Expander) (at' : Place) (p : Program) (value : Expr) (span : Span)
    (site : Option CallSite) (target : VarRef) : Compile (List Stmt) :=
  match site with
  | some site =>
    if reachesBuiltin env p site then do
      return [at'.stmt (.assign target (← callExpr env inner at' site)) span]
    else callStmts env inner at' site (some target)
  | none => do return [at'.stmt (.assign target (← expr env inner at' value)) span]

/-- An assignment to something else than a property. -/
theorem assignment_eq (env : Env) (inner : Expander) (at' : Place) {target : VarRef} (value : Expr)
    (span : Span) (h : isPropertyRef p target.ident = false) :
    (assignment env inner at' target value span).run p = (do
      let site ← (liftM (siteOfValue? env inner at' p value) : Compile (Option CallSite))
      let target ← varRef env inner at' target
      assigned env inner at' p value span site target).run p := by
  unfold assignment
  simp only [StateT.run_bind, StateT.run_get, pure_bind, h, Bool.false_eq_true, if_false]
  refine bind_congr fun r => ?_
  obtain ⟨o, q⟩ := r
  cases o with
  | none => rfl
  | some site =>
    dsimp only [assigned]
    split <;> rfl

theorem assigned_follows (hinner : Answers env inner inner') (hat : Nearer env at₁ at₂)
    {p₀ q₀ : Program} (hpq₀ : Akin env p₀ q₀) (hpq : Akin env p q) {value value' : Expr}
    (hv : value.Matches value') (span span' : Span) {o o' : Option CallSite}
    (ho : Option.Rel (SiteFollows env) o o') {target target' : VarRef}
    (ht : target.Matches target') :
    Follows env p q (assigned env inner at₁ p₀ value span o target)
      (assigned env inner' at₂ q₀ value' span' o' target') StmtsMatch := by
  cases ho with
  | none =>
    exact (expr_follows hinner hat hv p q hpq).bind fun e e' _ _ hpq he =>
      .ret hpq (.single (.assign ht he))
  | some hsite =>
    simp only [assigned]
    rw [reachesBuiltin_akin hsite.name.name hsite.usingCall hpq₀]
    split
    · exact (callExpr_follows hinner hat hsite hpq).bind fun e e' _ _ hpq he =>
        .ret hpq (.single (.assign ht he))
    · exact callStmts_follows hinner hat hsite (.some ht) hpq

theorem assignment_follows (hinner : Answers env inner inner') (hat : Nearer env at₁ at₂)
    {target target' : VarRef} (ht : target.Matches target') {value value' : Expr}
    (hv : value.Matches value') (span span' : Span) (hpq : Akin env p q) :
    Follows env p q (assignment env inner at₁ target value span)
      (assignment env inner' at₂ target' value' span') StmtsMatch := by
  have hprop := hpq.isPropertyRef_matches ht.ident
  cases hp : isPropertyRef p target.ident with
  | true =>
    unfold assignment
    refine .get_bind ?_
    rw [hprop, hp, if_pos rfl, if_pos rfl]
    refine .lift_bind fun c hc => ?_
    obtain ⟨c', hc', hsite⟩ := setterSite_follows hpq ht
      (arguments_follow hinner hat (ht.subscripts.append (.cons hv .nil))) _ hc
    exact ⟨c', hc', callStmts_follows hinner hat hsite .none hpq⟩
  | false =>
    intro ss p' hrun
    rw [assignment_eq env inner at₁ value span hp] at hrun
    rw [assignment_eq env inner' at₂ value' span' (hprop.trans hp)]
    refine Mirror.Echoes.lift_bind (fun o ho => ?_) ss p' hrun
    obtain ⟨o', ho', hrel⟩ := siteOfValue?_follows hinner hat hpq hv ho
    refine ⟨o', ho', ?_⟩
    exact (varRef_follows hinner hat ht hpq).bind fun v v' _ _ hpq' hv' =>
      assigned_follows hinner hat hpq hpq' hv span span' hrel hv'

/-- A value that may be missing. -/
theorem option_follows {α γ : Type} {S : α → α → Prop} {R : γ → γ → Prop} {f g : α → Compile γ}
    (hpq : Akin env p q) {o o' : Option α} (ho : Option.Rel S o o')
    (h : ∀ a a', S a a' → Follows env p q (f a) (g a') R) :
    Follows env p q (o.mapM f) (o'.mapM g) (Option.Rel R) := by
  cases ho with
  | none => exact .ret hpq .none
  | some ha =>
    simp only [Option.mapM_some, map_eq_pure_bind]
    exact (h _ _ ha).bind fun b b' _ _ hpq hb => .ret hpq (.some hb)

theorem option_expr_follows (hinner : Answers env inner inner') (hat : Nearer env at₁ at₂)
    {o o' : Option Expr} (ho : Option.Rel Expr.Matches o o') (hpq : Akin env p q) :
    Follows env p q (o.mapM (expr env inner at₁)) (o'.mapM (expr env inner' at₂))
      (Option.Rel Expr.Matches) :=
  option_follows hpq ho fun _ _ he => expr_follows hinner hat he p q hpq

theorem initializer_follows (hinner : Answers env inner inner') (hat : Nearer env at₁ at₂)
    {i i' : Initializer} (hi : i.Matches i') (hpq : Akin env p q) :
    Follows env p q (initializer env inner at₁ i) (initializer env inner' at₂ i')
      Initializer.Matches := by
  cases hi with
  | single he =>
    exact (expr_follows hinner hat he p q hpq).bind fun e e' _ _ hpq he => .ret hpq (.single he)
  | list hes =>
    exact (exprs_follow hinner hat hes p q hpq).bind fun es es' _ _ hpq hes =>
      .ret hpq (.list hes)

theorem declaration_follows (hinner : Answers env inner inner') (hat : Nearer env at₁ at₂)
    {d d' : Declaration} (hd : d.Matches d') (hpq : Akin env p q) :
    Follows env p q (declaration env inner at₁ d) (declaration env inner' at₂ d')
      Declaration.Matches := by
  unfold declaration
  refine (option_expr_follows hinner hat hd.size hpq).bind fun size size' p₁ q₁ hpq hsize => ?_
  refine (exprs_follow hinner hat hd.params p₁ q₁ hpq).bind
    fun params params' p₂ q₂ hpq hparams => ?_
  refine (option_follows hpq hd.init fun i i' hi => initializer_follows hinner hat hi hpq).bind
    fun init init' _ _ hpq hinit => .ret hpq ?_
  exact ⟨hd.name, hd.modifiers, hsize, hparams, hinit⟩

/-! ### Statements -/

mutual

/-- A statement, expanded, follows one that is the same apart from places. -/
theorem stmt_follows (hinner : Answers env inner inner') {at₁ at₂ : Place}
    (hat : Nearer env at₁ at₂) :
    ∀ {s s' : Stmt}, s.Matches s' → ∀ p q, Akin env p q →
      Follows env p q (stmt env inner at₁ s) (stmt env inner' at₂ s') StmtsMatch
  | _, _, .call hc, p, q, hpq => by
    simp only [stmt]
    have hat' := hat.within
    refine callStmts_follows hinner (hat' _ _) ?_ .none hpq
    exact ⟨hc.name, hc.isProcedure, hc.usingCall, arguments_follow hinner (hat' _ _) hc.args⟩
  | _, _, .assign ht hv, p, q, hpq => by
    simp only [stmt]
    exact assignment_follows hinner (hat.within _ _) ht hv _ _ hpq
  | _, _, .declare hd, p, q, hpq => by
    simp only [stmt]
    exact (declaration_follows hinner (hat.within _ _) hd hpq).bind fun d d' _ _ hpq hd =>
      .ret hpq (.single (.declare hd))
  | _, _, .whileLoop hc hb, p, q, hpq => by
    simp only [stmt]
    have hat' := hat.within
    refine (expr_follows hinner (hat' _ _) hc p q hpq).bind fun c c' p₁ q₁ hpq hc => ?_
    exact (stmts_follow hinner (hat' _ _) hb p₁ q₁ hpq).bind fun b b' _ _ hpq hb =>
      .ret hpq (.single (.whileLoop hc hb))
  | _, _, .forLoop hv ha hz ho hb, p, q, hpq => by
    simp only [stmt]
    have hat' := hat.within
    refine (varRef_follows hinner (hat' _ _) hv hpq).bind fun v v' p₁ q₁ hpq hv => ?_
    refine (expr_follows hinner (hat' _ _) ha p₁ q₁ hpq).bind fun a a' p₂ q₂ hpq ha => ?_
    refine (expr_follows hinner (hat' _ _) hz p₂ q₂ hpq).bind fun z z' p₃ q₃ hpq hz => ?_
    refine (option_expr_follows hinner (hat' _ _) ho hpq).bind fun o o' p₄ q₄ hpq ho => ?_
    exact (stmts_follow hinner (hat' _ _) hb p₄ q₄ hpq).bind fun b b' _ _ hpq hb =>
      .ret hpq (.single (.forLoop hv ha hz ho hb))
  | _, _, .family hb, p, q, hpq => by
    simp only [stmt]
    exact (stmts_follow hinner (hat.within _ _) hb p q hpq).bind fun b b' _ _ hpq hb =>
      .ret hpq (.single (.family hb))
  | _, _, .ifChain hbs ho, p, q, hpq => by
    simp only [stmt]
    have hat' := hat.within
    refine (branches_follow hinner (hat' _ _) hbs p q hpq).bind fun bs bs' p₁ q₁ hpq hbs => ?_
    exact (stmts_follow hinner (hat' _ _) ho p₁ q₁ hpq).bind fun o o' _ _ hpq ho =>
      .ret hpq (.single (.ifChain hbs ho))
  | _, _, .select hs hcs, p, q, hpq => by
    simp only [stmt]
    have hat' := hat.within
    refine (expr_follows hinner (hat' _ _) hs p q hpq).bind fun e e' p₁ q₁ hpq he => ?_
    exact (cases_follow hinner (hat' _ _) hcs p₁ q₁ hpq).bind fun cs cs' _ _ hpq hcs =>
      .ret hpq (.single (.select he hcs))
  | _, _, .property hfs, p, q, hpq => by
    simp only [stmt]
    exact (functions_follow hinner (hat.within _ _) hfs p q hpq).bind fun fs fs' _ _ hpq hfs =>
      .ret hpq (.single (.property hfs))
  | _, _, .synonym ht, p, q, hpq => by
    simp only [stmt]
    exact (varRef_follows hinner (hat.within _ _) ht hpq).bind fun v v' _ _ hpq hv =>
      .ret hpq (.single (.synonym hv))

/-- **Statements, expanded, follow** those that are the same apart from places. -/
theorem stmts_follow (hinner : Answers env inner inner') {at₁ at₂ : Place}
    (hat : Nearer env at₁ at₂) :
    ∀ {ss ss' : List Stmt}, StmtsMatch ss ss' → ∀ p q, Akin env p q →
      Follows env p q (stmts env inner at₁ ss) (stmts env inner' at₂ ss') StmtsMatch
  | _, _, .nil, p, q, hpq => .ret hpq .nil
  | _, _, .cons hs hss, p, q, hpq => by
    simp only [stmts]
    refine (stmt_follows hinner hat hs p q hpq).bind fun first first' p₁ q₁ hpq hfirst => ?_
    exact (stmts_follow hinner hat hss p₁ q₁ hpq).bind fun rest rest' _ _ hpq hrest =>
      .ret hpq (hfirst.append hrest)

theorem branches_follow (hinner : Answers env inner inner') {at₁ at₂ : Place}
    (hat : Nearer env at₁ at₂) :
    ∀ {bs bs' : List Branch}, BranchesMatch bs bs' → ∀ p q, Akin env p q →
      Follows env p q (branches env inner at₁ bs) (branches env inner' at₂ bs') BranchesMatch
  | _, _, .nil, p, q, hpq => .ret hpq .nil
  | _, _, .cons hc hb hbs, p, q, hpq => by
    simp only [branches]
    refine (expr_follows hinner hat hc p q hpq).bind fun c c' p₁ q₁ hpq hc => ?_
    refine (stmts_follow hinner hat hb p₁ q₁ hpq).bind fun b b' p₂ q₂ hpq hb => ?_
    exact (branches_follow hinner hat hbs p₂ q₂ hpq).bind fun bs bs' _ _ hpq hbs =>
      .ret hpq (.cons hc hb hbs)

theorem cases_follow (hinner : Answers env inner inner') {at₁ at₂ : Place}
    (hat : Nearer env at₁ at₂) :
    ∀ {cs cs' : List Case}, CasesMatch cs cs' → ∀ p q, Akin env p q →
      Follows env p q (cases env inner at₁ cs) (cases env inner' at₂ cs') CasesMatch
  | _, _, .nil, p, q, hpq => .ret hpq .nil
  | _, _, .cons ha ho hb hcs, p, q, hpq => by
    simp only [cases]
    refine (expr_follows hinner hat ha p q hpq).bind fun a a' p₁ q₁ hpq ha => ?_
    refine (option_expr_follows hinner hat ho hpq).bind fun o o' p₂ q₂ hpq ho => ?_
    refine (stmts_follow hinner hat hb p₂ q₂ hpq).bind fun b b' p₃ q₃ hpq hb => ?_
    exact (cases_follow hinner hat hcs p₃ q₃ hpq).bind fun cs cs' _ _ hpq hcs =>
      .ret hpq (.cons ha ho hb hcs)

theorem functions_follow (hinner : Answers env inner inner') {at₁ at₂ : Place}
    (hat : Nearer env at₁ at₂) :
    ∀ {fs fs' : List FunctionDef}, FunctionsMatch fs fs' → ∀ p q, Akin env p q →
      Follows env p q (functions env inner at₁ fs) (functions env inner' at₂ fs') FunctionsMatch
  | _, _, .nil, p, q, hpq => .ret hpq .nil
  | _, _, .cons hb hfs, p, q, hpq => by
    simp only [functions]
    refine (stmts_follow hinner hat hb p q hpq).bind fun b b' p₁ q₁ hpq hb => ?_
    exact (functions_follow hinner hat hfs p₁ q₁ hpq).bind fun fs fs' _ _ hpq hfs =>
      .ret hpq (.cons hb hfs)

end

/-! ### Levels -/

/-- How the copies are expanded that nest one deeper. -/
def below (env : Env) : Nat → Expander
  | 0 => fun _ _ => throw (.internal "functions nested too deeply")
  | n + 1 => expandAt env n

theorem expandAt_eq (env : Env) : ∀ n : Nat, expandAt env n = stmts env (below env n)
  | 0 => rfl
  | _ + 1 => rfl

/-- **Copies may nest deeper** in the second expansion. -/
theorem below_follows (env : Env) {n m : Nat} (h : n ≤ m) :
    Answers env (below env n) (below env m) := by
  induction n generalizing m with
  | zero => exact fun _ _ _ _ _ _ _ _ _ => .fail
  | succ n ih =>
    cases m with
    | zero => exact absurd h (Nat.not_succ_le_zero n)
    | succ m =>
      intro at₁ at₂ body body' p q hat hbody hpq
      rw [below, below, expandAt_eq, expandAt_eq]
      exact stmts_follow (ih (Nat.le_of_succ_le_succ h)) hat hbody p q hpq

end FlatScript.Inlining
