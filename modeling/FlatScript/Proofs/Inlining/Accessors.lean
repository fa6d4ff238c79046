import FlatScript.Proofs.Inlining.Synonyms

/-!
# Properties that stand for variables are expanded

A property that stands for a variable can be used wherever the variable can. The assignment from or
to the variable is looked at where the function of the property would be copied: if it is expanded
there, so is the one from or to the property. The arguments are passed by name if they are references,
and expanded where the property is used if they are not.

* `FlatScript.Inlining.Succeeds` says that a step has a result, and `FlatScript.Inlining.Yields` what
  else is known of it.
* `FlatScript.Inlining.callStmts_succeeds` is about calls of functions without declarations.
* `FlatScript.Inlining.reads_of_assignment` and `FlatScript.Inlining.writes_of_assignment` are about
  the two uses of a property.
-/

namespace FlatScript.Inlining

variable {env : Env} {p q p' : Program} {at' : Place} {n k : Nat}

/-! ### Steps with results -/

/-- **A step that has a result with a property** in every program like `p`, and leaves one like it. -/
def Yields (env : Env) (p : Program) {α : Type} (x : Compile α) (P : α → Prop) : Prop :=
  ∀ q, Akin env p q → ∃ a q', x.run q = .ok (a, q') ∧ Akin env p q' ∧ P a

/-- **A step that has a result** in every program like `p`. -/
def Succeeds (env : Env) (p : Program) {α : Type} (x : Compile α) : Prop :=
  ∀ q, Akin env p q → ∃ a q', x.run q = .ok (a, q')

namespace Yields

variable {α β : Type} {x : Compile α} {f : α → Compile β} {P : α → Prop} {Q : β → Prop} {a : α}

theorem ret (h : P a) : Yields env p (pure a) P := fun q hq => ⟨a, q, rfl, hq, h⟩

theorem bind (hx : Yields env p x P) (hf : ∀ a, P a → Yields env p (f a) Q) :
    Yields env p (x >>= f) Q := by
  intro q hq
  obtain ⟨a, q₁, hrunx, hq₁, ha⟩ := hx q hq
  obtain ⟨b, q₂, hrunf, hq₂, hb⟩ := hf a ha q₁ hq₁
  exact ⟨b, q₂, StateT.bind_eq_ok.mpr ⟨a, q₁, hrunx, hrunf⟩, hq₂, hb⟩

theorem of_stays (h : Stays env p x a) (ha : P a) : Yields env p x P := by
  intro q hq
  obtain ⟨q', hrun, hq'⟩ := h q hq
  exact ⟨a, q', hrun, hq', ha⟩

theorem succeeds (hx : Yields env p x P) : Succeeds env p x := by
  intro q hq
  obtain ⟨a, q', hrun, -⟩ := hx q hq
  exact ⟨a, q', hrun⟩

end Yields

/-- A step that has a result, and another one after it that always has. -/
theorem Succeeds.bind {α β : Type} {x : Compile α} {f : α → Compile β} (hx : Succeeds env p x)
    (hf : ∀ a q, ∃ b q', (f a).run q = .ok (b, q')) : Succeeds env p (x >>= f) := by
  intro q hq
  obtain ⟨a, q₁, hrunx⟩ := hx q hq
  obtain ⟨b, q₂, hrunf⟩ := hf a q₁
  exact ⟨b, q₂, StateT.bind_eq_ok.mpr ⟨a, q₁, hrunx, hrunf⟩⟩

/-- **A function can be called** where it is not being copied, with as many arguments as parameters,
and where a value is wanted only if it has a result. -/
theorem enterCall_of_function? {c : CallSite} {e : FunctionEntry} {use : Use}
    (he : q.function? c.name.name = some e) (htask : e.fn.isTaskfunc = false)
    (hcall : c.usingCall = false) (hstack : c.name.name ∉ at'.stack)
    (harity : c.args.length = e.fn.params.length)
    (hresult : use.isStatement = false → e.fn.result.isSome = true) :
    (enterCall env at' c use).run q =
      .ok (e, entered q at'.top c.name.name c.usingCall) := by
  have hvalue : (!use.isStatement && e.fn.result.isNone) = false := by
    cases hstmt : use.isStatement with
    | true => rfl
    | false => simpa using hresult hstmt
  have hfault : callFault? at' e.fn c use = none := by
    simp only [callFault?, List.contains_iff_mem, hstack, harity, hvalue, htask, hcall, ne_eq,
      not_true_eq_false, Bool.false_and, Bool.or_self, Bool.and_false, Bool.false_eq_true, if_false]
  rw [enterCall_run, he]
  dsimp only
  rw [hfault]

/-- **A call of a function without declarations has a result** if the copy of its body has one. -/
theorem callStmts_succeeds (hp : Orderly p) {c : CallSite} {result : Option VarRef} {f : FunctionDef}
    (hdef : p.Defines c.name.name f) (htask : f.isTaskfunc = false)
    (huser : reachesBuiltin env p c = false) (hcall : c.usingCall = false)
    (hstack : c.name.name ∉ at'.stack) (harity : c.args.length = f.params.length)
    (hresult : result.isSome = true → f.result.isSome = true) {P : Substitution → Prop}
    (hargs : Yields env p (argumentSubstitution (f.params.zip c.args)) P)
    (hbody : ∀ ρ, P ρ → ∃ body, Substitution.stmts env (resultsOf f result ++ ρ)
        (stmtsCopiedTo c.span f.body) = .ok body ∧
      Succeeds env p (expandAt env k { at' with stack := at'.stack ++ [c.name.name] } body)) :
    Succeeds env p (callStmts env (below env (k + 1)) at' c result) := by
  intro q hq
  obtain ⟨e, he, rfl, hglobals, hlocals⟩ := hq.defines hdef
  have hname : e.name = c.name.name := (Program.mem_functions_of_function? he).2
  -- The call is entered, and the declarations are taken, of which there are none.
  have hq₁ := hq.entered at'.top c.name.name c.usingCall
  obtain ⟨q₂, htake, hq₂⟩ := takeDeclarations_run at' hp hq₁ (hname ▸ hdef) hglobals hlocals
  have hnone : (below env (k + 1) at' []).run q₂ = .ok ([], q₂) := by
    rw [below, expandAt_eq, stmts]
    rfl
  -- Then the copy is made and expanded.
  obtain ⟨ρ, q₃, hρ, hq₃, hP⟩ := hargs q₂ hq₂
  obtain ⟨body, hcopy, hbody⟩ := hbody ρ hP
  obtain ⟨ss, q₄, hrun⟩ := hbody q₃ hq₃
  have hinline : (inlineBody env (below env (k + 1)) at' e c result).run
      (entered q at'.top c.name.name c.usingCall) = .ok ([] ++ ss, q₄) := by
    rw [inlineBody_eq]
    refine StateT.bind_eq_ok.mpr ⟨[], q₂, htake, StateT.bind_eq_ok.mpr ⟨[], q₂, hnone, ?_⟩⟩
    refine StateT.bind_eq_ok.mpr ⟨ρ, q₃, hρ, StateT.bind_eq_ok.mpr ⟨ss, q₄, ?_, rfl⟩⟩
    exact StateT.bind_eq_ok.mpr ⟨body, q₃, StateT.lift_eq_ok.mpr ⟨hcopy, rfl⟩, hname ▸ hrun⟩
  refine ⟨[] ++ ss, q₄, ?_⟩
  rw [callStmts_eq]
  simp only [StateT.run_bind, StateT.run_get, pure_bind]
  rw [reachesBuiltin_akin rfl rfl hq, huser, if_neg Bool.false_ne_true]
  refine StateT.bind_eq_ok.mpr
    ⟨e, _, enterCall_of_function? he htask hcall hstack harity fun huse => ?_, ?_⟩
  · cases result with
    | none => cases huse
    | some x => exact hresult rfl
  · rw [htask, hcall, if_neg Bool.false_ne_true, if_neg Bool.false_ne_true]
    exact hcall ▸ hinline

/-! ### Arguments -/

/-- **An argument that can be passed**: a reference, or something that is expanded where it stands. -/
def Passable (env : Env) (p : Program) (n : Nat) (at' : Place) (e : Expr) : Prop :=
  e.asVar? = none → ∃ v q, (expr env (below env n) at' e).run p = .ok (v, q)

theorem Passable.yields (hp : Orderly p) {e : Expr} (h : Passable env p n at' e) :
    Yields env p (passed (argument env (below env n) at' e)) (PassedAs env p n at' e) := by
  have hvalue : e.asVar? = none →
      Yields env p (expr env (below env n) at' e) (PassedAs env p n at' e) := by
    intro hnone q hq
    obtain ⟨v, p', hrun⟩ := h hnone
    obtain ⟨v', q', hrun', hsame, -⟩ := (expr_follows (below_follows env (Nat.le_refl n))
      (.refl env at') (.refl e) p q hq).run hrun
    exact ⟨v', q', hrun', (expr_akin hp hrun).trans hsame, .inr ⟨hnone, q, q', hq, hrun'⟩⟩
  cases e with
  | var i es span => exact .ret (.inl ⟨rfl, rfl⟩)
  | _ => exact hvalue rfl

/-- What the parameters of a function are replaced by. -/
theorem argumentSubstitution_yields (hp : Orderly p) : ∀ (params : List Param) (es : List Expr),
    (∀ e ∈ es, Passable env p n at' e) →
    Yields env p (argumentSubstitution (params.zip (arguments env (below env n) at' es))) fun ρ =>
      List.Forall₂ (fun b b' => b'.1 = Name.firstPart b.1.name.name ∧ PassedAs env p n at' b.2 b'.2)
        (params.zip es) ρ.reverse
  | [], es, _ => .ret .nil
  | param :: params, [], _ => by
    simp only [arguments, List.zip_nil_right]
    exact .ret .nil
  | param :: params, e :: es, h => by
    rw [arguments_cons, List.zip_cons_cons, argumentSubstitution_cons]
    refine ((h e (by simp)).yields hp).bind fun v hv => ?_
    refine (argumentSubstitution_yields hp params es fun e he => h e (by simp [he])).bind
      fun ρ hρ => ?_
    refine .ret ?_
    rw [List.reverse_append, List.zip_cons_cons]
    exact .cons ⟨rfl, hv⟩ hρ

/-! ### Assignments -/

/-- **A plain assignment has a result** if its sides have. -/
theorem assignment_succeeds {inner : Expander} {x : VarRef} (hx : isPropertyRef p x.ident = false)
    {P : List Expr → Prop} (hsubscripts : Yields env p (exprs env inner at' x.subscripts) P) {e : Expr}
    (he : (settled env p).expr e) (hvalue : Succeeds env p (expr env inner at' e)) (span : Span) :
    Succeeds env p (assignment env inner at' x e span) := by
  intro q hq
  obtain ⟨o, hsite, hassigned⟩ := assigned_of_settled at' he hq inner span
  obtain ⟨xs, q₁, hrun₁, hq₁, -⟩ := hsubscripts q hq
  obtain ⟨v, q₂, hrun₂⟩ := hvalue q₁ hq₁
  refine ⟨[at'.stmt (.assign ⟨x.ident, xs, x.span⟩ v) span], q₂,
    (assignment_eq_ok ((hq.isPropertyRef x.ident).trans hx)).mpr ⟨o, xs, q₁, hsite, hrun₁, ?_⟩⟩
  rw [hassigned]
  exact StateT.bind_eq_ok.mpr ⟨v, q₂, hrun₂, rfl⟩

variable {loose : List String} {handles : List (Spelling × Ident)} {target x : VarRef}
  {indices : List Ident} {i : Ident} {es : List Expr} {σ : Filler}

/-- **What the compiler puts into the place of the subscripts is expanded** where the subscripts
with the arguments in them are. -/
theorem subscripts_yield (hp : Orderly p)
    (h : NamesApart env p (indices.map Ident.spelling) loose handles target)
    (hsuits : Suits env p (k + 1) at' (indices.map Ident.spelling) loose handles es)
    (hσ : Passes env p (k + 1) at' (indices.map Ident.spelling) es σ) {rs : List Expr}
    (hmatch : ExprsMatch rs (exprsFill σ target.subscripts)) {at₁ at₂ : Place}
    (hat : Nearer env at₁ at₂) (hat' : Nearer env at₁ at') (hq : Akin env p q) {rs' : List Expr}
    (hrun : (exprs env (below env k) at₁
      (exprsFill ((indices.map Ident.spelling).zip es) target.subscripts)).run q = .ok (rs', p')) :
    Yields env p (exprs env (below env k) at₂ rs) (ExprsMatch rs') := by
  intro r hr
  have hfilling := hσ.unfilling hsuits h hp (Nat.le_succ k) hat hat'
  obtain ⟨-, rs₁, r₁, hrun₁, -, hmatch₁⟩ := hfilling.exprs _ h.subscripts q r hq hr rs' p' hrun
  obtain ⟨rs₂, r₂, hrun₂, -, hmatch₂⟩ := (exprs_follow (below_follows env (Nat.le_refl k))
    (.refl env at₂) hmatch.symm r r (.refl env r)).run hrun₁
  exact ⟨rs₂, r₂, hrun₂, hr.trans (exprs_akin (hp.akin hr) hrun₂), hmatch₁.trans hmatch₂⟩

/-! ### Reading -/

/-- **The function that reads the property can be copied**, if the subscripts of the variable are
expanded in the copy. -/
theorem callStmts_reads_succeeds (hp : Orderly p) {property : String}
    (hstands : p.StandsFor property indices target)
    (h : NamesApart env p (indices.map Ident.spelling) loose handles target)
    (hsuits : Suits env p (k + 1) at' (indices.map Ident.spelling) loose handles es)
    (hes : ∀ e ∈ es, Passable env p (k + 1) at' e) {c : CallSite}
    (hname : c.name.name = property ++ ".get") (hcall : c.usingCall = false)
    (huser : reachesBuiltin env p c = false) (hargs : c.args = arguments env (below env (k + 1)) at' es)
    (hstack : property ++ ".get" ∉ at'.stack) (hx : isPropertyRef p x.ident = false)
    (hsettled : exprsMeet (settled env p) x.subscripts)
    (hcopy : ∀ σ rs, Passes env p (k + 1) at' (indices.map Ident.spelling) es σ →
      ExprsMatch rs (exprsFill σ target.subscripts) → Succeeds env p (exprs env (below env k)
        { at' with stack := at'.stack ++ [property ++ ".get"], trace := [c.span] } rs)) :
    Succeeds env p (callStmts env (below env (k + 1)) at' c (some x)) := by
  obtain ⟨span, hdef⟩ := hstands.getter
  rw [← hname] at hdef hstack hcopy
  refine callStmts_succeeds hp hdef rfl huser hcall hstack ?_ (fun _ => rfl)
    (hargs ▸ argumentSubstitution_yields hp _ es hes) fun ρ hρ => ?_
  · rw [hargs, arguments_length, hsuits.length]
    simp [synonymReader, Lowering.synonymGetter]
  obtain ⟨σ, hσ, hpasses⟩ := exists_passes h.undotted_indices hρ
  obtain ⟨hfills, hfind⟩ := h.fills_result hpasses hsuits hσ x
  obtain ⟨x', rs, hbody, hident, hsubscripts, hmatch⟩ := hfills.read_body hfind h c.span span span
  rw [resultsOf_synonymReader, List.singleton_append]
  refine ⟨_, hbody, ?_⟩
  -- What is copied is an assignment from the variable, which is plain.
  rw [expandAt_assign]
  have hx' : isPropertyRef p x'.ident = false :=
    ((Akin.refl env p).isPropertyRef_matches hident).symm.trans hx
  have hstays : Yields env p (exprs env (below env k)
      { at' with stack := at'.stack ++ [c.name.name], trace := [c.span] } x'.subscripts)
      fun _ => True := .of_stays (exprs_stay x'.subscripts (hsubscripts ▸ hsettled)) trivial
  have hnone : target.ident.sigil.isNone = false := by simpa using h.sigil
  have hvalue : (settled env p).expr (.var target.ident rs target.span) :=
    ⟨isPropertyRef_of_sigil h.sigil, fun _ => by rw [namesFunction, hnone, Bool.false_and]⟩
  refine assignment_succeeds hx' hstays hvalue ?_ span
  rw [expr_of_sigil _ h.sigil]
  exact (hcopy σ rs hpasses hmatch).bind fun _ q => ⟨_, q, rfl⟩

/-- **Where the variable can be read, so can the property.** -/
theorem reads_of_assignment (hp : Orderly p) (hstands : p.StandsFor i.name indices target)
    (h : NamesApart env p (indices.map Ident.spelling) loose handles target)
    (hbuiltin : p.isBuiltinCall env.builtins (i.name ++ ".get") = false)
    (hi : isPropertyRef p i = true) (hx : isPropertyRef p x.ident = false)
    (hstack : i.name ++ ".get" ∉ at'.stack)
    (hes : ∀ e ∈ es, Passable env p (k + 1) at' e)
    (hsuits : Suits env p (k + 1) at' (indices.map Ident.spelling) loose handles es)
    {trace : List Span} {span span' : Span} {ss : List Stmt}
    (hrun : (assignment env (below env k)
      { at' with stack := at'.stack ++ [i.name ++ ".get"], trace } x
      (target.fill ((indices.map Ident.spelling).zip es)).toExpr span').run p = .ok (ss, p')) :
    ∃ ss' q', (assignment env (below env (k + 1)) at' x (.var i es span) span').run p =
      .ok (ss', q') := by
  have hnear := nearer_pushed env at' (i.name ++ ".get")
  -- The assignment from the variable has expanded the subscripts of both sides.
  obtain ⟨o, xs, p₁, hsite, hsubscripts, hassigned⟩ := (assignment_eq_ok hx).mp hrun
  have hp₁ := exprs_akin hp hsubscripts
  have hsigil : (target.fill ((indices.map Ident.spelling).zip es)).ident.sigil.isSome = true :=
    h.sigil
  rw [VarRef.toExpr, siteOfValue?_of_sigil _ hsigil] at hsite
  cases hsite
  simp only [assigned, VarRef.toExpr] at hassigned
  rw [expr_of_sigil _ hsigil] at hassigned
  obtain ⟨v, p₂, hvalue, -⟩ := StateT.bind_eq_ok.mp hassigned
  obtain ⟨rs', p₃, hfilled, -⟩ := StateT.bind_eq_ok.mp hvalue
  obtain ⟨xs', q₁, hxs, -, -⟩ := (exprs_follow (below_follows env (Nat.le_succ k)) (hnear trace)
    (.refl x.subscripts) p p (.refl env p)).run hsubscripts
  -- So the function of the property can be copied.
  obtain ⟨c, hc, hname, hargs, hcall⟩ := getterSite_of_standsFor env at' hstands
    (arguments env (below env (k + 1)) at' es) span
  have huser : reachesBuiltin env p c = false := by
    rw [reachesBuiltin, hname, hbuiltin, Bool.and_false]
  have hback : Nearer env { at' with stack := at'.stack ++ [i.name ++ ".get"], trace }
      { at' with stack := at'.stack ++ [i.name ++ ".get"], trace := [c.span] } :=
    ⟨rfl, fun _ h => h, trivial⟩
  have hcopied : Succeeds env p
      (callStmts env (below env (k + 1)) at' c (some ⟨x.ident, xs', x.span⟩)) :=
    callStmts_reads_succeeds hp hstands h hsuits hes hname hcall huser hargs hstack hx
      (exprs_settled hxs).2 fun σ rs hpasses hmatch =>
        (subscripts_yield hp h hsuits hpasses hmatch hback (hnear trace) hp₁ hfilled).succeeds
  obtain ⟨ss', q', hrun'⟩ := hcopied q₁ (exprs_akin hp hxs)
  refine ⟨ss', q', (assignment_eq_ok hx).mpr ⟨some c, xs', q₁, ?_, hxs, ?_⟩⟩
  · rw [siteOfValue?, if_pos hi, hc]
    rfl
  · simp only [assigned, huser, Bool.false_eq_true, if_false]
    exact hrun'

/-! ### Writing -/

/-- **The copy of the body that writes the property is expanded** where the assignment to the variable
is. -/
theorem written_succeeds (hp : Orderly p)
    (h : NamesApart env p (indices.map Ident.spelling) loose handles target)
    (hsuits : Suits env p (k + 1) at' (indices.map Ident.spelling) loose handles es)
    (hσ : Passes env p (k + 1) at' (indices.map Ident.spelling) es σ) {rs : List Expr}
    (hmatch : ExprsMatch rs (exprsFill σ target.subscripts)) {v v' v'' : Expr}
    (hpassed : PassedAs env p (k + 1) at' v v') (hmatchv : v''.Matches v') {at₁ at₂ : Place}
    (hat : Nearer env at₁ at₂) (hat' : Nearer env at₁ at') {span span' : Span} {ss : List Stmt}
    (hrun : (assignment env (below env k) at₁ (target.fill ((indices.map Ident.spelling).zip es)) v
      span).run p = .ok (ss, p')) :
    Succeeds env p
      (assignment env (below env k) at₂ ⟨target.ident, rs, target.span⟩ v'' span') := by
  have htarget : ∀ q xs span, isPropertyRef q (⟨target.ident, xs, span⟩ : VarRef).ident = false :=
    fun _ _ _ => isPropertyRef_of_sigil h.sigil
  obtain ⟨o, rs', p₁, hsite, hfilled, hassigned⟩ := (assignment_eq_ok (htarget p _ _)).mp hrun
  have hrs := subscripts_yield hp h hsuits hσ hmatch hat hat' (.refl env p) hfilled
  intro q hq
  rcases hpassed with ⟨-, rfl⟩ | ⟨hnone, p₂, p₃, hp₂, hvalue⟩
  · -- A reference is copied as it is written.
    obtain ⟨rs'', q₁, hrun₁, hq₁, hmatch'⟩ := hrs q hq
    obtain ⟨o', hsite', hrel⟩ := siteOfValue?_follows (below_follows env (Nat.le_refl k)) hat hq
      hmatchv.symm hsite
    have hmatchx : VarRef.Matches ⟨target.ident, rs', target.span⟩ ⟨target.ident, rs'', target.span⟩ :=
      ⟨.refl _, hmatch'⟩
    obtain ⟨ss', q₂, hrun₂, -⟩ := (assigned_follows (below_follows env (Nat.le_refl k)) hat hq
      ((exprs_akin hp hfilled).symm.trans hq₁) hmatchv.symm span span' hrel hmatchx).run hassigned
    exact ⟨ss', q₂, (assignment_eq_ok (htarget q _ _)).mpr ⟨o', rs'', q₁, hsite', hrun₁, hrun₂⟩⟩
  · -- Anything else has been expanded, and has nothing left to expand.
    have hsettled : v'.Meets (settled env p) := settled_akin hp₂ ▸ (expr_settled hvalue).2
    have hexpr : Yields env p (expr env (below env k) at₂ v') fun _ => True :=
      .of_stays (expr_stays v' hsettled) trivial
    have hplain : Succeeds env p
        (assignment env (below env k) at₂ ⟨target.ident, rs, target.span⟩ v' span') :=
      assignment_succeeds (htarget p _ _) hrs (head_of_settled hsettled) hexpr.succeeds span'
    obtain ⟨ss₁, q₁, hrun₁⟩ := hplain q hq
    obtain ⟨ss₂, q₂, hrun₂, -⟩ := (assignment_follows (below_follows env (Nat.le_refl k))
      (.refl env at₂) (.refl _) hmatchv.symm span' span' (.refl env q)).run hrun₁
    exact ⟨ss₂, q₂, hrun₂⟩

/-- **The function that writes the property can be copied**, if the assignment to the variable is
expanded in the copy. -/
theorem callStmts_writes_succeeds (hp : Orderly p) {property : String}
    (hstands : p.StandsFor property indices target)
    (h : NamesApart env p (indices.map Ident.spelling) loose handles target)
    (hsuits : Suits env p (k + 1) at' (indices.map Ident.spelling) loose handles es) {v : Expr}
    (hes : ∀ e ∈ es ++ [v], Passable env p (k + 1) at' e) {c : CallSite}
    (hname : c.name.name = property ++ ".set") (hcall : c.usingCall = false)
    (huser : reachesBuiltin env p c = false)
    (hargs : c.args = arguments env (below env (k + 1)) at' (es ++ [v]))
    (hstack : property ++ ".set" ∉ at'.stack)
    (hcopy : ∀ σ rs v' v'' span, Passes env p (k + 1) at' (indices.map Ident.spelling) es σ →
      ExprsMatch rs (exprsFill σ target.subscripts) → PassedAs env p (k + 1) at' v v' →
      v''.Matches v' → Succeeds env p (assignment env (below env k)
        { at' with stack := at'.stack ++ [property ++ ".set"], trace := [c.span] }
        ⟨target.ident, rs, target.span⟩ v'' span)) :
    Succeeds env p (callStmts env (below env (k + 1)) at' c none) := by
  obtain ⟨span, hdef⟩ := hstands.setter
  rw [← hname] at hdef hstack hcopy
  have hlen : es.length = indices.length := hsuits.length.trans (List.length_map _)
  refine callStmts_succeeds hp hdef rfl huser hcall hstack ?_ nofun
    (hargs ▸ argumentSubstitution_yields hp _ (es ++ [v]) hes) fun ρ hρ => ?_
  · rw [hargs, arguments_length, List.length_append, hlen]
    simp [synonymWriter, Lowering.synonymSetter]
  -- The last argument is the value, the others are those of the indices.
  simp only [synonymWriter, Lowering.synonymSetter] at hρ
  rw [List.zip_append (by rw [List.length_map, hlen])] at hρ
  obtain ⟨l, ⟨key, v'⟩, hl, hpasses, hkey, hpassed⟩ := exists_of_forall₂_concat hρ
  obtain rfl : key = "value_to_set" := hkey.trans firstPart_value
  obtain ⟨σ, rfl, hnames⟩ := exists_passes h.undotted_indices hpasses
  obtain ⟨hfills, hfind⟩ := h.fills_value hnames hsuits hl
  obtain ⟨v'', rs, hbody, hmatchv, hmatch⟩ := hfills.write_body hfind h c.span span span
  refine ⟨_, hbody, ?_⟩
  rw [expandAt_assign]
  exact hcopy σ rs v' v'' span hnames hmatch hpassed hmatchv

/-- **Where the variable can be written, so can the property**, if the value is not a call of a
function of the script. -/
theorem writes_of_assignment (hp : Orderly p) (hstands : p.StandsFor i.name indices target)
    (h : NamesApart env p (indices.map Ident.spelling) loose handles target)
    (hbuiltin : p.isBuiltinCall env.builtins (i.name ++ ".set") = false)
    (hi : isPropertyRef p i = true)
    (hstack : i.name ++ ".set" ∉ at'.stack) (hes : ∀ e ∈ es, Passable env p (k + 1) at' e)
    (hsuits : Suits env p (k + 1) at' (indices.map Ident.spelling) loose handles es) {v : Expr}
    (hv : v.asVar?.isSome = true ∨ (settled env p).expr v) {trace : List Span} {span span' : Span}
    {ss : List Stmt}
    (hrun : (assignment env (below env k) { at' with stack := at'.stack ++ [i.name ++ ".set"], trace }
      (target.fill ((indices.map Ident.spelling).zip es)) v span').run p = .ok (ss, p')) :
    ∃ ss' q', (assignment env (below env (k + 1)) at' ⟨i, es, span⟩ v span').run p =
      .ok (ss', q') := by
  have hnear := nearer_pushed env at' (i.name ++ ".set") trace
  have htarget : isPropertyRef p (target.fill ((indices.map Ident.spelling).zip es)).ident = false :=
    isPropertyRef_of_sigil h.sigil
  -- The value is expanded for the variable, so it can be passed.
  have hpassable : Passable env p (k + 1) at' v := by
    intro hnone
    obtain ⟨o, xs, p₁, hsite, hfilled, hassigned⟩ := (assignment_eq_ok htarget).mp hrun
    obtain ⟨o', hsite', heq⟩ := assigned_of_settled
      { at' with stack := at'.stack ++ [i.name ++ ".set"], trace } (hv.resolve_left (by simp [hnone]))
      (.refl env p) (below env k) span'
    cases hsite.symm.trans hsite'
    rw [heq] at hassigned
    obtain ⟨w, p₂, hvalue, -⟩ := StateT.bind_eq_ok.mp hassigned
    obtain ⟨w', q, hvalue', -⟩ := (expr_follows (below_follows env (Nat.le_succ k)) hnear (.refl v)
      p₁ p (exprs_akin hp hfilled).symm).run hvalue
    exact ⟨w', q, hvalue'⟩
  have hall : ∀ e ∈ es ++ [v], Passable env p (k + 1) at' e := by
    simpa [or_imp, forall_and] using ⟨hes, hpassable⟩
  -- So the function of the property can be copied.
  obtain ⟨c, hc, hname, hargs, hcall⟩ := setterSite_of_standsFor (x := ⟨i, es, span⟩) env at' hstands
    (arguments env (below env (k + 1)) at' (es ++ [v]))
  have huser : reachesBuiltin env p c = false := by
    rw [reachesBuiltin, hname, hbuiltin, Bool.and_false]
  have hback : Nearer env { at' with stack := at'.stack ++ [i.name ++ ".set"], trace }
      { at' with stack := at'.stack ++ [i.name ++ ".set"], trace := [c.span] } :=
    ⟨rfl, fun _ h => h, trivial⟩
  have hcopied : Succeeds env p (callStmts env (below env (k + 1)) at' c none) :=
    callStmts_writes_succeeds hp hstands h hsuits hall hname hcall huser hargs hstack
      fun σ rs v' v'' span hσ hmatch hpassed hmatchv =>
        written_succeeds hp h hsuits hσ hmatch hpassed hmatchv hback hnear hrun
  obtain ⟨ss', q', hrun'⟩ := hcopied p (.refl env p)
  refine ⟨ss', q', ?_⟩
  unfold assignment
  simp only [StateT.run_bind, StateT.run_get, pure_bind]
  rw [if_pos hi]
  exact StateT.bind_eq_ok.mpr ⟨c, p, StateT.lift_eq_ok.mpr ⟨hc, rfl⟩, hrun'⟩

end FlatScript.Inlining
