import FlatScript.Proofs.Inlining.Settled

/-!
# Calls with arguments that come to the same

A function of the script gets its arguments as references, or expanded where the call stands. So a
call comes to the same with other arguments, as long as these come to the same, each of them on its
own. They are expanded one after the other, but the order plays no part: while an expression is
expanded, the table stays like the one it was in the beginning.

* `FlatScript.Inlining.Tracks` is the relation between two steps.
* `FlatScript.Inlining.callExpr_tracks` is the statement for calls of functions of the script.
-/

namespace FlatScript.Inlining

variable {env : Env} {p₀ p q p' : Program} {at' at₁ at₂ : Place} {k m : Nat}

/-! ### Steps side by side -/

/-- **The second step comes to the same as the first one**, in all programs like `p₀`, and both
leave programs like it. -/
def Tracks (env : Env) (p₀ : Program) {α β : Type} (x : Compile α) (y : Compile β)
    (R : α → β → Prop) : Prop :=
  ∀ p q, Akin env p₀ p → Akin env p₀ q → ∀ a p', x.run p = .ok (a, p') →
    Akin env p₀ p' ∧ ∃ b q', y.run q = .ok (b, q') ∧ Akin env p₀ q' ∧ R a b

namespace Tracks

variable {α β γ δ : Type} {x : Compile α} {y : Compile β} {f : α → Compile γ} {g : β → Compile δ}
  {Q : α → β → Prop} {R : γ → δ → Prop}

theorem ret {a : α} {b : β} (h : Q a b) : Tracks env p₀ (pure a) (pure b) Q := by
  intro p q hp hq a' p' hrun
  cases hrun
  exact ⟨hp, b, q, rfl, hq, h⟩

theorem fail {e : CompileError} {z : Compile δ} : Tracks env p₀ (throw e : Compile γ) z R := by
  intro p q _ _ a p' hrun
  cases hrun

theorem bind (hx : Tracks env p₀ x y Q) (hf : ∀ a b, Q a b → Tracks env p₀ (f a) (g b) R) :
    Tracks env p₀ (x >>= f) (y >>= g) R := by
  intro p q hp hq c p' hrun
  obtain ⟨a, p₁, hrunx, hrunf⟩ := StateT.bind_eq_ok.mp hrun
  obtain ⟨hp₁, b, q₁, hruny, hq₁, hab⟩ := hx p q hp hq a p₁ hrunx
  obtain ⟨hp', d, q', hrung, hq', hcd⟩ := hf a b hab p₁ q₁ hp₁ hq₁ c p' hrunf
  exact ⟨hp', d, q', StateT.bind_eq_ok.mpr ⟨b, q₁, hruny, hrung⟩, hq', hcd⟩

theorem get_bind {f : Program → Compile γ} {g : Program → Compile δ}
    (h : ∀ p q, Akin env p₀ p → Akin env p₀ q → Tracks env p₀ (f p) (g q) R) :
    Tracks env p₀ (get >>= f) (get >>= g) R := by
  intro p q hp hq c p' hrun
  obtain ⟨hp', d, q', hrung, hq', hcd⟩ := h p q hp hq p q hp hq c p' (by simpa using hrun)
  exact ⟨hp', d, q', by simpa using hrung, hq', hcd⟩

theorem modify_bind {m m' : Program → Program} {f : Unit → Compile γ} {g : Unit → Compile δ}
    (hm : ∀ p, Akin env p₀ p → Akin env p₀ (m p)) (hm' : ∀ q, Akin env p₀ q → Akin env p₀ (m' q))
    (h : Tracks env p₀ (f ()) (g ()) R) :
    Tracks env p₀ (modify m >>= f) (modify m' >>= g) R := by
  intro p q hp hq c p' hrun
  obtain ⟨hp', d, q', hrung, hq', hcd⟩ := h (m p) (m' q) (hm p hp) (hm' q hq) c p'
    (by simpa using hrun)
  exact ⟨hp', d, q', by simpa using hrung, hq', hcd⟩

/-- A step that follows another one, which leaves the table as it is. -/
theorem of_follows (h : ∀ p q, Akin env p q → Follows env p q x y Q)
    (hx : ∀ p a p', Akin env p₀ p → x.run p = .ok (a, p') → Akin env p p') :
    Tracks env p₀ x y Q := by
  intro p q hp hq a p' hrun
  have hp' := hp.trans (hx p a p' hp hrun)
  obtain ⟨b, q', hruny, hsame, hab⟩ := (h p q (hp.symm.trans hq)).run hrun
  exact ⟨hp', b, q', hruny, hp'.trans hsame, hab⟩

/-- A step that leaves a given result, and one that comes to it. -/
theorem trans_stays {a : α} {Q' : α → β → Prop} (hx : Stays env p₀ x a)
    (h : ∀ q, Akin env p₀ q → ∃ b q', y.run q = .ok (b, q') ∧ Akin env p₀ q' ∧ Q' a b) :
    Tracks env p₀ x y Q' := by
  intro p q hp hq a' p' hrun
  obtain ⟨p₁, hrunx, hp₁⟩ := hx p hp
  rw [hrunx] at hrun
  cases hrun
  exact ⟨hp₁, h q hq⟩

/-- A step that comes to a given result, and one that leaves it. -/
theorem stays_trans {b : β} {Q' : α → β → Prop}
    (h : ∀ p a p', Akin env p₀ p → x.run p = .ok (a, p') → Akin env p₀ p' ∧ Q' a b)
    (hy : Stays env p₀ y b) : Tracks env p₀ x y Q' := by
  intro p q hp hq a p' hrun
  obtain ⟨hp', hQ⟩ := h p a p' hp hrun
  obtain ⟨q', hruny, hq'⟩ := hy q hq
  exact ⟨hp', b, q', hruny, hq', hQ⟩

end Tracks

/-- Expressions that are the same apart from places come to the same, wherever the second one may
be expanded. -/
theorem expr_tracks_of_matches (hp₀ : Orderly p₀) (hkm : k ≤ m) (hat : Nearer env at₁ at₂)
    {e e' : Expr} (h : e.Matches e') :
    Tracks env p₀ (expr env (below env k) at₁ e) (expr env (below env m) at₂ e') Expr.Matches :=
  .of_follows (expr_follows (below_follows env hkm) hat h) fun _ _ _ hp hrun =>
    expr_akin (hp₀.akin hp) hrun

/-! ### Programs in between -/

/-- A program in between has the same functions. -/
theorem Akin.between {r : Program} (h : Akin env p r) (hpq : p.Grows q) (hqr : q.Grows r) :
    Akin env p q := by
  refine ⟨hpq.symbols, ?_⟩
  have hends := h.functions
  have hfirst := hpq.functions
  have hsecond := hqr.functions
  generalize p.functions = es, q.functions = es', r.functions = es'' at hends hfirst hsecond
  induction hfirst generalizing es'' with
  | nil => exact .nil
  | @cons e e' es es' he _ ih =>
    cases hsecond with
    | @cons _ e'' _ es'' he' hs' =>
      cases hends with
      | cons hsame hrest =>
        refine .cons ⟨trivial, ?_⟩ (ih _ hrest hs')
        rcases he.decls with ⟨hglobals, hlocals⟩ | ⟨hglobals, hlocals⟩
        · exact ⟨he.fn, hglobals, hlocals⟩
        · -- What has been given up does not come back.
          have hnone : e''.globals = [] ∧ e''.locals = [] := by
            rcases he'.decls with ⟨hg, hl⟩ | hnone
            · exact ⟨hg.trans hglobals, hl.trans hlocals⟩
            · exact hnone
          refine ⟨he.fn, ?_, ?_⟩
          · rw [hglobals, ← hnone.1, hsame.2.globals]
          · rw [hlocals, ← hnone.2, hsame.2.locals]

theorem below_grows {n : Nat} {body : List Stmt} {ss : List Stmt}
    (h : (below env n at' body).run p = .ok (ss, p')) : p.Grows p' :=
  ((below_treats env p n at' body (stmtsMeet_trivial _) p (.refl p)).2 ss p' h).1

theorem takeDeclarations_grows {e : FunctionEntry} {ss : List Stmt}
    (h : (takeDeclarations at' e).run p = .ok (ss, p')) : p.Grows p' := by
  unfold takeDeclarations at h
  split at h
  · cases h
    exact p.grows_drained e.name
  · cases h
    exact .refl p

theorem enterCall_grows {c : CallSite} {use : Use} {e : FunctionEntry}
    (h : (enterCall env at' c use).run p = .ok (e, p')) : p.Grows p' :=
  ((Limits.enterCall_ends (L := settledLimits env p) trivial p (.refl p)).2 e p' h).1

theorem argumentSubstitution_grows {n : Nat} {es : List Expr} (params : List Param)
    {σ : Substitution}
    (h : (argumentSubstitution (params.zip (arguments env (below env n) at' es))).run p = .ok (σ, p')) :
    p.Grows p' := by
  have hargs : ∀ a ∈ arguments env (below env n) at' es, (settledLimits env p).Arg a :=
    Limits.arguments_ends (below_treats env p n) es (exprsMeet_trivial es)
  have hzipped : ∀ a ∈ params.zip (arguments env (below env n) at' es),
      (settledLimits env p).Arg a.2 :=
    fun a ha => hargs _ (List.of_mem_zip (show (a.1, a.2) ∈ _ from ha)).2
  have hends := Limits.argumentSubstitution_ends hzipped fun _ _ _ _ => trivial
  exact ((hends p (.refl p)).2 σ p' h).1

theorem copyBody_grows {n : Nat} {e : FunctionEntry} {span : Span} {σ : Substitution}
    {ss : List Stmt} (h : (copyBody env (below env n) at' e span σ).run p = .ok (ss, p')) :
    p.Grows p' := by
  obtain ⟨body, p₁, hlift, h⟩ := StateT.bind_eq_ok.mp h
  obtain ⟨-, rfl⟩ := StateT.lift_eq_ok.mp hlift
  exact below_grows h

/-! ### Calls of built-in functions -/

theorem mapM_value_tracks {as as' : List Argument}
    (h : List.Forall₂ (fun a a' => Tracks env p₀ a.value a'.value Expr.Matches) as as') :
    Tracks env p₀ (as.mapM (·.value)) (as'.mapM (·.value)) ExprsMatch := by
  induction h with
  | nil => exact .ret .nil
  | cons ha _ ih =>
    simp only [List.mapM_cons]
    exact ha.bind fun e e' he => ih.bind fun es es' hes => .ret (.cons he hes)

/-- **A call of a built-in function comes to the same** when its arguments do. -/
theorem builtinCall_tracks (hat : Nearer env at₁ at₂) {c c' : CallSite}
    (hname : c.name.Matches c'.name) (hprocedure : c'.isProcedure = c.isProcedure)
    (husing : c'.usingCall = c.usingCall)
    (hargs : Tracks env p₀ (builtinArgs c.name.name c.args) (builtinArgs c.name.name c'.args)
      ExprsMatch) :
    Tracks env p₀ (builtinCall at₁ c) (builtinCall at₂ c') Call.Matches := by
  have hrest : Tracks env p₀
      (builtinArgs c.name.name c.args >>= fun args =>
        (pure ⟨c.name, args, c.isProcedure, c.usingCall, c.span⟩ : Compile Call))
      (builtinArgs c.name.name c'.args >>= fun args =>
        pure ⟨c'.name, args, c'.isProcedure, c'.usingCall, c'.span⟩) Call.Matches :=
    hargs.bind fun args args' hmatch => .ret ⟨hname, hmatch, hprocedure, husing⟩
  have haside : ∀ {p : Program} (waiting : List String), Akin env p₀ p →
      Akin env p₀ { p with waiting } :=
    fun _ hp => hp.trans ((Akin.refl env _).aside rfl rfl rfl rfl)
  unfold builtinCall
  rw [hname.name, hat.top]
  dsimp only
  split
  · split
    · exact .modify_bind (fun _ hp => haside _ hp) (fun _ hq => haside _ hq) hrest
    · exact hrest
  · exact hrest

/-! ### Calls of functions of the script -/

/-- **What an argument puts in the place of its parameter**: a reference stays as it is written. -/
def passed (a : Argument) : Compile Expr :=
  match a.written with
  | .var _ _ _ => pure a.written
  | _ => a.value

theorem argumentSubstitution_cons (param : Param) (a : Argument) (rest : List (Param × Argument)) :
    argumentSubstitution ((param, a) :: rest) = (do
      let value ← passed a
      return (← argumentSubstitution rest) ++ [(Name.firstPart param.name.name, value)]) := by
  rw [argumentSubstitution, passed]
  cases a.written <;> rfl

theorem argumentSubstitution_tracks {as as' : List Argument} (params : List Param)
    (h : List.Forall₂ (fun a a' => Tracks env p₀ (passed a) (passed a') Expr.Matches) as as') :
    Tracks env p₀ (argumentSubstitution (params.zip as)) (argumentSubstitution (params.zip as'))
      Substitution.Matches := by
  induction h generalizing params with
  | nil =>
    rw [List.zip_nil_right]
    exact .ret .nil
  | cons ha _ ih =>
    cases params with
    | nil => exact .ret .nil
    | cons param params =>
      simp only [List.zip_cons_cons, argumentSubstitution_cons]
      refine ha.bind fun e e' he => ?_
      exact (ih params).bind fun σ σ' hσ => .ret (List.rel_append hσ (.cons ⟨rfl, he⟩ .nil))

/-- **A copy of a body comes to the same** when what takes the place of the parameters does. In the
first run the table stays as it is. -/
theorem inlineBody_run (hkm : k ≤ m) (hat : Nearer env at₁ at₂) (hp : Akin env p₀ p)
    (hpq : Akin env p q) {e e' : FunctionEntry} (hsame : e.Same e') {c c' : CallSite}
    {es : List Expr} (hes : c.args = arguments env (below env k) at₁ es)
    (hargs : List.Forall₂ (fun a a' => Tracks env p₀ (passed a) (passed a') Expr.Matches)
      c.args c'.args)
    {result result' : Option VarRef} (hresult : Option.Rel VarRef.Matches result result')
    {ss : List Stmt} (hrun : (inlineBody env (below env k) at₁ e c result).run p = .ok (ss, p'))
    (hkept : Akin env p p') :
    ∃ ss' q', (inlineBody env (below env m) at₂ e' c' result').run q = .ok (ss', q') ∧
      Akin env p' q' ∧ StmtsMatch ss ss' := by
  have hinner := below_follows env hkm
  rw [inlineBody_eq] at hrun ⊢
  obtain ⟨decls, p₁, htake, hrun⟩ := StateT.bind_eq_ok.mp hrun
  obtain ⟨decls₁, p₂, hdecls, hrun⟩ := StateT.bind_eq_ok.mp hrun
  obtain ⟨σ, p₃, hσ, hrun⟩ := StateT.bind_eq_ok.mp hrun
  obtain ⟨copy, p₄, hcopy, hrun⟩ := StateT.bind_eq_ok.mp hrun
  cases hrun
  obtain ⟨decls', q₁, htake', hpq₁, hmatch⟩ := (takeDeclarations_follows hat hsame hpq).run htake
  obtain ⟨decls₁', q₂, hdecls', hpq₂, hmatch₁⟩ :=
    Follows.run (hinner _ _ _ _ p₁ q₁ hat hmatch hpq₁) hdecls
  -- The declarations have left the table as it was, or it would not be so in the end.
  have hp₂ : Akin env p₀ p₂ := by
    rw [hes] at hσ
    have hfirst : p.Grows p₂ := (takeDeclarations_grows htake).trans (below_grows hdecls)
    have hlast : p₂.Grows p' := (argumentSubstitution_grows _ hσ).trans (copyBody_grows hcopy)
    exact hp.trans (hkept.between hfirst hlast)
  obtain ⟨hp₃, σ', q₃, hσ', hq₃, hmatch₂⟩ :=
    argumentSubstitution_tracks e.fn.params hargs p₂ q₂ hp₂ (hp₂.trans hpq₂) σ p₃ hσ
  obtain ⟨copy', q₄, hcopy', hpq₄, hmatch₃⟩ := (copyBody_follows hinner hat hsame c.span c'.span
    (List.rel_append (resultsOf_matches e.fn hresult) hmatch₂) (hp₃.symm.trans hq₃)).run hcopy
  refine ⟨decls₁' ++ copy', q₄, ?_, hpq₄, hmatch₁.append hmatch₃⟩
  rw [hsame.fn]
  refine StateT.bind_eq_ok.mpr ⟨decls', q₁, htake', StateT.bind_eq_ok.mpr ⟨decls₁', q₂, hdecls', ?_⟩⟩
  exact StateT.bind_eq_ok.mpr ⟨σ', q₃, hσ', StateT.bind_eq_ok.mpr ⟨copy', q₄, hcopy', rfl⟩⟩

theorem inlineBody_grows {e : FunctionEntry} {c : CallSite} {es : List Expr}
    (hes : c.args = arguments env (below env k) at' es) {result : Option VarRef} {ss : List Stmt}
    (h : (inlineBody env (below env k) at' e c result).run p = .ok (ss, p')) : p.Grows p' := by
  rw [inlineBody_eq, hes] at h
  obtain ⟨decls, p₁, htake, h⟩ := StateT.bind_eq_ok.mp h
  obtain ⟨decls₁, p₂, hdecls, h⟩ := StateT.bind_eq_ok.mp h
  obtain ⟨σ, p₃, hσ, h⟩ := StateT.bind_eq_ok.mp h
  obtain ⟨copy, p₄, hcopy, h⟩ := StateT.bind_eq_ok.mp h
  cases h
  exact (takeDeclarations_grows htake).trans ((below_grows hdecls).trans
    ((argumentSubstitution_grows _ hσ).trans (copyBody_grows hcopy)))

/-- **A call of a function of the script comes to the same** when what its arguments put in the
place of the parameters does. -/
theorem callExpr_tracks (hp₀ : Orderly p₀) (hkm : k ≤ m) (hat : Nearer env at₁ at₂)
    {c c' : CallSite} {es : List Expr} (hes : c.args = arguments env (below env k) at₁ es)
    (hname : c.name.Matches c'.name) (husing : c'.usingCall = c.usingCall)
    (huser : reachesBuiltin env p₀ c = false)
    (hargs : List.Forall₂ (fun a a' => Tracks env p₀ (passed a) (passed a') Expr.Matches)
      c.args c'.args) :
    Tracks env p₀ (callExpr env (below env k) at₁ c) (callExpr env (below env m) at₂ c')
      Expr.Matches := by
  intro p q hp hq v p' hrun
  -- The call keeps the books, which is why nothing moves to the init callback where it has a value.
  have hkeeps : Keeps (callExpr env (below env k) at₁ c) := by
    refine callExpr_keeps (below_accounts env k) ?_
    rw [hes]
    exact arguments_keep (below_accounts env k) es
  have hholds := hkeeps p v p' (hp₀.akin hp).toReady hrun
  rw [callExpr_eq] at hrun ⊢
  simp only [StateT.run_bind, StateT.run_get, pure_bind] at hrun ⊢
  rw [reachesBuiltin_akin rfl rfl hp, huser, if_neg Bool.false_ne_true] at hrun
  rw [reachesBuiltin_akin hname.name husing hq, huser, if_neg Bool.false_ne_true]
  obtain ⟨e, p₁, henter, hrun⟩ := StateT.bind_eq_ok.mp hrun
  obtain ⟨body, p₂, hbody, hrun⟩ := StateT.bind_eq_ok.mp hrun
  obtain ⟨e', q₁, henter', hpq₁, hsame⟩ := (enterCall_follows hat hname.name husing
    hargs.length_eq.symm rfl rfl (hp.symm.trans hq)).run henter
  have hfirst := enterCall_grows henter
  have hlast := inlineBody_grows hes hbody
  cases hvalue : resultOf? e.fn body with
  | none =>
    rw [hvalue] at hrun
    cases hrun
  | some value =>
    rw [hvalue] at hrun
    cases hrun
    -- So the programs on the way are alike, and the other call goes the same way.
    have hkept : Akin env p p' := (hp₀.akin hp).akin_of_holds (hfirst.trans hlast) hholds
    have hp₁ : Akin env p p₁ := hkept.between hfirst hlast
    obtain ⟨body', q₂, hbody', hpq₂, hmatch⟩ := inlineBody_run hkm hat (hp.trans hp₁) hpq₁ hsame hes
      hargs .none hbody (hp₁.symm.trans hkept)
    have hp₂ := hp.trans hkept
    have hrel := hmatch.resultOf? e.fn
    rw [hvalue] at hrel
    cases hvalue' : resultOf? e.fn body' with
    | none =>
      rw [hvalue'] at hrel
      cases hrel
    | some value' =>
      rw [hvalue'] at hrel
      cases hrel with
      | some hmatch' =>
        refine ⟨hp₂, value', q₂, ?_, hp₂.trans hpq₂, hmatch'⟩
        refine StateT.bind_eq_ok.mpr ⟨e', q₁, henter', StateT.bind_eq_ok.mpr ⟨body', q₂, hbody', ?_⟩⟩
        rw [hsame.fn, hvalue']
        rfl

end FlatScript.Inlining
