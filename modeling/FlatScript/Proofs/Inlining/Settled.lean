import FlatScript.Proofs.Inlining.Declared
import FlatScript.Proofs.Inlining.Limits
import FlatScript.Proofs.Inlining.Places
import FlatScript.Proofs.Lowering.Uncopied

/-!
# Expressions with nothing left to expand

Expansion leaves expressions in which no reference is to a property, none is the name of a function
and every call is one of a built-in function. Such an expression stays as it is when it is expanded
once more, which happens to an argument: it is expanded where the call stands, and again as part of
the body that it was put into.

The table of functions does not change while an expression is expanded, apart from what is learnt of
their use. Only declarations could be taken out of it, and there is no place for them in an
expression.

* `FlatScript.Inlining.expr_settled` and `FlatScript.Inlining.expr_stays` are about expressions.
* `FlatScript.Inlining.expr_akin` is about the table.
-/

namespace FlatScript.Inlining

variable {env : Env} {p q p' : Program} {at' : Place}

/-! ### Settled expressions -/

/-- **The rule of expressions with nothing left to expand.** The first argument of a function that
takes a name is not looked at. -/
def settled (env : Env) (p : Program) : Rule where
  expr
    | .var i es _ => isPropertyRef p i = false ∧ (es = [] → namesFunction p i = false)
    | .call name _ _ usingCall _ =>
      usingCall = false ∧ p.isBuiltinCall env.builtins name.name = true
    | _ => True
  stmt _ := True
  list _ := True
  skips := Builtins.keepsFirstArgument
  atom _ _ _ := False

theorem settled_literal {e : Expr} (h : e.isLiteral = true) : (settled env p).expr e := by
  cases e with
  | var | call => cases h
  | _ => trivial

/-- A cell of the stack has nothing left to expand. -/
theorem settled_slot {count i : Nat} {span : Span} :
    (argumentSlot count i span).toExpr.Meets (settled env p) := by
  have hpointer : (Frame.fixedVar Frame.stackPointer span).toExpr.Meets (settled env p) :=
    ⟨⟨rfl, fun _ => rfl⟩, trivial⟩
  unfold argumentSlot Frame.slot
  refine ⟨⟨rfl, fun _ => rfl⟩, ?_, trivial⟩
  split
  · exact hpointer
  · exact .inr ⟨trivial, hpointer, trivial⟩

/-- What is known of expansion when anything may be expanded, and anything may fail. -/
def settledLimits (env : Env) (p₀ : Program) : Limits env p₀ :=
  FreeLimits.limits
    { fails := fun _ => True
      dst := settled env p₀
      plain := fun _ => trivial
      recursion := trivial
      offset := fun _ _ _ => trivial
      raw := fun hkeep _ _ => .inl hkeep
      binary := trivial
      unary := trivial
      literal := settled_literal
      var := fun hprop hname => ⟨hprop, hname⟩
      builtin := fun h => ⟨rfl, h⟩
      slot := settled_slot }

theorem below_treats (env : Env) (p₀ : Program) (n : Nat) :
    (settledLimits env p₀).Treats (below env n) := by
  induction n with
  | zero => exact fun _ _ _ => .fail trivial
  | succ n ih =>
    intro at' body hbody
    rw [below, expandAt_eq]
    exact Limits.stmts_ends ih body hbody

/-- **What an expression is expanded to has nothing left to expand.** -/
theorem expr_settled {n : Nat} {e e' : Expr}
    (h : (expr env (below env n) at' e).run p = .ok (e', p')) :
    p.Grows p' ∧ e'.Meets (settled env p) :=
  (Limits.expr_ends (below_treats env p n) e e.meets_trivial p (.refl p)).2 e' p' h

theorem exprs_settled {n : Nat} {es es' : List Expr}
    (h : (exprs env (below env n) at' es).run p = .ok (es', p')) :
    p.Grows p' ∧ exprsMeet (settled env p) es' :=
  have hends := (Limits.exprs_ends (below_treats env p n) es (exprsMeet_trivial es) p (.refl p)).2
    es' p' h
  ⟨hends.1, hends.2.1⟩

/-! ### The table -/

/-- **A table as lowering leaves it**: what is kept of a function besides its body are
declarations. -/
structure Orderly (p : Program) : Prop extends Ready p where
  decls : ∀ e ∈ p.functions, PlainDecls (e.globals ++ e.locals)

theorem Orderly.grows (h : Orderly p) (hp : p.Grows p') : Orderly p' where
  nodup := hp.names ▸ h.nodup
  bodies e he := by
    obtain ⟨e₀, he₀, hentry⟩ := hp.mem_before he
    exact hentry.fn ▸ h.bodies e₀ he₀
  decls e he := by
    obtain ⟨e₀, he₀, hentry⟩ := hp.mem_before he
    rcases hentry.decls with ⟨hglobals, hlocals⟩ | ⟨hglobals, hlocals⟩
    · rw [hglobals, hlocals]
      exact h.decls e₀ he₀
    · rw [hglobals, hlocals]
      exact fun s hs => absurd hs List.not_mem_nil

theorem Orderly.akin (h : Orderly p) (hpq : Akin env p q) : Orderly q where
  nodup := by
    have hnames := map_eq_of_forall₂ hpq.functions fun _ _ he => he.2.name
    exact hnames ▸ h.nodup
  bodies e he := by
    obtain ⟨e₀, he₀, hsame⟩ := exists_mem_of_forall₂ hpq.functions he
    exact hsame.2.fn ▸ h.bodies e₀ he₀
  decls e he := by
    obtain ⟨e₀, he₀, hsame⟩ := exists_mem_of_forall₂ hpq.functions he
    rw [hsame.2.globals, hsame.2.locals]
    exact h.decls e₀ he₀

/-- Declarations that declare nothing are none. -/
theorem eq_nil_of_plainDecls {ss : List Stmt} (h : PlainDecls ss) (hnone : stmtsDeclared ss = []) :
    ss = [] := by
  cases ss with
  | nil => rfl
  | cons s ss =>
    obtain ⟨d, span, rfl⟩ := h s (by simp)
    cases hnone

/-- Functions give up declarations, and get none. -/
theorem count_declared_le {es es' : List FunctionEntry}
    (h : List.Forall₂ FunctionEntry.Grows es es') (i : Ident) :
    (es'.flatMap FunctionEntry.declared).count i ≤ (es.flatMap FunctionEntry.declared).count i := by
  induction h with
  | nil => exact Nat.le_refl _
  | @cons e e' es es' he _ ih =>
    have hentry : e'.declared.count i ≤ e.declared.count i := by
      unfold FunctionEntry.declared
      rcases he.decls with ⟨hglobals, hlocals⟩ | ⟨hglobals, hlocals⟩
      · rw [hglobals, hlocals]
      · rw [hglobals, hlocals]
        exact Nat.zero_le _
    simp only [List.flatMap_cons, List.count_append]
    omega

/-- **Where no declaration is missing, none has been given up.** -/
theorem same_of_count_declared {es es' : List FunctionEntry}
    (h : List.Forall₂ FunctionEntry.Grows es es')
    (hplain : ∀ e ∈ es, PlainDecls (e.globals ++ e.locals))
    (hcount : ∀ i, (es'.flatMap FunctionEntry.declared).count i =
      (es.flatMap FunctionEntry.declared).count i) :
    List.Forall₂ FunctionEntry.Same es es' := by
  induction h with
  | nil => exact .nil
  | @cons e e' es es' he hes ih =>
    simp only [List.flatMap_cons, List.count_append] at hcount
    rcases he.decls with ⟨hglobals, hlocals⟩ | ⟨hglobals, hlocals⟩
    · have hdeclared : e'.declared = e.declared := by
        rw [FunctionEntry.declared, hglobals, hlocals, FunctionEntry.declared]
      rw [hdeclared] at hcount
      refine .cons ⟨he.fn, hglobals, hlocals⟩ ?_
      exact ih (fun f hf => hplain f (by simp [hf])) fun i => Nat.add_left_cancel (hcount i)
    · have hnone : e'.declared = [] := by rw [FunctionEntry.declared, hglobals, hlocals]; rfl
      -- The others have at most what they had, so this function had nothing.
      have hempty : e.globals ++ e.locals = [] := by
        refine eq_nil_of_plainDecls (hplain e (by simp)) ?_
        refine List.eq_nil_iff_forall_not_mem.mpr fun i hi => ?_
        have hle := count_declared_le hes i
        have hpos : 0 < e.declared.count i := List.count_pos_iff.mpr hi
        have hsum := hcount i
        rw [hnone, List.count_nil] at hsum
        omega
      have hdeclared : e.declared = [] := by rw [FunctionEntry.declared, hempty]; rfl
      obtain ⟨hg, hl⟩ := List.append_eq_nil_iff.mp hempty
      rw [hnone, hdeclared] at hcount
      refine .cons ⟨he.fn, hglobals.trans hg.symm, hlocals.trans hl.symm⟩ ?_
      exact ih (fun f hf => hplain f (by simp [hf])) fun i => Nat.add_left_cancel (hcount i)

theorem Orderly.akin_of_holds (hp : Orderly p) (hgrow : p.Grows p') (hholds : Holds p p') :
    Akin env p p' where
  symbols := hgrow.symbols
  functions := (same_of_count_declared hgrow.functions hp.decls hholds.declared).imp
    fun _ _ hsame => ⟨trivial, hsame⟩

theorem below_accounts (env : Env) : ∀ n : Nat, AccountsInner (below env n)
  | 0 => fun _ _ p _ _ _ h => by cases h
  | n + 1 => expandAt_accounts env n

/-- **The table stays as it is while an expression is expanded.** -/
theorem expr_akin (hp : Orderly p) {n : Nat} {e e' : Expr}
    (h : (expr env (below env n) at' e).run p = .ok (e', p')) : Akin env p p' :=
  hp.akin_of_holds (expr_settled h).1 (expr_keeps (below_accounts env n) e p e' p' hp.toReady h)

theorem exprs_akin (hp : Orderly p) {n : Nat} {es es' : List Expr}
    (h : (exprs env (below env n) at' es).run p = .ok (es', p')) : Akin env p p' :=
  hp.akin_of_holds (exprs_settled h).1 (exprs_keeps (below_accounts env n) es p es' p' hp.toReady h)

/-! ### Settled expressions, expanded once more -/

/-- **A step that leaves a given result**, and no other functions, in every program like `p`. -/
def Stays (env : Env) (p : Program) {α : Type} (x : Compile α) (a : α) : Prop :=
  ∀ q, Akin env p q → ∃ q', x.run q = .ok (a, q') ∧ Akin env p q'

namespace Stays

variable {α β : Type} {x : Compile α} {a : α} {f : α → Compile β} {b : β}

theorem ret (a : α) : Stays env p (pure a : Compile α) a := fun q hq => ⟨q, rfl, hq⟩

theorem bind (hx : Stays env p x a) (hf : Stays env p (f a) b) : Stays env p (x >>= f) b := by
  intro q hq
  obtain ⟨q₁, hrunx, hq₁⟩ := hx q hq
  obtain ⟨q₂, hrunf, hq₂⟩ := hf q₁ hq₁
  exact ⟨q₂, StateT.bind_eq_ok.mpr ⟨a, q₁, hrunx, hrunf⟩, hq₂⟩

theorem get_bind {f : Program → Compile β} (h : ∀ q, Akin env p q → Stays env p (f q) b) :
    Stays env p (get >>= f) b := by
  intro q hq
  obtain ⟨q', hrun, hq'⟩ := h q hq q hq
  exact ⟨q', by simpa using hrun, hq'⟩

theorem modify_bind {m : Program → Program} {f : Unit → Compile β}
    (hm : ∀ q, Akin env p q → Akin env p (m q)) (h : Stays env p (f ()) b) :
    Stays env p (modify m >>= f) b := by
  intro q hq
  obtain ⟨q', hrun, hq'⟩ := h (m q) (hm q hq)
  exact ⟨q', by simpa using hrun, hq'⟩

end Stays

/-- The arguments of a built-in function, when they have nothing left to expand. -/
theorem builtinCall_stays {c : CallSite} {args : List Expr} (hcall : c.usingCall = false)
    (hargs : Stays env p (builtinArgs c.name.name c.args) args) :
    Stays env p (builtinCall at' c) ⟨c.name, args, c.isProcedure, false, c.span⟩ := by
  have hrest : Stays env p (builtinArgs c.name.name c.args >>= fun args =>
      (pure ⟨c.name, args, c.isProcedure, c.usingCall, c.span⟩ : Compile Call))
      ⟨c.name, args, c.isProcedure, false, c.span⟩ := by
    refine hargs.bind ?_
    rw [hcall]
    exact .ret _
  unfold builtinCall
  dsimp only
  split
  · split
    · exact .modify_bind (fun q hq => hq.trans ((Akin.refl env q).aside rfl rfl rfl rfl)) hrest
    · exact hrest
  · exact hrest

variable {inner : Expander}

mutual

/-- **An expression with nothing left to expand stays as it is.** -/
theorem expr_stays : ∀ (e : Expr), e.Meets (settled env p) → Stays env p (expr env inner at' e) e
  | .binary op left right span, .inr ⟨_, hl, hr⟩ => by
    simp only [expr]
    exact (expr_stays left hl).bind ((expr_stays right hr).bind (.ret _))
  | .unary op operand span, ⟨_, ho⟩ => by
    simp only [expr]
    exact (expr_stays operand ho).bind (.ret _)
  | .var i subscripts span, ⟨⟨hprop, hname⟩, hs⟩ => by
    simp only [expr]
    refine .get_bind fun q hq => ?_
    have hfunction : (subscripts.isEmpty && namesFunction q i) = false := by
      rw [hq.namesFunction, Bool.and_eq_false_iff]
      cases subscripts with
      | nil => exact .inr (hname rfl)
      | cons e es => exact .inl rfl
    rw [hq.isPropertyRef, hprop, hfunction, if_neg Bool.false_ne_true, if_neg Bool.false_ne_true]
    exact (exprs_stay subscripts hs).bind (.ret _)
  | .call name args isProcedure usingCall span, ⟨⟨hcall, hbuiltin⟩, hargs⟩ => by
    simp only [expr, callExpr_eq]
    refine .get_bind fun q hq => ?_
    subst hcall
    have hreaches : reachesBuiltin env q
        ⟨name, arguments env inner at' args, isProcedure, false, span⟩ = true := by
      simp [reachesBuiltin, hq.isBuiltinCall, hbuiltin]
    rw [if_pos hreaches]
    exact (builtinCall_stays rfl (builtinArgs_stay name args hargs)).bind (.ret _)
  | .int _ _, _ | .real _ _, _ | .str _ _, _ | .bool _ _, _ | .raw _ _, _ => by
    simp only [expr]
    exact .ret _

theorem exprs_stay : ∀ (es : List Expr), exprsMeet (settled env p) es →
    Stays env p (exprs env inner at' es) es
  | [], _ => .ret _
  | e :: es, ⟨he, hes⟩ => by
    simp only [exprs]
    exact (expr_stays e he).bind ((exprs_stay es hes).bind (.ret _))

theorem values_stay : ∀ (es : List Expr), exprsMeet (settled env p) es →
    Stays env p ((arguments env inner at' es).mapM (·.value)) es
  | [], _ => .ret _
  | e :: es, ⟨he, hes⟩ => by
    simp only [arguments, List.mapM_cons]
    exact (expr_stays e he).bind ((values_stay es hes).bind (.ret _))

theorem builtinArgs_stay (name : Ident) : ∀ (es : List Expr),
    argsMeet (settled env p) (Builtins.keepsFirstArgument name.name) es →
    Stays env p (builtinArgs name.name (arguments env inner at' es)) es
  | [], _ => .ret _
  | e :: es, ⟨he, hes⟩ => by
    simp only [arguments, builtinArgs]
    split
    · rw [pure_bind]
      exact (values_stay es hes).bind (.ret _)
    · next hkeep =>
      exact (expr_stays e (he.resolve_left hkeep)).bind ((values_stay es hes).bind (.ret _))

end

end FlatScript.Inlining
