import FlatScript.Proofs.Inlining.Accessors

/-!
# Properties that stand for variables, in the place of the variables

A property that stands for a variable may be written wherever the variable may: an assignment from or
to the property expands to the same as the one from or to the variable, with the arguments in the
places of the indices.

* `FlatScript.Inlining.Synonym` is what is asked of the property: the names of its indices, of its
  variable and of the values in its functions do not get into each other's way.
* `FlatScript.Inlining.Synonym.comesTo` is the statement on both uses.
-/

namespace FlatScript.Inlining

variable {env : Env} {p p' : Program} {at' : Place}

/-! ### Levels -/

/-- **A deeper level changes nothing** where the measure is within the bound. -/
theorem expandAt_runs_deeper (env : Env) (n : Nat) :
    ∀ (m : Nat) (p : Program) (at' : Place) (body : List Stmt), StackOf p at'.stack →
      spare p at'.stack ≤ n → n ≤ m →
      Runs (expandAt env n at' body) (expandAt env m at' body) p fun _ _ => True := by
  induction n with
  | zero =>
    intro m p at' body hstack hn _
    rw [expandAt_eq, expandAt_eq]
    have htreats : (stackScheme env p at'.top at'.stack 0 hstack hn).Treats
        (below env 0) (below env m) := by
      rintro _ _ _ _ ⟨hlt, -⟩
      exact absurd hlt (Nat.lt_irrefl 0)
    exact (Scheme.stmts_runs htreats ⟨rfl, rfl⟩ body (stmtsMeet_trivial body) p (.refl p)).imp
      fun _ _ _ _ => trivial
  | succ n ih =>
    intro m p at' body hstack hn hm
    -- A copy adds a function to the stack, so less is spare in it.
    obtain ⟨m, rfl⟩ := Nat.exists_eq_add_of_le' hm
    rw [expandAt_eq, expandAt_eq]
    have htreats : (stackScheme env p at'.top at'.stack (n + 1) hstack hn).Treats
        (below env (n + 1)) (below env (m + (n + 1))) := by
      rintro at'' body' q - ⟨-, -, rfl | ⟨hstack', hlt⟩⟩
      · -- Nothing is copied, so the level does not matter.
        have hnil : ∀ m, expandAt env m at'' [] = pure [] := fun m => by cases m <;> rfl
        rw [below, ← Nat.add_assoc, below, hnil, hnil]
        exact .ret ⟨trivial, trivial⟩
      · exact (ih (m + n) q at'' body' hstack' (by omega) (by omega)).imp fun ss _ _ _ =>
          ⟨trivial, stmtsMeet_trivial ss⟩
    exact (Scheme.stmts_runs htreats ⟨rfl, rfl⟩ body (stmtsMeet_trivial body) p (.refl p)).imp
      fun _ _ _ _ => trivial

/-- A single assignment, expanded. -/
theorem expand_assign (env : Env) (at' : Place) (target : VarRef) (value : Expr) (span : Span)
    (trace : List Span) (p : Program) :
    (expand env at' [⟨.assign target value, span, trace⟩]).run p =
      (assignment env (below env (depthBound p)) { at' with trace } target value span).run p := by
  unfold expand
  simp only [StateT.run_bind, StateT.run_get, pure_bind, expandAt_assign]

/-- A single assignment, expanded where a function is copied: one level less is enough. -/
theorem expand_assign_pushed {name : String} {e : FunctionEntry} (hstack : StackOf p at'.stack)
    (he : p.function? name = some e) (hname : name ∉ at'.stack) (target : VarRef) (value : Expr)
    (span : Span) (trace : List Span) :
    (expand env { at' with stack := at'.stack ++ [name] }
        [⟨.assign target value, span, trace⟩]).run p =
      (assignment env (below env (2 * p.functions.length + 1))
        { at' with stack := at'.stack ++ [name], trace } target value span).run p := by
  have hlt := Nat.lt_of_lt_of_le (spare_push hstack he hname) (spare_le_depthBound p at'.stack)
  rw [depthBound] at hlt
  have hruns := expandAt_runs_deeper env (2 * p.functions.length + 1) (depthBound p) p
    { at' with stack := at'.stack ++ [name] } [⟨.assign target value, span, trace⟩]
    (hstack.push he hname) (Nat.le_of_lt_succ hlt) (by rw [depthBound]; omega)
  rw [expandAt_assign] at hruns
  rw [hruns.1]
  unfold expand
  simp only [StateT.run_bind, StateT.run_get, pure_bind]

/-! ### Places that the arguments do not depend on -/

variable {n : Nat} {at₁ at₂ : Place} {names : List Spelling} {loose : List String}
  {handles : List (Spelling × Ident)} {es : List Expr}

/-- A place where other calls have been copied through. -/
theorem nearer_trace (env : Env) (at' : Place) (trace : List Span) :
    Nearer env at' { at' with trace } ∧ Nearer env { at' with trace } at' :=
  ⟨⟨rfl, fun _ h => h, trivial⟩, ⟨rfl, fun _ h => h, trivial⟩⟩

theorem Passable.outward (hat : Nearer env at₁ at₂) {e : Expr} (h : Passable env p n at₁ e) :
    Passable env p n at₂ e := by
  intro hnone
  obtain ⟨v, q, hrun⟩ := h hnone
  obtain ⟨v', q', hrun', -⟩ :=
    (expr_follows (below_follows env (Nat.le_refl n)) hat (.refl e) p p (.refl env p)).run hrun
  exact ⟨v', q', hrun'⟩

theorem PassedAs.outward (hat : Nearer env at₁ at₂) {e v : Expr} (h : PassedAs env p n at₁ e v) :
    ∃ v', PassedAs env p n at₂ e v' ∧ v.Matches v' := by
  rcases h with ⟨hvar, rfl⟩ | ⟨hnone, p₁, p₂, hp₁, hrun⟩
  · exact ⟨v, .inl ⟨hvar, rfl⟩, .refl v⟩
  · obtain ⟨v', q', hrun', -, hmatch⟩ := (expr_follows (below_follows env (Nat.le_refl n)) hat
      (.refl e) p₁ p₁ (.refl env p₁)).run hrun
    exact ⟨v', .inr ⟨hnone, p₁, q', hp₁, hrun'⟩, hmatch⟩

theorem SuitsSigil.of_matches {sigil : Option Sigil} {v v' : Expr} (h : SuitsSigil sigil v')
    (hmatch : v.Matches v') : SuitsSigil sigil v := by
  rintro rep own span rfl
  cases hmatch with
  | var hrep _ => exact (h _ _ _ rfl).imp_right fun hsome => hrep.sigil ▸ hsome

/-- Arguments suit the indices further in, if they do outside. -/
theorem Suits.inward (hat : Nearer env at₁ at₂) (h : Suits env p n at₂ names loose handles es) :
    Suits env p n at₁ names loose handles es where
  length := h.length
  firm := h.firm
  lent := h.lent
  sigils b hb v hv := by
    obtain ⟨v', hv', hmatch⟩ := hv.outward hat
    exact (h.sigils b hb v' hv').of_matches hmatch

/-! ### Properties -/

/-- **A property that stands for a variable**, under names that do not get into each other's way. -/
structure Synonym (env : Env) (p : Program) (i : Ident) (indices : List Ident) (loose : List String)
    (handles : List (Spelling × Ident)) (target : VarRef) : Prop where
  orderly : Orderly p
  stands : p.StandsFor i.name indices target
  apart : NamesApart env p (indices.map Ident.spelling) loose handles target
  property : isPropertyRef p i = true
  getter : p.isBuiltinCall env.builtins (i.name ++ ".get") = false
  setter : p.isBuiltinCall env.builtins (i.name ++ ".set") = false

/-- **One statement comes to the same as another one**: what it expands to is the same apart from
places; and if the other one is expanded even while the function `name` is being copied, so is the
first one where it stands. -/
structure ComesTo (env : Env) (p : Program) (at' : Place) (name : String) (s s' : Stmt) : Prop where
  same : ∀ ss p', (expand env at' [s]).run p = .ok (ss, p') →
    ∃ ss' q', (expand env at' [s']).run p = .ok (ss', q') ∧ StmtsMatch ss ss'
  back : ∀ ss p', (expand env { at' with stack := at'.stack ++ [name] } [s']).run p = .ok (ss, p') →
    ∃ ss' q', (expand env at' [s]).run p = .ok (ss', q')

variable {i : Ident} {indices : List Ident} {target : VarRef}

/-- **A property that stands for a variable is transparent.** An assignment from the property comes to
the same as the one from the variable, with the arguments in the places of the indices. So does an
assignment to the property, if the value is not a call of a function of the script. -/
theorem Synonym.comesTo (h : Synonym env p i indices loose handles target)
    (hstack : StackOf p at'.stack) (hget : i.name ++ ".get" ∉ at'.stack)
    (hset : i.name ++ ".set" ∉ at'.stack)
    (hsuits : Suits env p (depthBound p) at' (indices.map Ident.spelling) loose handles es)
    (hes : ∀ e ∈ es, Passable env p (depthBound p) at' e) :
    (∀ x span span' trace, isPropertyRef p x.ident = false →
      ComesTo env p at' (i.name ++ ".get") ⟨.assign x (.var i es span), span', trace⟩
        ⟨.assign x (target.fill ((indices.map Ident.spelling).zip es)).toExpr, span', trace⟩) ∧
    ∀ v span span' trace, v.asVar?.isSome = true ∨ (settled env p).expr v →
      ComesTo env p at' (i.name ++ ".set") ⟨.assign ⟨i, es, span⟩ v, span', trace⟩
        ⟨.assign (target.fill ((indices.map Ident.spelling).zip es)) v, span', trace⟩ := by
  have hnear := nearer_trace env at'
  have hpassable : ∀ trace, ∀ e ∈ es,
      Passable env p (2 * p.functions.length + 1 + 1) { at' with trace } e :=
    fun trace e he => (hes e he).outward (hnear trace).1
  have hsuits' : ∀ trace, Suits env p (2 * p.functions.length + 1 + 1) { at' with trace }
      (indices.map Ident.spelling) loose handles es := fun trace => hsuits.inward (hnear trace).2
  -- Both accessors are in the table, so the stack has room for their copies.
  obtain ⟨_, e, hgetter, -⟩ := h.stands.getter
  obtain ⟨_, e', hsetter, -⟩ := h.stands.setter
  constructor
  · intro x span span' trace hx
    refine ⟨fun ss p' hrun => ?_, fun ss p' hrun => ?_⟩
    · rw [expand_assign] at hrun ⊢
      exact assignment_reads h.orderly h.stands h.apart h.getter h.property hx (hsuits' trace) hrun
    · rw [expand_assign_pushed hstack hgetter hget] at hrun
      rw [expand_assign]
      have hfresh : i.name ++ ".get" ∉ ({ at' with trace } : Place).stack := hget
      exact reads_of_assignment h.orderly h.stands h.apart h.getter h.property hx hfresh
        (hpassable trace) (hsuits' trace) hrun
  · intro v span span' trace hv
    refine ⟨fun ss p' hrun => ?_, fun ss p' hrun => ?_⟩
    · rw [expand_assign] at hrun ⊢
      exact assignment_writes h.orderly h.stands h.apart h.setter h.property (hsuits' trace) hv hrun
    · rw [expand_assign_pushed hstack hsetter hset] at hrun
      rw [expand_assign]
      have hfresh : i.name ++ ".set" ∉ ({ at' with trace } : Place).stack := hset
      exact writes_of_assignment h.orderly h.stands h.apart h.setter h.property hfresh
        (hpassable trace) (hsuits' trace) hv hrun

end FlatScript.Inlining
