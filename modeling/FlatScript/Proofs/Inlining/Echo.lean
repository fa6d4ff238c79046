import FlatScript.Proofs.Inlining.Walk

/-!
# Expansions that echo one another

Two expansions may differ in where the calls stand that led to them, in what has been learnt
about the use of functions, and in how the bodies they copy are treated, and still come to the
same. Here the second one of two runs follows the first: whenever the first ends with a result,
so does the second, with a result that is related, unless it stops with an error that is
expected. A `FlatScript.Inlining.Mirror` says what may differ between the two.

The results are compared by `FlatScript.stmtsRetraced`: they are the same apart from the calls
that the statements remember.
-/

namespace FlatScript

/-! ### Statements with other traces -/

variable (T : List Span → List Span → Prop)

mutual

/-- **A statement with other traces**: it is the same apart from the calls that it and the
statements in it remember. -/
inductive Stmt.Retraced : Stmt → Stmt → Prop
  | property {name fs fs' span trace trace'} (ht : T trace trace')
    (hfs : FunctionsRetraced fs fs') :
    Stmt.Retraced ⟨.property name fs, span, trace⟩ ⟨.property name fs', span, trace'⟩
  | synonym {name indices target span trace trace'} (ht : T trace trace') :
    Stmt.Retraced ⟨.synonym name indices target, span, trace⟩
      ⟨.synonym name indices target, span, trace'⟩
  | declare {d span trace trace'} (ht : T trace trace') :
    Stmt.Retraced ⟨.declare d, span, trace⟩ ⟨.declare d, span, trace'⟩
  | assign {target value span trace trace'} (ht : T trace trace') :
    Stmt.Retraced ⟨.assign target value, span, trace⟩ ⟨.assign target value, span, trace'⟩
  | call {c span trace trace'} (ht : T trace trace') :
    Stmt.Retraced ⟨.call c, span, trace⟩ ⟨.call c, span, trace'⟩
  | whileLoop {cond body body' span trace trace'} (ht : T trace trace')
    (hb : StmtsRetraced body body') :
    Stmt.Retraced ⟨.whileLoop cond body, span, trace⟩ ⟨.whileLoop cond body', span, trace'⟩
  | forLoop {var start stop step downto body body' span trace trace'} (ht : T trace trace')
    (hb : StmtsRetraced body body') :
    Stmt.Retraced ⟨.forLoop var start stop step downto body, span, trace⟩
      ⟨.forLoop var start stop step downto body', span, trace'⟩
  | family {name body body' span trace trace'} (ht : T trace trace')
    (hb : StmtsRetraced body body') :
    Stmt.Retraced ⟨.family name body, span, trace⟩ ⟨.family name body', span, trace'⟩
  | ifChain {bs bs' otherwise otherwise' span trace trace'} (ht : T trace trace')
    (hbs : BranchesRetraced bs bs') (ho : StmtsRetraced otherwise otherwise') :
    Stmt.Retraced ⟨.ifChain bs otherwise, span, trace⟩ ⟨.ifChain bs' otherwise', span, trace'⟩
  | select {subject cs cs' span trace trace'} (ht : T trace trace')
    (hcs : CasesRetraced cs cs') :
    Stmt.Retraced ⟨.select subject cs, span, trace⟩ ⟨.select subject cs', span, trace'⟩

/-- **Statements with other traces.** -/
inductive StmtsRetraced : List Stmt → List Stmt → Prop
  | nil : StmtsRetraced [] []
  | cons {s s' ss ss'} (hs : Stmt.Retraced s s') (hss : StmtsRetraced ss ss') :
    StmtsRetraced (s :: ss) (s' :: ss')

/-- Branches with other traces. -/
inductive BranchesRetraced : List Branch → List Branch → Prop
  | nil : BranchesRetraced [] []
  | cons {cond body body' bs bs'} (hb : StmtsRetraced body body')
    (hbs : BranchesRetraced bs bs') :
    BranchesRetraced (⟨cond, body⟩ :: bs) (⟨cond, body'⟩ :: bs')

/-- Cases with other traces. -/
inductive CasesRetraced : List Case → List Case → Prop
  | nil : CasesRetraced [] []
  | cons {start stop body body' cs cs'} (hb : StmtsRetraced body body')
    (hcs : CasesRetraced cs cs') :
    CasesRetraced (⟨start, stop, body⟩ :: cs) (⟨start, stop, body'⟩ :: cs')

/-- Functions with other traces in their bodies. -/
inductive FunctionsRetraced : List FunctionDef → List FunctionDef → Prop
  | nil : FunctionsRetraced [] []
  | cons {name params result body body' isTaskfunc isOverride span fs fs'}
    (hb : StmtsRetraced body body') (hfs : FunctionsRetraced fs fs') :
    FunctionsRetraced (⟨name, params, result, body, isTaskfunc, isOverride, span⟩ :: fs)
      (⟨name, params, result, body', isTaskfunc, isOverride, span⟩ :: fs')

end

section Retraced

variable {T}

theorem StmtsRetraced.append {ss ss' rest rest' : List Stmt} (h : StmtsRetraced T ss ss')
    (hrest : StmtsRetraced T rest rest') : StmtsRetraced T (ss ++ rest) (ss' ++ rest') := by
  induction ss generalizing ss' with
  | nil =>
    cases h
    exact hrest
  | cons s ss ih =>
    cases h with
    | cons hs hss => exact .cons hs (ih hss)

theorem StmtsRetraced.single {s s' : Stmt} (h : s.Retraced T s') : StmtsRetraced T [s] [s'] :=
  .cons h .nil

/-- A single assignment among statements with other traces. -/
theorem StmtsRetraced.resultOf? {ss ss' : List Stmt} (h : StmtsRetraced T ss ss')
    (f : FunctionDef) : Inlining.resultOf? f ss' = Inlining.resultOf? f ss := by
  cases h with
  | nil => rfl
  | cons hs hss =>
    cases hss with
    | nil => cases hs <;> rfl
    | cons hs₂ hss => simp [Inlining.resultOf?]

end Retraced

/-- **Two functions of the table are the same**, apart from what has been learnt of their use. -/
structure FunctionEntry.Same (e e' : FunctionEntry) : Prop where
  fn : e'.fn = e.fn
  globals : e'.globals = e.globals
  locals : e'.locals = e.locals

theorem FunctionEntry.Same.name {e e' : FunctionEntry} (h : e.Same e') : e'.name = e.name :=
  congrArg (·.name.name) h.fn

namespace Inlining

/-! ### What may differ -/

/-- **What may differ between two expansions**, one of which follows the other. -/
structure Mirror (env : Env) where
  /-- What a statement remembers in the first one, and in the second. -/
  traces : List Span → List Span → Prop
  /-- The functions that are being copied in the first one, and in the second. -/
  around : List String → List String → Prop
  /-- The errors with which the second one may stop. -/
  stop : CompileError → Prop
  /-- What is known of the functions of the table. -/
  known : FunctionEntry → Prop
  /-- What is known of the bodies that are copied. -/
  ready : List Stmt → Prop
  push : ∀ {a b} (name : String), around a b → around (a ++ [name]) (b ++ [name])
  fresh : ∀ {a b name}, around a b → name ∉ a → name ∈ b → ∀ chain location,
    stop (.fault (.recursiveCall chain) location)
  used : ∀ {e u}, known e → known { e with used := u }
  drained : ∀ {e}, known e → known { e with globals := [], locals := [] }
  readyNil : ready []
  readyDecls : ∀ {e}, known e → ready (e.globals ++ e.locals)
  readyBody : ∀ {e s span body}, known e →
    Substitution.stmts env s (stmtsCopiedTo span e.fn.body) = .ok body → ready body

namespace Mirror

variable {env : Env} (M : Mirror env)

/-- **Two programs agree** in everything that expansion looks at. -/
structure Agrees (p q : Program) : Prop where
  symbols : q.symbols = p.symbols
  functions : List.Forall₂ (fun e e' => M.known e ∧ e.Same e') p.functions q.functions

/-- Two places differ in what may differ. -/
structure Facing (at₁ at₂ : Place) : Prop where
  top : at₂.top = at₁.top
  around : M.around at₁.stack at₂.stack
  traces : M.traces at₁.trace at₂.trace

/-- **The second step echoes the first one.** -/
def Echoes {α β : Type} (p q : Program) (x : Compile α) (y : Compile β) (R : α → β → Prop) : Prop :=
  ∀ a p', x.run p = .ok (a, p') →
    (∃ b q', y.run q = .ok (b, q') ∧ M.Agrees p' q' ∧ R a b) ∨ ∃ e, y.run q = .error e ∧ M.stop e

variable {M} {p q : Program} {at₁ at₂ : Place}

theorem Facing.within (h : M.Facing at₁ at₂) {t t' : List Span} (ht : M.traces t t') :
    M.Facing { at₁ with trace := t } { at₂ with trace := t' } :=
  ⟨h.top, h.around, ht⟩

theorem Facing.push (h : M.Facing at₁ at₂) (name : String) :
    M.Facing { at₁ with stack := at₁.stack ++ [name] }
      { at₂ with stack := at₂.stack ++ [name] } :=
  ⟨h.top, M.push name h.around, h.traces⟩

/-! ### Programs that agree -/

theorem Agrees.function? (h : M.Agrees p q) (name : String) :
    Option.Rel (fun e e' => M.known e ∧ e.Same e') (p.function? name) (q.function? name) := by
  unfold Program.function?
  have hfunctions := h.functions
  generalize p.functions = es, q.functions = es' at hfunctions
  induction hfunctions with
  | nil => exact .none
  | @cons e e' es es' he _ ih =>
    simp only [List.find?_cons, he.2.name]
    split
    · exact .some he
    · exact ih

theorem Agrees.isUserFunction (h : M.Agrees p q) (name : String) :
    q.isUserFunction name = p.isUserFunction name := by
  unfold Program.isUserFunction
  have hfunctions := h.functions
  generalize p.functions = es, q.functions = es' at hfunctions
  induction hfunctions with
  | nil => rfl
  | cons he _ ih => rw [List.any_cons, List.any_cons, he.2.name, ih]

theorem Agrees.isBuiltinCall (h : M.Agrees p q) (b : Builtins) (name : String) :
    q.isBuiltinCall b name = p.isBuiltinCall b name := by
  have hfind := h.function? name
  unfold Program.isBuiltinCall
  generalize p.function? name = o, q.function? name = o' at hfind
  cases hfind with
  | none => rfl
  | some he => simp [he.2.fn]

theorem Agrees.isPropertyRef (h : M.Agrees p q) (i : Ident) :
    isPropertyRef q i = isPropertyRef p i := by
  rw [Inlining.isPropertyRef, Inlining.isPropertyRef, h.symbols]

theorem Agrees.namesFunction (h : M.Agrees p q) (i : Ident) :
    namesFunction q i = namesFunction p i := by
  rw [Inlining.namesFunction, Inlining.namesFunction, h.isUserFunction]

/-- Programs agree when something else changes than what expansion looks at. -/
theorem Agrees.aside (h : M.Agrees p q) {p' q' : Program} (hs : p'.symbols = p.symbols)
    (hf : p'.functions = p.functions) (hs' : q'.symbols = q.symbols)
    (hf' : q'.functions = q.functions) : M.Agrees p' q' :=
  ⟨by rw [hs, hs', h.symbols], by rw [hf, hf']; exact h.functions⟩

/-- Programs agree when their functions of a name change in the same way. -/
theorem Agrees.updateFunction (h : M.Agrees p q) (name : String)
    {f : FunctionEntry → FunctionEntry}
    (hf : ∀ e e', M.known e → e.Same e' → M.known (f e) ∧ (f e).Same (f e')) :
    M.Agrees (p.updateFunction name f) (q.updateFunction name f) := by
  refine ⟨h.symbols, ?_⟩
  unfold Program.updateFunction
  rw [List.forall₂_map_left_iff, List.forall₂_map_right_iff]
  refine h.functions.imp fun e e' he => ?_
  rw [he.2.name]
  split
  · exact hf e e' he.1 he.2
  · exact he

theorem Agrees.entered (h : M.Agrees p q) (t : Top) (name : String) (usingCall : Bool) :
    M.Agrees (Inlining.entered p t name usingCall) (Inlining.entered q t name usingCall) := by
  have hcalls : M.Agrees { p with calls := p.calls.addCall t.caller name }
      { q with calls := q.calls.addCall t.caller name } := h.aside rfl rfl rfl rfl
  have hused : ∀ {p q : Program}, M.Agrees p q →
      M.Agrees (p.updateFunction name ({ · with used := true }))
        (q.updateFunction name ({ · with used := true })) := fun h =>
    h.updateFunction name fun e e' he hsame =>
      ⟨M.used he, hsame.fn, hsame.globals, hsame.locals⟩
  unfold Inlining.entered
  dsimp only
  split <;> split
  · exact hused (hcalls.aside rfl rfl rfl rfl)
  · exact hused hcalls
  · exact hcalls.aside rfl rfl rfl rfl
  · exact hcalls

/-! ### Steps that echo one another -/

namespace Echoes

variable {α β γ δ : Type} {x : Compile α} {y : Compile β} {f : α → Compile γ} {g : β → Compile δ}
  {Q : α → β → Prop} {R : γ → δ → Prop}

theorem ret {a : γ} {b : δ} (h : M.Agrees p q) (hR : R a b) :
    M.Echoes p q (pure a) (pure b) R := by
  intro a' p' hrun
  simp only [StateT.run_pure] at hrun
  cases hrun
  exact .inl ⟨b, q, rfl, h, hR⟩

theorem fail {e : CompileError} {z : Compile δ} : M.Echoes p q (throw e : Compile γ) z R := by
  intro a p' hrun
  cases hrun

theorem bind (hx : M.Echoes p q x y Q)
    (hf : ∀ a b p' q', M.Agrees p' q' → Q a b → M.Echoes p' q' (f a) (g b) R) :
    M.Echoes p q (x >>= f) (y >>= g) R := by
  intro c p'' hrun
  obtain ⟨a, p', hrunx, hrunf⟩ := StateT.bind_eq_ok.mp hrun
  rcases hx a p' hrunx with ⟨b, q', hruny, hagree, hQ⟩ | ⟨e, hruny, hstop⟩
  · have hbind : (y >>= g).run q = (g b).run q' := by
      rw [StateT.run_bind, hruny]
      rfl
    rw [hbind]
    exact hf a b p' q' hagree hQ c p'' hrunf
  · refine .inr ⟨e, ?_, hstop⟩
    rw [StateT.run_bind, hruny]
    rfl

theorem imp {Q' : α → β → Prop} (h : M.Echoes p q x y Q) (himp : ∀ a b, Q a b → Q' a b) :
    M.Echoes p q x y Q' := by
  intro a p' hrun
  rcases h a p' hrun with ⟨b, q', hruny, hagree, hQ⟩ | hstop
  · exact .inl ⟨b, q', hruny, hagree, himp a b hQ⟩
  · exact .inr hstop

theorem get_bind {f : Program → Compile γ} {g : Program → Compile δ}
    (h : M.Echoes p q (f p) (g q) R) : M.Echoes p q (get >>= f) (get >>= g) R := by
  intro a p' hrun
  simpa using h a p' (by simpa using hrun)

theorem modify_bind {m m' : Program → Program} {f : Unit → Compile γ} {g : Unit → Compile δ}
    (h : M.Echoes (m p) (m' q) (f ()) (g ()) R) :
    M.Echoes p q (modify m >>= f) (modify m' >>= g) R := by
  intro a p' hrun
  simpa using h a p' (by simpa using hrun)

/-- Two steps that do not look at the program, where the second one does what the first did. -/
theorem lift_bind {z : Except CompileError α} {z' : Except CompileError β}
    (h : ∀ a, z = .ok a → ∃ b, z' = .ok b ∧ M.Echoes p q (f a) (g b) R) :
    M.Echoes p q ((liftM z : Compile α) >>= f) ((liftM z' : Compile β) >>= g) R := by
  cases z with
  | error e =>
    intro a p' hrun
    cases hrun
  | ok a =>
    obtain ⟨b, rfl, hecho⟩ := h a rfl
    exact hecho

/-- A step on a value that may be missing. -/
theorem option_mapM {f : α → Compile γ} {g : α → Compile γ} (hpq : M.Agrees p q) (o : Option α)
    (h : ∀ a ∈ o, M.Echoes p q (f a) (g a) fun b b' => b' = b) :
    M.Echoes p q (o.mapM f) (o.mapM g) fun o' o'' => o'' = o' := by
  cases o with
  | none => exact .ret hpq rfl
  | some a =>
    simp only [Option.mapM_some, map_eq_pure_bind]
    exact (h a rfl).bind fun b b' _ _ hpq hb => .ret hpq (congrArg some hb)

end Echoes

/-! ### Arguments and calls -/

/-- Two arguments are the same, and expanding the second echoes expanding the first. -/
structure Arg (M : Mirror env) (a a' : Argument) : Prop where
  written : a'.written = a.written
  value : ∀ p q, M.Agrees p q → M.Echoes p q a.value a'.value fun e e' => e' = e
  target : Option.Rel
    (fun x x' => ∀ p q, M.Agrees p q → M.Echoes p q x x' fun v v' => v' = v) a.target? a'.target?

/-- Two call sites are the same, and expanding the arguments of the second echoes expanding
those of the first. -/
structure Site (M : Mirror env) (c c' : CallSite) : Prop where
  name : c'.name = c.name
  isProcedure : c'.isProcedure = c.isProcedure
  usingCall : c'.usingCall = c.usingCall
  span : c'.span = c.span
  args : List.Forall₂ (Arg M) c.args c'.args

theorem arg_captured (v : VarRef) :
    Arg M ⟨v.toExpr, pure v.toExpr, some (pure v)⟩ ⟨v.toExpr, pure v.toExpr, some (pure v)⟩ where
  written := rfl
  value _ _ h := .ret h rfl
  target := .some fun _ _ h => .ret h rfl

/-! ### Built-in functions -/

theorem mapM_value_echoes {as as' : List Argument} (h : List.Forall₂ (Arg M) as as')
    (hpq : M.Agrees p q) :
    M.Echoes p q (as.mapM (·.value)) (as'.mapM (·.value)) fun es es' => es' = es := by
  induction h generalizing p q with
  | nil => exact .ret hpq rfl
  | cons ha _ ih =>
    simp only [List.mapM_cons]
    refine (ha.value p q hpq).bind fun e e' p' q' hpq he => ?_
    exact (ih hpq).bind fun es es' _ _ hpq hes => .ret hpq (by rw [he, hes])

theorem builtinArgs_echoes (name : String) {as as' : List Argument}
    (h : List.Forall₂ (Arg M) as as') (hpq : M.Agrees p q) :
    M.Echoes p q (builtinArgs name as) (builtinArgs name as') fun es es' => es' = es := by
  cases h with
  | nil => exact .ret hpq rfl
  | cons ha has =>
    simp only [builtinArgs]
    split
    · rw [ha.written, pure_bind, pure_bind]
      exact (mapM_value_echoes has hpq).bind fun es es' _ _ hpq hes => .ret hpq (by rw [hes])
    · refine (ha.value p q hpq).bind fun e e' p' q' hpq he => ?_
      exact (mapM_value_echoes has hpq).bind fun es es' _ _ hpq hes =>
        .ret hpq (by rw [he, hes])

theorem builtinCall_echoes (hat : M.Facing at₁ at₂) {c c' : CallSite} (hc : Site M c c')
    (hpq : M.Agrees p q) :
    M.Echoes p q (builtinCall at₁ c) (builtinCall at₂ c') fun k k' => k' = k := by
  have hargs : ∀ {p q}, M.Agrees p q → M.Echoes p q
      (builtinArgs c.name.name c.args >>= fun args =>
        (pure ⟨c.name, args, c.isProcedure, c.usingCall, c.span⟩ : Compile Call))
      (builtinArgs c'.name.name c'.args >>= fun args =>
        pure ⟨c'.name, args, c'.isProcedure, c'.usingCall, c'.span⟩) fun k k' => k' = k := by
    intro p q hpq
    rw [hc.name, hc.isProcedure, hc.usingCall, hc.span]
    exact (builtinArgs_echoes _ hc.args hpq).bind fun args args' _ _ hpq hargs =>
      .ret hpq (by rw [hargs])
  unfold builtinCall
  rw [hc.name] at hargs ⊢
  dsimp only
  split
  · rw [hat.top]
    split
    · exact .modify_bind (hargs (hpq.aside rfl rfl rfl rfl))
    · exact hargs hpq
  · exact hargs hpq

/-! ### Functions of the script -/

/-- A call has the same fault at the second place, unless the function is being copied there. -/
theorem callFault?_facing (hat : M.Facing at₁ at₂) {f : FunctionDef} {c c' : CallSite} {use : Use}
    (hc : Site M c c') (h : callFault? at₁ f c use = none) :
    callFault? at₂ f c' use = none ∨
      ∃ chain, callFault? at₂ f c' use = some (.recursiveCall chain) ∧
        ∀ location, M.stop (.fault (.recursiveCall chain) location) := by
  have hlen : c'.args.length = c.args.length := hc.args.length_eq.symm
  have hnil : c'.args.isEmpty = c.args.isEmpty := by
    rw [Bool.eq_iff_iff, List.isEmpty_iff_length_eq_zero, List.isEmpty_iff_length_eq_zero, hlen]
  have hfresh : c.name.name ∉ at₁.stack := (faultless_of_callFault? h).fresh
  by_cases hmem : c.name.name ∈ at₂.stack
  · refine .inr ⟨" -> ".intercalate (at₂.stack ++ [c.name.name]), ?_,
      M.fresh hat.around hfresh hmem _⟩
    unfold callFault?
    dsimp only
    rw [hc.name, if_pos (by simpa using hmem)]
  · refine .inl ?_
    rw [← h]
    simp only [callFault?, hc.name, hc.usingCall, hlen, hnil, hat.top, List.contains_iff_mem, hmem,
      hfresh, if_false]

theorem enterCall_echoes (hat : M.Facing at₁ at₂) {c c' : CallSite} (use : Use) (hc : Site M c c')
    (hpq : M.Agrees p q) :
    M.Echoes p q (enterCall env at₁ c use) (enterCall env at₂ c' use)
      fun e e' => M.known e ∧ e.Same e' := by
  intro e p' hrun
  rw [enterCall_run] at hrun ⊢
  have hfind := hpq.function? c.name.name
  rw [hc.name, hc.usingCall, hat.top]
  generalize p.function? c.name.name = o, q.function? c.name.name = o' at hfind hrun
  cases hfind with
  | none => cases hrun
  | @some e e' he =>
    dsimp only at hrun ⊢
    split at hrun
    · cases hrun
    next hfault =>
    cases hrun
    rw [he.2.fn]
    rcases callFault?_facing hat hc hfault with hnone | ⟨chain, hsome, hstop⟩
    · rw [hnone]
      exact .inl ⟨_, _, rfl, hpq.entered .., he⟩
    · rw [hsome]
      exact .inr ⟨_, rfl, hstop _⟩

/-! ### Task functions -/

theorem storeArgs_echoes (hat : M.Facing at₁ at₂) (count : Nat) (span : Span)
    {as as' : List (Argument × ParamKind)}
    (h : List.Forall₂ (fun a a' => Arg M a.1 a'.1 ∧ a'.2 = a.2) as as') (i : Nat)
    (hpq : M.Agrees p q) :
    M.Echoes p q (storeArgs at₁ count span i as) (storeArgs at₂ count span i as')
      (StmtsRetraced M.traces) := by
  induction h generalizing p q i with
  | nil => exact .ret hpq .nil
  | @cons a a' as as' ha _ ih =>
    obtain ⟨arg, kind⟩ := a
    obtain ⟨arg', kind'⟩ := a'
    obtain ⟨ha, rfl⟩ := ha
    simp only [storeArgs, Place.stmt]
    split
    · refine (ha.value p q hpq).bind fun e e' p' q' hpq he => ?_
      subst he
      simp only [pure_bind]
      refine (ih (i + 1) hpq).bind fun ss ss' _ _ hpq hss => .ret hpq ?_
      exact .cons (.assign hat.traces) hss
    · simp only [pure_bind]
      exact (ih (i + 1) hpq).bind fun ss ss' _ _ hpq hss => .ret hpq hss

theorem loadArgs_echoes (hat : M.Facing at₁ at₂) (count : Nat) (span : Span)
    {as as' : List (Argument × ParamKind)}
    (h : List.Forall₂ (fun a a' => Arg M a.1 a'.1 ∧ a'.2 = a.2) as as') (i : Nat)
    (hpq : M.Agrees p q) :
    M.Echoes p q (loadArgs at₁ count span i as) (loadArgs at₂ count span i as')
      (StmtsRetraced M.traces) := by
  induction h generalizing p q i with
  | nil => exact .ret hpq .nil
  | @cons a a' as as' ha _ ih =>
    obtain ⟨⟨written, value, target⟩, kind⟩ := a
    obtain ⟨⟨written', value', target'⟩, kind'⟩ := a'
    obtain ⟨ha, rfl⟩ := ha
    have hskip : ∀ {p q}, M.Agrees p q →
        M.Echoes p q (loadArgs at₁ count span (i + 1) as >>= fun ss => pure ([] ++ ss))
          (loadArgs at₂ count span (i + 1) as' >>= fun ss => pure ([] ++ ss))
          (StmtsRetraced M.traces) :=
      fun hpq => (ih (i + 1) hpq).bind fun ss ss' _ _ hpq hss => .ret hpq hss
    have htarget := ha.target
    dsimp only at htarget
    cases htarget with
    | none => cases hk : kind'.copiesOut <;> simpa [loadArgs, hk] using hskip hpq
    | some htarget =>
      cases hk : kind'.copiesOut with
      | false => simpa [loadArgs, hk] using hskip hpq
      | true =>
        simp only [loadArgs, Place.stmt, hk]
        refine (htarget p q hpq).bind fun v v' p' q' hpq hv => ?_
        subst hv
        simp only [pure_bind]
        refine (ih (i + 1) hpq).bind fun ss ss' _ _ hpq hss => .ret hpq ?_
        exact .cons (.assign hat.traces) hss

/-- **What is passed to two task functions with the same parameters**, when the arguments belong
together, and the variables that take the results. -/
theorem forall₂_passed {R : Argument → Argument → Prop} {as as' : List Argument}
    (kinds : List ParamKind) (h : List.Forall₂ R as as') {captured captured' : Option VarRef}
    (hcaptured : Option.Rel (fun v v' => R ⟨v.toExpr, pure v.toExpr, some (pure v)⟩
      ⟨v'.toExpr, pure v'.toExpr, some (pure v')⟩) captured captured') :
    List.Forall₂ (fun a a' => R a.1 a'.1 ∧ a'.2 = a.2)
      (as.zip kinds ++ (captured.map fun v =>
        ((⟨v.toExpr, pure v.toExpr, some (pure v)⟩ : Argument), ParamKind.out)).toList)
      (as'.zip kinds ++ (captured'.map fun v =>
        ((⟨v.toExpr, pure v.toExpr, some (pure v)⟩ : Argument), ParamKind.out)).toList) := by
  refine List.rel_append ?_ ?_
  · induction h generalizing kinds with
    | nil => exact .nil
    | cons ha _ ih =>
      cases kinds with
      | nil => exact .nil
      | cons k ks => exact .cons ⟨ha, rfl⟩ (ih ks)
  · cases hcaptured with
    | none => exact .nil
    | some hv => exact .cons ⟨hv, rfl⟩ .nil

theorem taskfuncCall_echoes (hat : M.Facing at₁ at₂) (f : FunctionDef) {c c' : CallSite}
    (hc : Site M c c') (captured : Option VarRef) (hpq : M.Agrees p q) :
    M.Echoes p q (taskfuncCall at₁ f c captured) (taskfuncCall at₂ f c' captured)
      (StmtsRetraced M.traces) := by
  have hcaptured : Option.Rel (fun v v' : VarRef => Arg M ⟨v.toExpr, pure v.toExpr, some (pure v)⟩
      ⟨v'.toExpr, pure v'.toExpr, some (pure v')⟩) captured captured := by
    cases captured with
    | none => exact .none
    | some v => exact .some (arg_captured v)
  have hargs := forall₂_passed (f.params.map (·.kind)) hc.args hcaptured
  simp only [taskfuncCall]
  rw [← hargs.length_eq, hc.name, hc.span]
  generalize HAdd.hAdd (List.length _) _ = count
  split
  · exact Echoes.fail
  · refine .modify_bind ?_
    have hmarked : M.Agrees { p with calls := p.calls.markExplicit c.name.name }
        { q with calls := q.calls.markExplicit c.name.name } := hpq.aside rfl rfl rfl rfl
    refine (storeArgs_echoes hat count c.span hargs 0 hmarked).bind
      fun stores stores' p' q' hpq hstores => ?_
    refine (loadArgs_echoes hat _ _ hargs 0 hpq).bind fun loads loads' _ _ hpq hloads =>
      .ret hpq ?_
    exact (hstores.append (.single (.call hat.traces))).append hloads

/-! ### Copies -/

theorem argumentSubstitution_echoes (params : List Param) {as as' : List Argument}
    (h : List.Forall₂ (Arg M) as as') (hpq : M.Agrees p q) :
    M.Echoes p q (argumentSubstitution (params.zip as)) (argumentSubstitution (params.zip as'))
      fun s s' => s' = s := by
  induction h generalizing p q params with
  | nil =>
    rw [List.zip_nil_right]
    exact .ret hpq rfl
  | cons ha _ ih =>
    cases params with
    | nil => exact .ret hpq rfl
    | cons param params =>
      simp only [List.zip_cons_cons, argumentSubstitution]
      rw [ha.written]
      split
      · simp only [pure_bind]
        exact (ih params hpq).bind fun s s' _ _ hpq hs => .ret hpq (by rw [hs])
      · refine (ha.value p q hpq).bind fun e e' p' q' hpq he => ?_
        exact (ih params hpq).bind fun s s' _ _ hpq hs => .ret hpq (by rw [he, hs])

/-- **How copied bodies are treated in the second expansion echoes the first one.** -/
def Answers (M : Mirror env) (inner inner' : Expander) : Prop :=
  ∀ at₁ at₂ body p q, M.Facing at₁ at₂ → M.ready body → M.Agrees p q →
    M.Echoes p q (inner at₁ body) (inner' at₂ body) (StmtsRetraced M.traces)

variable {inner inner' : Expander}

theorem takeDeclarations_echoes (hat : M.Facing at₁ at₂) {e e' : FunctionEntry} (he : M.known e)
    (hsame : e.Same e') (hpq : M.Agrees p q) :
    M.Echoes p q (takeDeclarations at₁ e) (takeDeclarations at₂ e')
      fun ss ss' => ss' = ss ∧ M.ready ss := by
  unfold takeDeclarations
  rw [hat.top, hsame.name, hsame.globals, hsame.locals]
  split
  · refine .modify_bind (.ret ?_ ⟨rfl, M.readyDecls he⟩)
    exact hpq.updateFunction _ fun _ _ hknown hsame => ⟨M.drained hknown, hsame.fn, rfl, rfl⟩
  · exact .ret hpq ⟨rfl, M.readyNil⟩

/-- **A copy of a body echoes** the one at the other place. -/
theorem inlineBody_echoes (hinner : M.Answers inner inner') (hat : M.Facing at₁ at₂)
    {e e' : FunctionEntry} (he : M.known e) (hsame : e.Same e') {c c' : CallSite}
    (hc : Site M c c') (result : Option VarRef) (hpq : M.Agrees p q) :
    M.Echoes p q (inlineBody env inner at₁ e c result) (inlineBody env inner' at₂ e' c' result)
      (StmtsRetraced M.traces) := by
  unfold inlineBody
  rw [hsame.fn, hc.span, hsame.name]
  refine (takeDeclarations_echoes hat he hsame hpq).bind fun decls decls' p₁ q₁ hpq hdecls => ?_
  obtain ⟨rfl, hready⟩ := hdecls
  refine (hinner at₁ at₂ _ p₁ q₁ hat hready hpq).bind fun decls decls' p₂ q₂ hpq hdecls => ?_
  refine (argumentSubstitution_echoes _ hc.args hpq).bind fun params params' p₃ q₃ hpq hs => ?_
  subst hs
  dsimp only
  refine .lift_bind fun body hbody => ⟨body, hbody, ?_⟩
  refine (hinner _ _ body p₃ q₃ (hat.push e.name) (M.readyBody he hbody) hpq).bind
    fun copy copy' _ _ hpq hcopy => .ret hpq (hdecls.append hcopy)

/-! ### Calls -/

theorem reachesBuiltin_agrees {c c' : CallSite} (hc : Site M c c') (hpq : M.Agrees p q) :
    reachesBuiltin env q c' = reachesBuiltin env p c := by
  simp only [reachesBuiltin, hc.name, hc.usingCall, hpq.isBuiltinCall]

theorem callStmts_echoes (hinner : M.Answers inner inner') (hat : M.Facing at₁ at₂)
    {c c' : CallSite} (hc : Site M c c') (target : Option VarRef) (hpq : M.Agrees p q) :
    M.Echoes p q (callStmts env inner at₁ c target) (callStmts env inner' at₂ c' target)
      (StmtsRetraced M.traces) := by
  rw [callStmts_eq, callStmts_eq]
  refine .get_bind ?_
  rw [reachesBuiltin_agrees hc hpq]
  split
  · rw [hc.span]
    refine (builtinCall_echoes hat hc hpq).bind fun k k' _ _ hpq hk => .ret hpq ?_
    subst hk
    cases target with
    | none => exact .single (.call hat.traces)
    | some v => exact .single (.assign hat.traces)
  · dsimp only
    refine (enterCall_echoes hat _ hc hpq).bind fun e e' p₁ q₁ hpq he => ?_
    rw [he.2.fn, hc.usingCall, hc.name, hc.isProcedure, hc.span]
    split
    · exact taskfuncCall_echoes hat e.fn hc target hpq
    · split
      · have hwritten : c'.args.map (·.written) = c.args.map (·.written) :=
          map_eq_of_forall₂ hc.args fun _ _ ha => ha.written
        rw [hwritten]
        exact .ret hpq (.single (.call hat.traces))
      · exact inlineBody_echoes hinner hat he.1 he.2 hc target hpq

theorem callExpr_echoes (hinner : M.Answers inner inner') (hat : M.Facing at₁ at₂)
    {c c' : CallSite} (hc : Site M c c') (hpq : M.Agrees p q) :
    M.Echoes p q (callExpr env inner at₁ c) (callExpr env inner' at₂ c') fun e e' => e' = e := by
  rw [callExpr_eq, callExpr_eq]
  refine .get_bind ?_
  rw [reachesBuiltin_agrees hc hpq]
  split
  · exact (builtinCall_echoes hat hc hpq).bind fun k k' _ _ hpq hk => .ret hpq (by rw [hk])
  · refine (enterCall_echoes hat _ hc hpq).bind fun e e' p₁ q₁ hpq he => ?_
    refine (inlineBody_echoes hinner hat he.1 he.2 hc none hpq).bind
      fun body body' p₂ q₂ hpq hbody => ?_
    rw [he.2.fn, hbody.resultOf?]
    split
    · exact .ret hpq rfl
    · exact .fail

theorem getterSite_echoes (at₂ : Place) (hpq : M.Agrees p q) {i : Ident} {as as' : List Argument}
    {span : Span} (has : List.Forall₂ (Arg M) as as') {c : CallSite}
    (h : getterSite env at₁ p i as span = .ok c) :
    ∃ c', getterSite env at₂ q i as' span = .ok c' ∧ Site M c c' := by
  unfold getterSite at h ⊢
  dsimp only at h ⊢
  rw [hpq.isUserFunction]
  split at h
  · next huser =>
    cases h
    exact ⟨_, if_pos huser, rfl, rfl, rfl, rfl, has⟩
  · cases h

theorem setterSite_echoes (at₂ : Place) (hpq : M.Agrees p q) {target : VarRef} {as as' : List Argument}
    {span : Span} (has : List.Forall₂ (Arg M) as as') {c : CallSite}
    (h : setterSite env at₁ p target as span = .ok c) :
    ∃ c', setterSite env at₂ q target as' span = .ok c' ∧ Site M c c' := by
  unfold setterSite at h ⊢
  dsimp only at h ⊢
  rw [hpq.isUserFunction]
  split at h
  · next huser =>
    cases h
    exact ⟨_, if_pos huser, rfl, rfl, rfl, rfl, has⟩
  · cases h

/-! ### Expressions -/

mutual

/-- **An expression, expanded, echoes** the one at the other place. -/
theorem expr_echoes (hinner : M.Answers inner inner') (hat : M.Facing at₁ at₂) :
    ∀ (e : Expr) (p q : Program), M.Agrees p q →
      M.Echoes p q (expr env inner at₁ e) (expr env inner' at₂ e) fun e e' => e' = e
  | .binary op left right span, p, q, hpq => by
    simp only [expr]
    refine (expr_echoes hinner hat left p q hpq).bind fun l l' p₁ q₁ hpq hl => ?_
    exact (expr_echoes hinner hat right p₁ q₁ hpq).bind fun r r' _ _ hpq hr =>
      .ret hpq (by rw [hl, hr])
  | .unary op operand span, p, q, hpq => by
    simp only [expr]
    exact (expr_echoes hinner hat operand p q hpq).bind fun o o' _ _ hpq ho =>
      .ret hpq (by rw [ho])
  | .var i subscripts span, p, q, hpq => by
    simp only [expr]
    refine .get_bind ?_
    rw [hpq.isPropertyRef, hpq.namesFunction]
    split
    · refine .lift_bind fun c hc => ?_
      obtain ⟨c', hc', hsite⟩ :=
        getterSite_echoes at₂ hpq (arguments_pairs hinner hat subscripts) hc
      exact ⟨c', hc', callExpr_echoes hinner hat hsite hpq⟩
    · split
      · exact callExpr_echoes hinner hat ⟨rfl, rfl, rfl, rfl, .nil⟩ hpq
      · exact (exprs_echoes hinner hat subscripts p q hpq).bind fun es es' _ _ hpq hes =>
          .ret hpq (by rw [hes])
  | .call name args isProcedure usingCall span, p, q, hpq => by
    simp only [expr]
    exact callExpr_echoes hinner hat
      ⟨rfl, rfl, rfl, rfl, arguments_pairs hinner hat args⟩ hpq
  | .int _ _, p, q, hpq | .real _ _, p, q, hpq | .str _ _, p, q, hpq | .bool _ _, p, q, hpq
  | .raw _ _, p, q, hpq => by
    simp only [expr]
    exact .ret hpq rfl

theorem exprs_echoes (hinner : M.Answers inner inner') (hat : M.Facing at₁ at₂) :
    ∀ (es : List Expr) (p q : Program), M.Agrees p q →
      M.Echoes p q (exprs env inner at₁ es) (exprs env inner' at₂ es) fun es es' => es' = es
  | [], p, q, hpq => by
    simp only [exprs]
    exact .ret hpq rfl
  | e :: es, p, q, hpq => by
    simp only [exprs]
    refine (expr_echoes hinner hat e p q hpq).bind fun e e' p₁ q₁ hpq he => ?_
    exact (exprs_echoes hinner hat es p₁ q₁ hpq).bind fun es es' _ _ hpq hes =>
      .ret hpq (by rw [he, hes])

theorem arguments_pairs (hinner : M.Answers inner inner') (hat : M.Facing at₁ at₂) :
    ∀ (es : List Expr),
      List.Forall₂ (Arg M) (arguments env inner at₁ es) (arguments env inner' at₂ es)
  | [] => by
    simp only [arguments]
    exact .nil
  | e :: es => by
    simp only [arguments]
    refine .cons ⟨rfl, expr_echoes hinner hat e, targetOf?_pairs hinner hat e⟩
      (arguments_pairs hinner hat es)

theorem targetOf?_pairs (hinner : M.Answers inner inner') (hat : M.Facing at₁ at₂) :
    ∀ (e : Expr), Option.Rel
      (fun x x' => ∀ p q, M.Agrees p q → M.Echoes p q x x' fun v v' => v' = v)
      (targetOf? env inner at₁ e) (targetOf? env inner' at₂ e)
  | .var i subscripts span => by
    simp only [targetOf?]
    refine .some fun p q hpq => ?_
    exact (exprs_echoes hinner hat subscripts p q hpq).bind fun es es' _ _ hpq hes =>
      .ret hpq (by rw [hes])
  | .binary _ _ _ _ | .unary _ _ _ | .call _ _ _ _ _ | .int _ _ | .real _ _ | .str _ _
  | .bool _ _ | .raw _ _ => by
    simp only [targetOf?]
    exact .none

end

/-! ### Assignments and declarations -/

theorem varRef_echoes (hinner : M.Answers inner inner') (hat : M.Facing at₁ at₂) (v : VarRef)
    (hpq : M.Agrees p q) :
    M.Echoes p q (varRef env inner at₁ v) (varRef env inner' at₂ v) fun v v' => v' = v := by
  unfold varRef
  exact (exprs_echoes hinner hat v.subscripts p q hpq).bind fun es es' _ _ hpq hes =>
    .ret hpq (by rw [hes])

/-- The call that a right side is. -/
theorem siteOfValue?_echoes (hinner : M.Answers inner inner') (hat : M.Facing at₁ at₂)
    (hpq : M.Agrees p q) {value : Expr} {o : Option CallSite}
    (h : siteOfValue? env inner at₁ p value = .ok o) :
    ∃ o', siteOfValue? env inner' at₂ q value = .ok o' ∧ Option.Rel (Site M) o o' := by
  cases value with
  | call name args isProcedure usingCall span =>
    cases h
    exact ⟨_, rfl, .some ⟨rfl, rfl, rfl, rfl, arguments_pairs hinner hat args⟩⟩
  | var i subscripts span =>
    simp only [siteOfValue?] at h ⊢
    rw [hpq.isPropertyRef, hpq.namesFunction]
    split at h
    · next hprop =>
      obtain ⟨c, hc, h⟩ := Except.bind_eq_ok.mp h
      cases h
      obtain ⟨c', hc', hsite⟩ :=
        getterSite_echoes at₂ hpq (arguments_pairs hinner hat subscripts) hc
      refine ⟨some c', ?_, .some hsite⟩
      rw [if_pos hprop, hc']
      rfl
    · next hprop =>
      rw [if_neg hprop]
      split at h
      · next hname =>
        cases h
        exact ⟨_, if_pos hname, .some ⟨rfl, rfl, rfl, rfl, .nil⟩⟩
      · next hname =>
        cases h
        exact ⟨_, if_neg hname, .none⟩
  | binary _ _ _ _ | unary _ _ _ | int _ _ | real _ _ | str _ _ | bool _ _ | raw _ _ =>
    cases h
    exact ⟨_, rfl, .none⟩

theorem assignment_echoes (hinner : M.Answers inner inner') (hat : M.Facing at₁ at₂)
    (target : VarRef) (value : Expr) (span : Span) (hpq : M.Agrees p q) :
    M.Echoes p q (assignment env inner at₁ target value span)
      (assignment env inner' at₂ target value span) (StmtsRetraced M.traces) := by
  unfold assignment
  refine .get_bind ?_
  rw [hpq.isPropertyRef]
  split
  · refine .lift_bind fun c hc => ?_
    obtain ⟨c', hc', hsite⟩ := setterSite_echoes at₂ hpq
      (arguments_pairs hinner hat (target.subscripts ++ [value])) hc
    exact ⟨c', hc', callStmts_echoes hinner hat hsite none hpq⟩
  · refine .lift_bind fun o ho => ?_
    obtain ⟨o', ho', hrel⟩ := siteOfValue?_echoes hinner hat hpq ho
    refine ⟨o', ho', ?_⟩
    cases hrel with
    | none =>
      refine (varRef_echoes hinner hat target hpq).bind fun v v' p₁ q₁ hpq hv => ?_
      refine (expr_echoes hinner hat value p₁ q₁ hpq).bind fun e e' _ _ hpq he => .ret hpq ?_
      rw [hv, he]
      exact .single (.assign hat.traces)
    | @some c c' hsite =>
      dsimp only
      rw [reachesBuiltin_agrees hsite hpq]
      split
      · refine (varRef_echoes hinner hat target hpq).bind fun v v' p₁ q₁ hpq hv => ?_
        refine (callExpr_echoes hinner hat hsite hpq).bind fun e e' _ _ hpq he => .ret hpq ?_
        rw [hv, he]
        exact .single (.assign hat.traces)
      · refine (varRef_echoes hinner hat target hpq).bind fun v v' p₁ q₁ hpq hv => ?_
        subst hv
        exact callStmts_echoes hinner hat hsite (some v') hpq

theorem option_expr_echoes (hinner : M.Answers inner inner') (hat : M.Facing at₁ at₂)
    (o : Option Expr) (hpq : M.Agrees p q) :
    M.Echoes p q (o.mapM (expr env inner at₁)) (o.mapM (expr env inner' at₂))
      fun o o' => o' = o :=
  .option_mapM hpq o fun e _ => expr_echoes hinner hat e p q hpq

theorem initializer_echoes (hinner : M.Answers inner inner') (hat : M.Facing at₁ at₂)
    (i : Initializer) (hpq : M.Agrees p q) :
    M.Echoes p q (initializer env inner at₁ i) (initializer env inner' at₂ i)
      fun i i' => i' = i := by
  cases i with
  | single e =>
    exact (expr_echoes hinner hat e p q hpq).bind fun e e' _ _ hpq he => .ret hpq (by rw [he])
  | list es =>
    exact (exprs_echoes hinner hat es p q hpq).bind fun es es' _ _ hpq hes =>
      .ret hpq (by rw [hes])

theorem declaration_echoes (hinner : M.Answers inner inner') (hat : M.Facing at₁ at₂)
    (d : Declaration) (hpq : M.Agrees p q) :
    M.Echoes p q (declaration env inner at₁ d) (declaration env inner' at₂ d)
      fun d d' => d' = d := by
  unfold declaration
  refine (option_expr_echoes hinner hat d.size hpq).bind fun size size' p₁ q₁ hpq hsize => ?_
  refine (exprs_echoes hinner hat d.params p₁ q₁ hpq).bind
    fun params params' p₂ q₂ hpq hparams => ?_
  refine (Echoes.option_mapM hpq d.init fun i _ => initializer_echoes hinner hat i hpq).bind
    fun init init' _ _ hpq hinit => .ret hpq ?_
  rw [hsize, hparams, hinit]

/-! ### Statements -/

mutual

/-- A statement, expanded, echoes one with other traces. -/
theorem stmt_echoes (hinner : M.Answers inner inner') {at₁ at₂ : Place}
    (hat : M.Facing at₁ at₂) :
    ∀ {s s' : Stmt}, s.Retraced M.traces s' → ∀ p q, M.Agrees p q →
      M.Echoes p q (stmt env inner at₁ s) (stmt env inner' at₂ s') (StmtsRetraced M.traces)
  | _, _, .call (c := c) ht, p, q, hpq => by
    simp only [stmt]
    have hat' := hat.within ht
    have hsite : Site M (siteOf env inner _ c) (siteOf env inner' _ c) :=
      ⟨rfl, rfl, rfl, rfl, arguments_pairs hinner hat' c.args⟩
    exact callStmts_echoes hinner hat' hsite none hpq
  | _, _, .assign ht, p, q, hpq => by
    simp only [stmt]
    exact assignment_echoes hinner (hat.within ht) _ _ _ hpq
  | _, _, .declare ht, p, q, hpq => by
    simp only [stmt]
    refine (declaration_echoes hinner (hat.within ht) _ hpq).bind fun d d' _ _ hpq hd =>
      .ret hpq ?_
    rw [hd]
    exact .single (.declare ht)
  | _, _, .whileLoop ht hb, p, q, hpq => by
    simp only [stmt]
    have hat' := hat.within ht
    refine (expr_echoes hinner hat' _ p q hpq).bind fun c c' p₁ q₁ hpq hc => ?_
    refine (stmts_echoes hinner hat' hb p₁ q₁ hpq).bind fun b b' _ _ hpq hb => .ret hpq ?_
    rw [hc]
    exact .single (.whileLoop ht hb)
  | _, _, .forLoop ht hb, p, q, hpq => by
    simp only [stmt]
    have hat' := hat.within ht
    refine (varRef_echoes hinner hat' _ hpq).bind fun v v' p₁ q₁ hpq hv => ?_
    refine (expr_echoes hinner hat' _ p₁ q₁ hpq).bind fun a a' p₂ q₂ hpq ha => ?_
    refine (expr_echoes hinner hat' _ p₂ q₂ hpq).bind fun z z' p₃ q₃ hpq hz => ?_
    refine (option_expr_echoes hinner hat' _ hpq).bind fun o o' p₄ q₄ hpq ho => ?_
    refine (stmts_echoes hinner hat' hb p₄ q₄ hpq).bind fun b b' _ _ hpq hb => .ret hpq ?_
    rw [hv, ha, hz, ho]
    exact .single (.forLoop ht hb)
  | _, _, .family ht hb, p, q, hpq => by
    simp only [stmt]
    exact (stmts_echoes hinner (hat.within ht) hb p q hpq).bind fun b b' _ _ hpq hb =>
      .ret hpq (.single (.family ht hb))
  | _, _, .ifChain ht hbs ho, p, q, hpq => by
    simp only [stmt]
    have hat' := hat.within ht
    refine (branches_echoes hinner hat' hbs p q hpq).bind fun bs bs' p₁ q₁ hpq hbs => ?_
    exact (stmts_echoes hinner hat' ho p₁ q₁ hpq).bind fun o o' _ _ hpq ho =>
      .ret hpq (.single (.ifChain ht hbs ho))
  | _, _, .select ht hcs, p, q, hpq => by
    simp only [stmt]
    have hat' := hat.within ht
    refine (expr_echoes hinner hat' _ p q hpq).bind fun e e' p₁ q₁ hpq he => ?_
    refine (cases_echoes hinner hat' hcs p₁ q₁ hpq).bind fun cs cs' _ _ hpq hcs => .ret hpq ?_
    rw [he]
    exact .single (.select ht hcs)
  | _, _, .property ht hfs, p, q, hpq => by
    simp only [stmt]
    exact (functions_echoes hinner (hat.within ht) hfs p q hpq).bind fun fs fs' _ _ hpq hfs =>
      .ret hpq (.single (.property ht hfs))
  | _, _, .synonym ht, p, q, hpq => by
    simp only [stmt]
    refine (varRef_echoes hinner (hat.within ht) _ hpq).bind fun v v' _ _ hpq hv => .ret hpq ?_
    rw [hv]
    exact .single (.synonym ht)

/-- **Statements, expanded, echo those with other traces.** -/
theorem stmts_echoes (hinner : M.Answers inner inner') {at₁ at₂ : Place}
    (hat : M.Facing at₁ at₂) :
    ∀ {ss ss' : List Stmt}, StmtsRetraced M.traces ss ss' → ∀ p q, M.Agrees p q →
      M.Echoes p q (stmts env inner at₁ ss) (stmts env inner' at₂ ss') (StmtsRetraced M.traces)
  | _, _, .nil, p, q, hpq => by
    simp only [stmts]
    exact .ret hpq .nil
  | _, _, .cons hs hss, p, q, hpq => by
    simp only [stmts]
    refine (stmt_echoes hinner hat hs p q hpq).bind fun first first' p₁ q₁ hpq hfirst => ?_
    exact (stmts_echoes hinner hat hss p₁ q₁ hpq).bind fun rest rest' _ _ hpq hrest =>
      .ret hpq (hfirst.append hrest)

theorem branches_echoes (hinner : M.Answers inner inner') {at₁ at₂ : Place}
    (hat : M.Facing at₁ at₂) :
    ∀ {bs bs' : List Branch}, BranchesRetraced M.traces bs bs' → ∀ p q, M.Agrees p q →
      M.Echoes p q (branches env inner at₁ bs) (branches env inner' at₂ bs')
        (BranchesRetraced M.traces)
  | _, _, .nil, p, q, hpq => by
    simp only [branches]
    exact .ret hpq .nil
  | _, _, .cons hb hbs, p, q, hpq => by
    simp only [branches]
    refine (expr_echoes hinner hat _ p q hpq).bind fun c c' p₁ q₁ hpq hc => ?_
    refine (stmts_echoes hinner hat hb p₁ q₁ hpq).bind fun b b' p₂ q₂ hpq hb => ?_
    refine (branches_echoes hinner hat hbs p₂ q₂ hpq).bind fun bs bs' _ _ hpq hbs => .ret hpq ?_
    rw [hc]
    exact .cons hb hbs

theorem cases_echoes (hinner : M.Answers inner inner') {at₁ at₂ : Place}
    (hat : M.Facing at₁ at₂) :
    ∀ {cs cs' : List Case}, CasesRetraced M.traces cs cs' → ∀ p q, M.Agrees p q →
      M.Echoes p q (cases env inner at₁ cs) (cases env inner' at₂ cs') (CasesRetraced M.traces)
  | _, _, .nil, p, q, hpq => by
    simp only [cases]
    exact .ret hpq .nil
  | _, _, .cons hb hcs, p, q, hpq => by
    simp only [cases]
    refine (expr_echoes hinner hat _ p q hpq).bind fun a a' p₁ q₁ hpq ha => ?_
    refine (option_expr_echoes hinner hat _ hpq).bind fun o o' p₂ q₂ hpq ho => ?_
    refine (stmts_echoes hinner hat hb p₂ q₂ hpq).bind fun b b' p₃ q₃ hpq hb => ?_
    refine (cases_echoes hinner hat hcs p₃ q₃ hpq).bind fun cs cs' _ _ hpq hcs => .ret hpq ?_
    rw [ha, ho]
    exact .cons hb hcs

theorem functions_echoes (hinner : M.Answers inner inner') {at₁ at₂ : Place}
    (hat : M.Facing at₁ at₂) :
    ∀ {fs fs' : List FunctionDef}, FunctionsRetraced M.traces fs fs' → ∀ p q, M.Agrees p q →
      M.Echoes p q (functions env inner at₁ fs) (functions env inner' at₂ fs')
        (FunctionsRetraced M.traces)
  | _, _, .nil, p, q, hpq => by
    simp only [functions]
    exact .ret hpq .nil
  | _, _, .cons hb hfs, p, q, hpq => by
    simp only [functions]
    refine (stmts_echoes hinner hat hb p q hpq).bind fun b b' p₁ q₁ hpq hb => ?_
    exact (functions_echoes hinner hat hfs p₁ q₁ hpq).bind fun fs fs' _ _ hpq hfs =>
      .ret hpq (.cons hb hfs)

end

end Mirror

end Inlining

end FlatScript
