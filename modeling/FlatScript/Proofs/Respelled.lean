import FlatScript.Proofs.LetterCase
import FlatScript.Proofs.Lowering.Ledger
import FlatScript.Proofs.Renaming

/-!
# Scripts with respelled references

A reference is written in some letter case, and most names are found in any. Two scripts that differ
in the spelling of references only are compared here: `FlatScript.StmtsRespelled` relates their
statements for any relation between the references, which may depend on the function around them,
`FlatScript.Home`.

A step that changes the leaves of statements ends alike for both (`FlatScript.Together`) when it
does so for the leaves; this is `FlatScript.LeafMap.Keeps.stmts`. What it leaves is compared by a
renaming that does not tell the spellings apart.
-/

namespace FlatScript

/-! ### Two steps -/

section Together

variable {ε α α' β β' : Type}

/-- **Two steps end alike**: both with results, which are related, or both with errors. -/
inductive Together (Q : α → α' → Prop) : Except ε α → Except ε α' → Prop
  | ok {a : α} {a' : α'} (h : Q a a') : Together Q (.ok a) (.ok a')
  | error {e e' : ε} : Together Q (.error e) (.error e')

namespace Together

variable {Q : α → α' → Prop} {R : β → β' → Prop} {x : Except ε α} {x' : Except ε α'}

theorem ret {a : α} {a' : α'} (h : Q a a') : Together Q (pure a : Except ε α) (pure a') := .ok h

theorem bind {f : α → Except ε β} {f' : α' → Except ε β'} (hx : Together Q x x')
    (hf : ∀ a a', Q a a' → Together R (f a) (f' a')) : Together R (x >>= f) (x' >>= f') := by
  cases hx with
  | ok h => exact hf _ _ h
  | error => exact .error

theorem imp {P : α → α' → Prop} (hx : Together Q x x') (h : ∀ a a', Q a a' → P a a') :
    Together P x x' := by
  cases hx with
  | ok hQ => exact .ok (h _ _ hQ)
  | error => exact .error

/-- The results of two steps that end alike. -/
theorem results {a : α} {a' : α'} (h : Together Q x x') (hx : x = .ok a) (hx' : x' = .ok a') :
    Q a a' := by
  subst hx hx'
  cases h
  assumption

/-- The last step. -/
theorem map {f : α → β} {f' : α' → β'} (hx : Together Q x x')
    (hf : ∀ a a', Q a a' → R (f a) (f' a')) :
    Together R (x >>= fun a => pure (f a)) (x' >>= fun a => pure (f' a)) :=
  hx.bind fun a a' h => ret (hf a a' h)

/-- Steps on the members of two lists. -/
theorem list {γ γ' : Type} {S : γ → γ' → Prop} {l : List γ} {l' : List γ'} {f : γ → Except ε α}
    {f' : γ' → Except ε α'} (h : List.Forall₂ S l l')
    (hf : ∀ c c', S c c' → Together Q (f c) (f' c')) :
    Together (List.Forall₂ Q) (l.mapM f) (l'.mapM f') := by
  induction h with
  | nil => exact ret .nil
  | cons hc _ ih =>
    rw [List.mapM_cons, List.mapM_cons]
    exact (hf _ _ hc).bind fun a a' ha => ih.map fun as as' has => .cons ha has

/-- A step on two values that may be missing. -/
theorem option {γ γ' : Type} {S : γ → γ' → Prop} {o : Option γ} {o' : Option γ'} {f : γ → Except ε α}
    {f' : γ' → Except ε α'} (h : Option.Rel S o o')
    (hf : ∀ c c', S c c' → Together Q (f c) (f' c')) :
    Together (Option.Rel Q) (o.mapM f) (o'.mapM f') := by
  cases h with
  | none => exact ret .none
  | some hc =>
    rw [Option.mapM_some, Option.mapM_some, map_eq_pure_bind, map_eq_pure_bind]
    exact (hf _ _ hc).map fun a a' ha => .some ha

end Together

end Together

/-! ### Where references stand -/

/-- **The names that are known only in the function around a reference.** -/
structure Home where
  /-- Whether there is a function around it. -/
  inFunction : Bool
  /-- The parameters and the result, with their sigils. -/
  params : List String
  /-- The variables that are declared in its body, without sigils. -/
  locals : List String

namespace Home

/-- A callback has no names of its own. -/
def callback : Home := ⟨false, [], []⟩

/-- The names of a function. -/
def of (env : Env) (f : FunctionDef) : Home :=
  ⟨true, f.paramNames, (Lowering.stmtsFootprint env [] f.body).declares⟩

/-- The variable that a property stands for is also referred to in the functions of the property. -/
def withIndices (home : Home) (indices : List Ident) : Home :=
  ⟨true, home.params ++ (indices.map Ident.full ++ ["result", "value_to_set"]), home.locals⟩

end Home

/-! ### Respelled expressions -/

section Expressions

variable (R : Ident → Ident → Prop)

mutual

/-- **Expressions that differ in references only.** -/
inductive Expr.Respelled : Expr → Expr → Prop
  | binary {op left left' right right' span} (hleft : Expr.Respelled left left')
    (hright : Expr.Respelled right right') :
    Expr.Respelled (.binary op left right span) (.binary op left' right' span)
  | unary {op operand operand' span} (hoperand : Expr.Respelled operand operand') :
    Expr.Respelled (.unary op operand span) (.unary op operand' span)
  | var {i i' es es' span} (hi : R i i') (hes : ExprsRespelled es es') :
    Expr.Respelled (.var i es span) (.var i' es' span)
  | call {name args args' isProcedure usingCall span} (hargs : ExprsRespelled args args') :
    Expr.Respelled (.call name args isProcedure usingCall span)
      (.call name args' isProcedure usingCall span)
  | literal {e} (h : e.isLiteral = true) : Expr.Respelled e e

/-- Lists of expressions that differ in references only. -/
inductive ExprsRespelled : List Expr → List Expr → Prop
  | nil : ExprsRespelled [] []
  | cons {e e' es es'} (he : Expr.Respelled e e') (hes : ExprsRespelled es es') :
    ExprsRespelled (e :: es) (e' :: es')

end

/-- References that differ in letter case, as do those in their subscripts. -/
structure VarRef.Respelled (v v' : VarRef) : Prop where
  ident : R v.ident v'.ident
  subscripts : ExprsRespelled R v.subscripts v'.subscripts
  span : v'.span = v.span

/-- Calls that differ in references only. -/
structure Call.Respelled (c c' : Call) : Prop where
  args : ExprsRespelled R c.args c'.args
  rest : c' = { c with args := c'.args }

/-- Values of declarations that differ in references only. -/
inductive Initializer.Respelled : Initializer → Initializer → Prop
  | single {e e'} (he : Expr.Respelled R e e') : Initializer.Respelled (.single e) (.single e')
  | list {es es'} (hes : ExprsRespelled R es es') : Initializer.Respelled (.list es) (.list es')

/-- Declarations that differ in references only. -/
structure Declaration.Respelled (d d' : Declaration) : Prop where
  name : d'.name = d.name
  modifiers : d'.modifiers = d.modifiers
  size : Option.Rel (Expr.Respelled R) d.size d'.size
  params : ExprsRespelled R d.params d'.params
  init : Option.Rel (Initializer.Respelled R) d.init d'.init

variable {R}

theorem VarRef.Respelled.toExpr {v v' : VarRef} (h : v.Respelled R v') :
    v.toExpr.Respelled R v'.toExpr := by
  unfold VarRef.toExpr
  rw [h.span]
  exact .var h.ident h.subscripts

mutual

theorem Expr.Respelled.refl (hR : ∀ i, R i i) : ∀ e : Expr, e.Respelled R e
  | .binary _ left right _ => .binary (.refl hR left) (.refl hR right)
  | .unary _ operand _ => .unary (.refl hR operand)
  | .var i es _ => .var (hR i) (.refl hR es)
  | .call _ args _ _ _ => .call (.refl hR args)
  | .int _ _ | .real _ _ | .str _ _ | .bool _ _ | .raw _ _ => .literal rfl

theorem ExprsRespelled.refl (hR : ∀ i, R i i) : ∀ es : List Expr, ExprsRespelled R es es
  | [] => .nil
  | e :: es => .cons (.refl hR e) (.refl hR es)

end

theorem ExprsRespelled.append {es es' fs fs' : List Expr} (h : ExprsRespelled R es es')
    (hfs : ExprsRespelled R fs fs') : ExprsRespelled R (es ++ fs) (es' ++ fs') := by
  induction es generalizing es' with
  | nil =>
    cases h
    exact hfs
  | cons e es ih =>
    cases h with
    | cons he hes => exact .cons he (ih hes)

end Expressions

/-! ### Respelled statements -/

section Statements

variable (env : Env) (R : Home → Ident → Ident → Prop)

mutual

/-- **Statements that differ in references only.** -/
inductive Stmt.Respelled : Home → Stmt → Stmt → Prop
  | property {home name fs fs' span trace} (hfs : FunctionsRespelled fs fs') :
    Stmt.Respelled home ⟨.property name fs, span, trace⟩ ⟨.property name fs', span, trace⟩
  | synonym {home name indices target target' span trace}
    (ht : VarRef.Respelled (R (home.withIndices indices)) target target') :
    Stmt.Respelled home ⟨.synonym name indices target, span, trace⟩
      ⟨.synonym name indices target', span, trace⟩
  | declare {home d d' span trace} (hd : Declaration.Respelled (R home) d d') :
    Stmt.Respelled home ⟨.declare d, span, trace⟩ ⟨.declare d', span, trace⟩
  | assign {home target target' value value' span trace}
    (ht : VarRef.Respelled (R home) target target') (hv : Expr.Respelled (R home) value value') :
    Stmt.Respelled home ⟨.assign target value, span, trace⟩ ⟨.assign target' value', span, trace⟩
  | call {home c c' span trace} (hc : Call.Respelled (R home) c c') :
    Stmt.Respelled home ⟨.call c, span, trace⟩ ⟨.call c', span, trace⟩
  | whileLoop {home cond cond' body body' span trace} (hc : Expr.Respelled (R home) cond cond')
    (hb : StmtsRespelled home body body') :
    Stmt.Respelled home ⟨.whileLoop cond body, span, trace⟩ ⟨.whileLoop cond' body', span, trace⟩
  | forLoop {home var var' start start' stop stop' step step' downto body body' span trace}
    (hv : VarRef.Respelled (R home) var var') (hstart : Expr.Respelled (R home) start start')
    (hstop : Expr.Respelled (R home) stop stop')
    (hstep : Option.Rel (Expr.Respelled (R home)) step step')
    (hb : StmtsRespelled home body body') :
    Stmt.Respelled home ⟨.forLoop var start stop step downto body, span, trace⟩
      ⟨.forLoop var' start' stop' step' downto body', span, trace⟩
  | family {home name body body' span trace} (hb : StmtsRespelled home body body') :
    Stmt.Respelled home ⟨.family name body, span, trace⟩ ⟨.family name body', span, trace⟩
  | ifChain {home bs bs' otherwise otherwise' span trace} (hbs : BranchesRespelled home bs bs')
    (ho : StmtsRespelled home otherwise otherwise') :
    Stmt.Respelled home ⟨.ifChain bs otherwise, span, trace⟩ ⟨.ifChain bs' otherwise', span, trace⟩
  | select {home subject subject' cs cs' span trace}
    (hs : Expr.Respelled (R home) subject subject') (hcs : CasesRespelled home cs cs') :
    Stmt.Respelled home ⟨.select subject cs, span, trace⟩ ⟨.select subject' cs', span, trace⟩

/-- **Lists of statements that differ in references only.** -/
inductive StmtsRespelled : Home → List Stmt → List Stmt → Prop
  | nil {home} : StmtsRespelled home [] []
  | cons {home s s' ss ss'} (hs : Stmt.Respelled home s s') (hss : StmtsRespelled home ss ss') :
    StmtsRespelled home (s :: ss) (s' :: ss')

/-- Branches that differ in references only. -/
inductive BranchesRespelled : Home → List Branch → List Branch → Prop
  | nil {home} : BranchesRespelled home [] []
  | cons {home cond cond' body body' bs bs'} (hc : Expr.Respelled (R home) cond cond')
    (hb : StmtsRespelled home body body') (hbs : BranchesRespelled home bs bs') :
    BranchesRespelled home (⟨cond, body⟩ :: bs) (⟨cond', body'⟩ :: bs')

/-- Cases that differ in references only. -/
inductive CasesRespelled : Home → List Case → List Case → Prop
  | nil {home} : CasesRespelled home [] []
  | cons {home start start' stop stop' body body' cs cs'}
    (hstart : Expr.Respelled (R home) start start')
    (hstop : Option.Rel (Expr.Respelled (R home)) stop stop') (hb : StmtsRespelled home body body')
    (hcs : CasesRespelled home cs cs') :
    CasesRespelled home (⟨start, stop, body⟩ :: cs) (⟨start', stop', body'⟩ :: cs')

/-- Functions that differ in references only. -/
inductive FunctionsRespelled : List FunctionDef → List FunctionDef → Prop
  | nil : FunctionsRespelled [] []
  | cons {name params result body body' isTaskfunc isOverride span fs fs'}
    (hb : StmtsRespelled (.of env ⟨name, params, result, body, isTaskfunc, isOverride, span⟩) body
      body')
    (hfs : FunctionsRespelled fs fs') :
    FunctionsRespelled (⟨name, params, result, body, isTaskfunc, isOverride, span⟩ :: fs)
      (⟨name, params, result, body', isTaskfunc, isOverride, span⟩ :: fs')

end

/-- Blocks that differ in references only. -/
inductive Block.Respelled : Block → Block → Prop
  | callback {name control control' body body' span}
    (hcontrol : Option.Rel (R .callback) control control')
    (hb : StmtsRespelled env R .callback body body') :
    Block.Respelled (.callback ⟨name, control, body, span⟩)
      (.callback ⟨name, control', body', span⟩)
  | function {f f'} (hf : FunctionsRespelled env R [f] [f']) :
    Block.Respelled (.function f) (.function f')

variable {env R} {home : Home}

theorem StmtsRespelled.append {ss ss' rest rest' : List Stmt} (h : StmtsRespelled env R home ss ss')
    (hrest : StmtsRespelled env R home rest rest') :
    StmtsRespelled env R home (ss ++ rest) (ss' ++ rest') := by
  induction ss generalizing ss' with
  | nil =>
    cases h
    exact hrest
  | cons s ss ih =>
    cases h with
    | cons hs hss => exact .cons hs (ih hss)

theorem StmtsRespelled.length {ss ss' : List Stmt} (h : StmtsRespelled env R home ss ss') :
    ss'.length = ss.length := by
  induction ss generalizing ss' with
  | nil =>
    cases h
    rfl
  | cons s ss ih =>
    cases h with
    | cons _ hss => exact congrArg Nat.succ (ih hss)

theorem StmtsRespelled.single {s s' : Stmt} (h : s.Respelled env R home s') :
    StmtsRespelled env R home [s] [s'] := .cons h .nil

end Statements

/-! ### Renamings that do not tell spellings apart -/

section Renamed

variable {env : Env} {R : Ident → Ident → Prop} {T : Home → Ident → Ident → Prop} {g : Renaming}

mutual

theorem Expr.Respelled.renamed (hR : ∀ i i', R i i' → g.name i' = g.name i) : ∀ {e e' : Expr},
    Expr.Respelled R e e' → g.expr e' = g.expr e
  | _, _, .binary hleft hright => by
    simp only [Renaming.expr, hleft.renamed hR, hright.renamed hR]
  | _, _, .unary hoperand => by simp only [Renaming.expr, hoperand.renamed hR]
  | _, _, .var hi hes => by simp only [Renaming.expr, hR _ _ hi, hes.renamed hR]
  | _, _, .call hargs => by simp only [Renaming.expr, hargs.renamed hR]
  | _, _, .literal _ => rfl

theorem ExprsRespelled.renamed (hR : ∀ i i', R i i' → g.name i' = g.name i) :
    ∀ {es es' : List Expr}, ExprsRespelled R es es' → g.exprs es' = g.exprs es
  | _, _, .nil => rfl
  | _, _, .cons he hes => by simp only [Renaming.exprs, he.renamed hR, hes.renamed hR]

end

theorem optionRespelled_renamed (hR : ∀ i i', R i i' → g.name i' = g.name i) {o o' : Option Expr}
    (h : Option.Rel (Expr.Respelled R) o o') : o'.map g.expr = o.map g.expr :=
  map_eq_of_optionRel h fun _ _ he => he.renamed hR

theorem Initializer.Respelled.renamed (hR : ∀ i i', R i i' → g.name i' = g.name i)
    {i i' : Initializer} (h : i.Respelled R i') : g.initializer i' = g.initializer i := by
  cases h with
  | single he => exact congrArg Initializer.single (he.renamed hR)
  | list hes => exact congrArg Initializer.list (hes.renamed hR)

theorem VarRef.Respelled.renamed (hR : ∀ i i', R i i' → g.name i' = g.name i) {v v' : VarRef}
    (h : v.Respelled R v') : g.varRef v' = g.varRef v := by
  simp only [Renaming.varRef, hR _ _ h.ident, h.subscripts.renamed hR, h.span]

theorem Call.Respelled.renamed (hR : ∀ i i', R i i' → g.name i' = g.name i) {c c' : Call}
    (h : c.Respelled R c') : g.call c' = g.call c := by
  rw [h.rest]
  simp only [Renaming.call, h.args.renamed hR]

theorem Declaration.Respelled.renamed (hR : ∀ i i', R i i' → g.name i' = g.name i)
    {d d' : Declaration} (h : d.Respelled R d') : g.declaration d' = g.declaration d := by
  have hvalues : d'.init.map g.initializer = d.init.map g.initializer :=
    map_eq_of_optionRel h.init fun _ _ hi => hi.renamed hR
  simp only [Renaming.declaration, h.name, h.modifiers, optionRespelled_renamed hR h.size,
    h.params.renamed hR, hvalues]

mutual

theorem Stmt.Respelled.renamed (hT : ∀ home i i', T home i i' → g.name i' = g.name i) :
    ∀ {home : Home} {s s' : Stmt}, Stmt.Respelled env T home s s' → g.stmt s' = g.stmt s
  | _, _, _, .property hfs => by simp only [Renaming.stmt, hfs.renamed hT]
  | _, _, _, .synonym ht => by simp only [Renaming.stmt, ht.renamed (hT _)]
  | _, _, _, .declare hd => by simp only [Renaming.stmt, hd.renamed (hT _)]
  | _, _, _, .assign ht hv => by simp only [Renaming.stmt, ht.renamed (hT _), hv.renamed (hT _)]
  | _, _, _, .call hc => by simp only [Renaming.stmt, hc.renamed (hT _)]
  | _, _, _, .whileLoop hc hb => by simp only [Renaming.stmt, hc.renamed (hT _), hb.renamed hT]
  | _, _, _, .forLoop hv hstart hstop hstep hb => by
    simp only [Renaming.stmt, hv.renamed (hT _), hstart.renamed (hT _), hstop.renamed (hT _),
      optionRespelled_renamed (hT _) hstep, hb.renamed hT]
  | _, _, _, .family hb => by simp only [Renaming.stmt, hb.renamed hT]
  | _, _, _, .ifChain hbs ho => by simp only [Renaming.stmt, hbs.renamed hT, ho.renamed hT]
  | _, _, _, .select hs hcs => by simp only [Renaming.stmt, hs.renamed (hT _), hcs.renamed hT]

/-- **Respelled statements are the same** to a renaming that does not tell the spellings apart. -/
theorem StmtsRespelled.renamed (hT : ∀ home i i', T home i i' → g.name i' = g.name i) :
    ∀ {home : Home} {ss ss' : List Stmt}, StmtsRespelled env T home ss ss' →
      g.stmts ss' = g.stmts ss
  | _, _, _, .nil => rfl
  | _, _, _, .cons hs hss => by simp only [Renaming.stmts, hs.renamed hT, hss.renamed hT]

theorem BranchesRespelled.renamed (hT : ∀ home i i', T home i i' → g.name i' = g.name i) :
    ∀ {home : Home} {bs bs' : List Branch}, BranchesRespelled env T home bs bs' →
      g.branches bs' = g.branches bs
  | _, _, _, .nil => rfl
  | _, _, _, .cons hc hb hbs => by
    simp only [Renaming.branches, hc.renamed (hT _), hb.renamed hT, hbs.renamed hT]

theorem CasesRespelled.renamed (hT : ∀ home i i', T home i i' → g.name i' = g.name i) :
    ∀ {home : Home} {cs cs' : List Case}, CasesRespelled env T home cs cs' →
      g.cases cs' = g.cases cs
  | _, _, _, .nil => rfl
  | _, _, _, .cons hstart hstop hb hcs => by
    simp only [Renaming.cases, hstart.renamed (hT _), optionRespelled_renamed (hT _) hstop,
      hb.renamed hT, hcs.renamed hT]

theorem FunctionsRespelled.renamed (hT : ∀ home i i', T home i i' → g.name i' = g.name i) :
    ∀ {fs fs' : List FunctionDef}, FunctionsRespelled env T fs fs' →
      g.functions fs' = g.functions fs
  | _, _, .nil => rfl
  | _, _, .cons hb hfs => by simp only [Renaming.functions, hb.renamed hT, hfs.renamed hT]

end

end Renamed

/-! ### Leaves that change in two scripts -/

section Leaves

variable {ε : Type} {f f' : LeafMap ε} {env : Env} {R : Home → Ident → Ident → Prop} {g : Renaming}

/-- **Two changes of leaves keep respelled leaves alike**, as far as the renaming can tell. -/
structure LeafMap.Keeps (f f' : LeafMap ε) (R : Home → Ident → Ident → Prop) (g : Renaming) :
    Prop where
  expr : ∀ {home scope e e'}, scope.params ⊆ home.params → Expr.Respelled (R home) e e' →
    Together (fun r r' => g.expr r' = g.expr r) (f.expr scope e) (f'.expr scope e')
  target : ∀ {home scope v v'}, scope.params ⊆ home.params → VarRef.Respelled (R home) v v' →
    Together (fun r r' => g.varRef r' = g.varRef r) (f.target scope v) (f'.target scope v')
  call : ∀ {home scope c c'}, scope.params ⊆ home.params → Call.Respelled (R home) c c' →
    Together (fun r r' => g.call r' = g.call r) (f.call scope c) (f'.call scope c')

namespace LeafMap.Keeps

variable {home : Home} {scope : Scope}

theorem exprs (h : f.Keeps f' R g) (hscope : scope.params ⊆ home.params) :
    ∀ {es es' : List Expr}, ExprsRespelled (R home) es es' →
      Together (fun rs rs' => g.exprs rs' = g.exprs rs) (es.mapM (f.expr scope))
        (es'.mapM (f'.expr scope))
  | _, _, .nil => .ret rfl
  | _, _, .cons he hes => by
    rw [List.mapM_cons, List.mapM_cons]
    refine (h.expr hscope he).bind fun r r' hr => (h.exprs hscope hes).map fun rs rs' hrs => ?_
    simp only [Renaming.exprs, hr, hrs]

theorem option (h : f.Keeps f' R g) (hscope : scope.params ⊆ home.params) {o o' : Option Expr}
    (ho : Option.Rel (Expr.Respelled (R home)) o o') :
    Together (fun r r' => r'.map g.expr = r.map g.expr) (o.mapM (f.expr scope))
      (o'.mapM (f'.expr scope)) :=
  (Together.option ho fun _ _ he => h.expr hscope he).imp fun _ _ hr =>
    map_eq_of_optionRel hr fun _ _ he => he

theorem initializer (h : f.Keeps f' R g) (hscope : scope.params ⊆ home.params)
    {i i' : Initializer} (hi : i.Respelled (R home) i') :
    Together (fun r r' => g.initializer r' = g.initializer r) (f.initializer scope i)
      (f'.initializer scope i') := by
  cases hi with
  | single he => exact (h.expr hscope he).map fun r r' hr => congrArg Initializer.single hr
  | list hes => exact (h.exprs hscope hes).map fun r r' hr => congrArg Initializer.list hr

theorem declaration (h : f.Keeps f' R g) (hscope : scope.params ⊆ home.params)
    {d d' : Declaration} (hd : d.Respelled (R home) d') :
    Together (fun r r' => g.declaration r' = g.declaration r) (f.declaration scope d)
      (f'.declaration scope d') := by
  have hvalues : Together (fun r r' => r'.map g.initializer = r.map g.initializer)
      (d.init.mapM (f.initializer scope)) (d'.init.mapM (f'.initializer scope)) :=
    (Together.option hd.init fun _ _ hi => h.initializer hscope hi).imp fun _ _ hr =>
      map_eq_of_optionRel hr fun _ _ hi => hi
  refine (h.option hscope hd.size).bind fun size size' hsize => ?_
  refine (h.exprs hscope hd.params).bind fun params params' hparams => ?_
  refine hvalues.map fun init init' hinit => ?_
  simp only [Renaming.declaration, hd.name, hd.modifiers, hsize, hparams, hinit]

mutual

theorem stmt (h : f.Keeps f' R g) {params : List String} : ∀ {home s s'},
    params ⊆ home.params → Stmt.Respelled env R home s s' →
      Together (fun r r' => g.stmt r' = g.stmt r) (s.mapLeaves f params) (s'.mapLeaves f' params)
  | _, _, _, _, .property hfs => by
    simp only [Stmt.mapLeaves]
    exact (functions h hfs).map fun _ _ hm => by simp only [Renaming.stmt, hm]
  | _, _, _, hp, .synonym ht => by
    simp only [Stmt.mapLeaves]
    refine (h.target (List.Subset.trans hp (List.subset_append_left _ _)) ht).map fun _ _ hm => ?_
    simp only [Renaming.stmt, hm]
  | _, _, _, hp, .declare hd => by
    simp only [Stmt.mapLeaves]
    exact (h.declaration hp hd).map fun _ _ hm => by simp only [Renaming.stmt, hm]
  | _, _, _, hp, .assign ht hv => by
    simp only [Stmt.mapLeaves]
    refine (h.target hp ht).bind fun _ _ hmt => (h.expr hp hv).map fun _ _ hmv => ?_
    simp only [Renaming.stmt, hmt, hmv]
  | _, _, _, hp, .call hc => by
    simp only [Stmt.mapLeaves]
    exact (h.call hp hc).map fun _ _ hm => by simp only [Renaming.stmt, hm]
  | _, _, _, hp, .whileLoop hc hb => by
    simp only [Stmt.mapLeaves]
    refine (h.expr hp hc).bind fun _ _ hmc => (stmts h hp hb).map fun _ _ hmb => ?_
    simp only [Renaming.stmt, hmc, hmb]
  | _, _, _, hp, .forLoop hv hstart hstop hstep hb => by
    simp only [Stmt.mapLeaves]
    refine (h.target hp hv).bind fun _ _ hmv => (h.expr hp hstart).bind fun _ _ hma => ?_
    refine (h.expr hp hstop).bind fun _ _ hmz => (h.option hp hstep).bind fun _ _ hmo => ?_
    refine (stmts h hp hb).map fun _ _ hmb => ?_
    simp only [Renaming.stmt, hmv, hma, hmz, hmo, hmb]
  | _, _, _, hp, .family hb => by
    simp only [Stmt.mapLeaves]
    exact (stmts h hp hb).map fun _ _ hm => by simp only [Renaming.stmt, hm]
  | _, _, _, hp, .ifChain hbs ho => by
    simp only [Stmt.mapLeaves]
    refine (branches h hp hbs).bind fun _ _ hmbs => (stmts h hp ho).map fun _ _ hmo => ?_
    simp only [Renaming.stmt, hmbs, hmo]
  | _, _, _, hp, .select hs hcs => by
    simp only [Stmt.mapLeaves]
    refine (h.expr hp hs).bind fun _ _ hms => (cases h hp hcs).map fun _ _ hmcs => ?_
    simp only [Renaming.stmt, hms, hmcs]

/-- **Respelled statements stay alike.** -/
theorem stmts (h : f.Keeps f' R g) {params : List String} : ∀ {home ss ss'},
    params ⊆ home.params → StmtsRespelled env R home ss ss' →
      Together (fun rs rs' => g.stmts rs' = g.stmts rs) (mapLeavesStmts f params ss)
        (mapLeavesStmts f' params ss')
  | _, _, _, _, .nil => .ret rfl
  | _, _, _, hp, .cons hs hss => by
    simp only [mapLeavesStmts]
    refine (stmt h hp hs).bind fun _ _ hm => (stmts h hp hss).map fun _ _ hms => ?_
    simp only [Renaming.stmts, hm, hms]

theorem branches (h : f.Keeps f' R g) {scope : Scope} : ∀ {home bs bs'},
    scope.params ⊆ home.params → BranchesRespelled env R home bs bs' →
      Together (fun rs rs' => g.branches rs' = g.branches rs) (mapLeavesBranches f scope bs)
        (mapLeavesBranches f' scope bs')
  | _, _, _, _, .nil => .ret rfl
  | _, _, _, hp, .cons hc hb hbs => by
    simp only [mapLeavesBranches]
    refine (h.expr hp hc).bind fun _ _ hmc => (stmts h hp hb).bind fun _ _ hmb => ?_
    refine (branches h hp hbs).map fun _ _ hms => ?_
    simp only [Renaming.branches, hmc, hmb, hms]

theorem cases (h : f.Keeps f' R g) {scope : Scope} : ∀ {home cs cs'},
    scope.params ⊆ home.params → CasesRespelled env R home cs cs' →
      Together (fun rs rs' => g.cases rs' = g.cases rs) (mapLeavesCases f scope cs)
        (mapLeavesCases f' scope cs')
  | _, _, _, _, .nil => .ret rfl
  | _, _, _, hp, .cons hstart hstop hb hcs => by
    simp only [mapLeavesCases]
    refine (h.expr hp hstart).bind fun _ _ hma => (h.option hp hstop).bind fun _ _ hmo => ?_
    refine (stmts h hp hb).bind fun _ _ hmb => (cases h hp hcs).map fun _ _ hms => ?_
    simp only [Renaming.cases, hma, hmo, hmb, hms]

theorem functions (h : f.Keeps f' R g) : ∀ {fs fs'}, FunctionsRespelled env R fs fs' →
    Together (fun rs rs' => g.functions rs' = g.functions rs) (mapLeavesFunctions f fs)
      (mapLeavesFunctions f' fs')
  | _, _, .nil => .ret rfl
  | _, _, .cons hb hfs => by
    simp only [mapLeavesFunctions]
    refine (stmts h (List.Subset.refl _) hb).bind fun _ _ hmb => ?_
    refine (functions h hfs).map fun _ _ hms => ?_
    simp only [Renaming.functions, hmb, hms]

end

/-- **Respelled scripts stay alike.** -/
theorem script (h : f.Keeps f' R g) {control control' : Ident → Except ε Ident} {x x' : Script}
    (hcontrol : ∀ i i', R .callback i i' →
      Together (fun j j' => g.name j' = g.name j) (control i) (control' i'))
    (hx : List.Forall₂ (Block.Respelled env R) x.blocks x'.blocks) :
    Together (fun y y' => g.script y' = g.script y) (x.mapLeaves f control)
      (x'.mapLeaves f' control') := by
  unfold Script.mapLeaves
  refine Together.map (Together.list (Q := fun b b' => g.block b' = g.block b) hx ?_) ?_
  · rintro b b' (⟨hi, hb⟩ | hf)
    · refine (Together.option hi hcontrol).bind fun _ _ hi => ?_
      refine (h.stmts (List.nil_subset _) hb).map fun _ _ hms => ?_
      simp only [Renaming.block, map_eq_of_optionRel hi fun _ _ hm => hm, hms]
    · cases hf with
      | cons hb _ =>
        simp only [FunctionDef.mapLeaves, bind_assoc, pure_bind]
        refine (h.stmts (List.Subset.refl _) hb).map fun _ _ hms => ?_
        simp only [Renaming.block, hms]
  · exact fun bs bs' hbs => congrArg Script.mk (map_eq_of_forall₂ hbs fun _ _ hb => hb)

end LeafMap.Keeps

end Leaves

end FlatScript
