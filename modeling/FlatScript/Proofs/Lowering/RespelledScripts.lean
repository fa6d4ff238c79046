import FlatScript.Proofs.Inlining.Growth
import FlatScript.Proofs.Lowering.Respelled

/-!
# Lowering scripts in another letter case

Two runs of lowering over statements that differ in references only go in step, by induction on the
statements. The walk has to know beforehand which functions, families and properties a script
brings, as a reference with one of their names is not free: they are listed by
`FlatScript.Lowering.blockNames`.

* `FlatScript.Lowering.stmts_inStep` is the walk.
* `FlatScript.Lowering.script_together` compares whole scripts.
-/

namespace FlatScript.Lowering

variable {env : Env} {taken : List String} {home : Home}

/-! ### Expressions that lowering makes -/

section Operations

variable {R : Ident → Ident → Prop} {left left' right right' : Expr}

theorem span_respelled (h : left.Respelled R left') : left'.span = left.span := by
  cases h <;> rfl

theorem op_respelled {o : BinaryOp} (hleft : left.Respelled R left')
    (hright : right.Respelled R right') : (left.op o right).Respelled R (left'.op o right') := by
  unfold Expr.op
  rw [span_respelled hleft, span_respelled hright]
  exact .binary hleft hright

theorem isInt_respelled (h : left.Respelled R left') (n : Int32) :
    left'.isInt n = left.isInt n := by
  cases h <;> rfl

/-- The bound of a counting loop has the same form in both runs. -/
theorem loopCondition_respelled {var var' : VarRef} {stop stop' : Expr}
    (hvar : var.Respelled R var') (hstop : stop.Respelled R stop') (downto : Bool) :
    (loopCondition var stop downto).Respelled R (loopCondition var' stop' downto) := by
  have hbound : (loopBound stop' downto).1 = (loopBound stop downto).1 ∧
      (loopBound stop downto).2.Respelled R (loopBound stop' downto).2 := by
    unfold loopBound
    split
    · exact ⟨rfl, hstop⟩
    · cases hstop with
      | @binary op _ _ _ _ _ hleft hright =>
        cases op with
        | sub =>
          dsimp only
          rw [isInt_respelled hright]
          split
          · exact ⟨rfl, hleft⟩
          · exact ⟨rfl, .binary hleft hright⟩
        | _ => exact ⟨rfl, .binary hleft hright⟩
      | unary h => exact ⟨rfl, .unary h⟩
      | var hi hes => exact ⟨rfl, .var hi hes⟩
      | call hargs => exact ⟨rfl, .call hargs⟩
      | literal h =>
        have hself : Expr.Respelled R stop stop := .literal h
        cases stop with
        | int _ _ | real _ _ | str _ _ | bool _ _ | raw _ _ => exact ⟨rfl, hself⟩
        | _ => cases h
  unfold loopCondition
  dsimp only
  rw [hbound.1]
  exact op_respelled hvar.toExpr hbound.2

end Operations

/-! ### Functions in two runs -/

section Functions

variable {e e' : FunctionEntry} {s s' : State}

theorem EntryRespelled.name_eq (h : EntryRespelled env taken home e e') : e'.name = e.name := by
  rw [h.rest]
  rfl

/-- A function gets its body in both runs. -/
theorem EntryRespelled.close {ss ss' : List Stmt} (h : EntryRespelled env taken home e e')
    (hss : StmtsRespelled env (Ident.Respells env taken) home ss ss') :
    EntryRespelled env taken home { e with fn := { e.fn with body := ss } }
      { e' with fn := { e'.fn with body := ss' } } :=
  ⟨h.name, h.params, h.substitutions, hss, h.globals, h.locals, h.frame, by rw [h.rest]⟩

/-- The same names are declared in both runs. -/
theorem declaredVariables_respelled {R : Home → Ident → Ident → Prop} {ss ss' : List Stmt}
    (h : StmtsRespelled env R home ss ss') : declaredVariables ss' = declaredVariables ss := by
  induction ss generalizing ss' with
  | nil =>
    cases h
    rfl
  | cons s ss ih =>
    cases h with
    | cons hs hss =>
      have hrest := ih hss
      unfold declaredVariables at hrest ⊢
      cases hs with
      | declare hd => simp [hd.name, hrest]
      | _ => simpa using hrest

/-- The functions in both tables have the same names. -/
theorem names_respelled {l l' : List FunctionEntry} (h : TablesRespelled env taken l l') :
    l'.map FunctionEntry.name = l.map FunctionEntry.name :=
  map_eq_of_forall₂ h fun _ _ ⟨_, he⟩ => he.name_eq

/-- The same functions are found in both tables. -/
theorem function?_respelled {p p' : Program}
    (h : TablesRespelled env taken p.functions p'.functions) (name : String) :
    Option.Rel (fun e e' => ∃ home, EntryRespelled env taken home e e') (p.function? name)
      (p'.function? name) :=
  optionRel_find? h fun _ _ ⟨_, he⟩ => by rw [he.name_eq]

theorem putFunction_eq (p : Program) (e : FunctionEntry) :
    p.putFunction e = { p with functions := (p.putFunction e).functions } := by
  unfold Program.putFunction Program.updateFunction
  split <;> rfl

/-- A function is put into both tables. -/
theorem putFunction_respelled {p p' : Program}
    (h : TablesRespelled env taken p.functions p'.functions)
    (he : EntryRespelled env taken home e e') :
    TablesRespelled env taken (p.putFunction e).functions (p'.putFunction e').functions := by
  unfold Program.putFunction
  rw [Program.isUserFunction_congr (names_respelled h), he.name_eq]
  split
  · simp only [Program.updateFunction, List.forall₂_map_left_iff, List.forall₂_map_right_iff]
    refine h.imp fun x x' hx => ?_
    obtain ⟨inner, hx⟩ := hx
    rw [hx.name_eq]
    split
    · exact ⟨home, he⟩
    · exact ⟨inner, hx⟩
  · exact List.rel_append h (.cons ⟨home, he⟩ .nil)

/-- **A function is entered in both runs.** -/
theorem Alongside.enter {p p' : Program} {c c' o o' : Option FunctionEntry} {inner outer : Home}
    (h : Alongside env taken home ⟨p, c⟩ ⟨p', c'⟩) (he : EntryRespelled env taken inner e e')
    (haround : AroundRespelled env taken outer o o') :
    Alongside env taken outer ⟨Lowering.enter p e, o⟩ ⟨Lowering.enter p' e', o'⟩ := by
  have hprogram : p' = { p with functions := p'.functions } := h.program
  -- The variables of a function that is replaced are forgotten: they are the same in both runs.
  have hreplaced : declaredVariables (((p'.function? e.name).map (·.locals)).getD []) =
      declaredVariables (((p.function? e.name).map (·.locals)).getD []) := by
    have hfound := function?_respelled h.functions e.name
    dsimp only at hfound
    generalize p.function? e.name = x at hfound ⊢
    generalize p'.function? e.name = x' at hfound ⊢
    cases hfound with
    | none => rfl
    | some hx =>
      obtain ⟨_, hx⟩ := hx
      exact declaredVariables_respelled hx.locals
  have hsymbols : p'.symbols = p.symbols := by rw [hprogram]
  have hcalls : p'.calls = p.calls := by rw [hprogram]
  have hkept := removeVariables_kept
    (declaredVariables (((p.function? e.name).map (·.locals)).getD [])) p.symbols
  refine ⟨?_, putFunction_respelled h.functions he, ?_, ?_, haround⟩
  · dsimp only [Lowering.enter]
    rw [he.name_eq, hreplaced, hsymbols, hcalls, putFunction_eq p' e', putFunction_eq p e]
    rw [hprogram]
  · exact hkept.1 ▸ h.families
  · exact hkept.2 ▸ h.properties

/-- **A function is lowered in both runs.** -/
theorem functionWith_inStep {f f' : FunctionDef} {body body' : Lower (List Stmt)} {inner : Home}
    (h : Alongside env taken home s s') (hf : f' = { f with body := f'.body })
    (hname : tableName env f ∈ taken) (hinner : inner.inFunction = true)
    (hparams : f.paramNames ⊆ inner.params)
    (hbody : ∀ {t t'}, Alongside env taken inner t t' →
      InStep env taken inner (StmtsRespelled env (Ident.Respells env taken) inner) t t' body
        body') :
    InStep env taken home (fun _ _ => True) s s' (functionWith env f body)
      (functionWith env f' body') := by
  -- Both runs find the same under the name, so both enter the function or neither does.
  have hentry : entryFor s'.program { f' with name := f'.name.qualifyDeclared env.lines } =
      entryFor s.program { f with name := f.name.qualifyDeclared env.lines } := by
    refine entryFor_congr (by rw [hf]) (by rw [hf]) ?_
    exact optionRel_imp (function?_respelled h.functions _) fun _ _ ⟨_, hx⟩ => by rw [hx.rest]
  have hheader : f'.paramNames = f.paramNames ∧ opened env f' = opened env f := by
    rw [hf]
    exact ⟨rfl, rfl⟩
  have hopened : EntryRespelled env taken inner (opened env f) (opened env f) :=
    ⟨hname, hparams, nofun, .nil, .nil, .nil, .nil, rfl⟩
  have hopen : Alongside env taken inner ⟨s.program, some (opened env f)⟩
      ⟨s'.program, some (opened env f)⟩ :=
    ⟨h.program, h.functions, h.families, h.properties, .function hinner hopened⟩
  unfold InStep
  rw [functionWith_run, functionWith_run, hheader.1, hheader.2, hentry]
  by_cases hnodup : ¬ f.paramNames.Nodup
  · rw [if_pos hnodup, if_pos hnodup]
    exact .error
  rw [if_neg hnodup, if_neg hnodup]
  cases entryFor s.program { f with name := f.name.qualifyDeclared env.lines } with
  | overridden => exact .ok ⟨trivial, h⟩
  | taken => exact .error
  | free =>
    refine Together.bind (hbody hopen) ?_
    rintro ⟨ss, p, current⟩ ⟨ss', p', current'⟩ ⟨hss, hafter⟩
    have haround := hafter.around
    cases haround with
    | callback hcallback => cases hinner.symm.trans hcallback
    | function _ he => exact .ok ⟨trivial, hafter.enter (he.close hss) h.around⟩

end Functions

/-! ### Names of functions, families and properties -/

mutual

/-- The names of functions, families and properties that a statement brings. -/
def stmtNames (env : Env) (families : List String) : Stmt → List String
  | ⟨.property name functions, _, _⟩ =>
    let property := (declaredName env families name).name
    property :: accessorsNames env property functions
  | ⟨.synonym name indices _, span, _⟩ =>
    let property := (declaredName env families name).name
    [property, tableName env (synonymGetter property indices span),
      tableName env (synonymSetter property indices span)]
  | ⟨.family name body, _, _⟩ =>
    ".".intercalate (openFamily env families name) ::
      stmtsNames env (openFamily env families name) body
  | ⟨.whileLoop _ body, _, _⟩ | ⟨.forLoop _ _ _ _ _ body, _, _⟩ => stmtsNames env families body
  | ⟨.ifChain branches otherwise, _, _⟩ =>
    branchesNames env families branches ++ stmtsNames env families otherwise
  | ⟨.select _ cases, _, _⟩ => casesNames env families cases
  | ⟨.declare _, _, _⟩ | ⟨.assign _ _, _, _⟩ | ⟨.call _, _, _⟩ => []

/-- **The names of functions, families and properties** that statements bring. -/
def stmtsNames (env : Env) (families : List String) : List Stmt → List String
  | [] => []
  | s :: ss => stmtNames env families s ++ stmtsNames env families ss

/-- The names that branches bring. -/
def branchesNames (env : Env) (families : List String) : List Branch → List String
  | [] => []
  | ⟨_, body⟩ :: rest => stmtsNames env families body ++ branchesNames env families rest

/-- The names that cases bring. -/
def casesNames (env : Env) (families : List String) : List Case → List String
  | [] => []
  | ⟨_, _, body⟩ :: rest => stmtsNames env families body ++ casesNames env families rest

/-- The names that the functions of a property bring. -/
def accessorsNames (env : Env) (property : String) : List FunctionDef → List String
  | [] => []
  | ⟨name, params, result, body, isTaskfunc, isOverride, span⟩ :: rest =>
    tableName env (accessor property ⟨name, params, result, [], isTaskfunc, isOverride, span⟩) ::
      (stmtsNames env [] body ++ accessorsNames env property rest)

end

/-- The names that a block brings. -/
def blockNames (env : Env) : Block → List String
  | .callback c => stmtsNames env [] c.body
  | .function f => tableName env f :: stmtsNames env [] f.body

/-- The names that a piece of the source brings are taken, and what it declares in a function is
declared there. -/
structure Allowed (taken : List String) (home : Home) (names : List String) (x : Footprint) :
    Prop where
  names : names ⊆ taken
  declares : home.inFunction = true → x.declares ⊆ home.locals

theorem Allowed.append {names names' : List String} {x x' : Footprint}
    (h : Allowed taken home (names ++ names') (x ++ x')) :
    Allowed taken home names x ∧ Allowed taken home names' x' :=
  ⟨⟨(List.append_subset.mp h.names).1, fun hf => (List.append_subset.mp (h.declares hf)).1⟩,
    (List.append_subset.mp h.names).2, fun hf => (List.append_subset.mp (h.declares hf)).2⟩

/-- A callback has no variables of its own. -/
theorem Allowed.callback {names : List String} {x : Footprint} (h : names ⊆ taken) :
    Allowed taken .callback names x :=
  ⟨h, fun hf => (Bool.false_ne_true hf).elim⟩

/-! ### Statements in two runs -/

section Statements

variable {s s' : State}

theorem assignment_inStep (h : Alongside env taken home s s') {target target' : VarRef}
    {value value' : Expr} {span : Span} {trace : List Span}
    (ht : target.Respelled (Ident.Respells env taken home) target')
    (hv : value.Respelled (Ident.Respells env taken home) value') :
    InStep env taken home (Stmt.Respelled env (Ident.Respells env taken) home) s s'
      (assignment env target value span trace) (assignment env target' value' span trace) := by
  refine (refs_inStep h).bind fun r r' t t' hr ht' => .ret ht' ?_
  obtain ⟨rfl, hat⟩ := hr
  exact .assign (varRef_respelled hat ht) (expr_respelled hat hv)

/-- The step of a counting loop is built from the same parts in both runs. -/
theorem stepStmt_inStep (h : Alongside env taken home s s') {var var' : VarRef}
    {step step' : Option Expr} {downto : Bool} {span : Span} {trace : List Span}
    (hvar : var.Respelled (Ident.Respells env taken home) var')
    (hstep : Option.Rel (Expr.Respelled (Ident.Respells env taken home)) step step') :
    InStep env taken home (Stmt.Respelled env (Ident.Respells env taken) home) s s'
      (stepStmt env var step downto span trace) (stepStmt env var' step' downto span trace) := by
  refine (refs_inStep h).bind fun r r' t t' hr ht' => .ret ht' ?_
  obtain ⟨rfl, hat⟩ := hr
  cases hstep with
  | none => exact .call (call_respelled hat ⟨.cons hvar.toExpr .nil, rfl⟩)
  | some he =>
    refine .assign (varRef_respelled hat hvar) (expr_respelled hat ?_)
    exact op_respelled hvar.toExpr he

/-- The check of a property does not look into its functions. -/
theorem checkAccessors_respelled {R : Home → Ident → Ident → Prop} {fs fs' : List FunctionDef}
    (h : FunctionsRespelled env R fs fs') (property : String) (span : Span) :
    checkAccessors env property fs' span = checkAccessors env property fs span := by
  have hempty : fs'.isEmpty = fs.isEmpty := by cases h <;> rfl
  have hall : ∀ k : FunctionDef → Except CompileError Unit, (∀ f f' : FunctionDef,
      accessorFault? property f' = accessorFault? property f → f'.span = f.span → k f' = k f) →
      fs'.forM k = fs.forM k := by
    intro k hk
    clear hempty
    induction fs generalizing fs' with
    | nil =>
      cases h
      rfl
    | cons f fs ih =>
      cases h with
      | @cons name params result body body' isTaskfunc isOverride fspan _ _ _ hfs =>
        have hhead := hk ⟨name, params, result, body, isTaskfunc, isOverride, fspan⟩
          ⟨name, params, result, body', isTaskfunc, isOverride, fspan⟩ rfl rfl
        show (k _ >>= fun _ => List.forM _ k) = (k _ >>= fun _ => List.forM _ k)
        rw [hhead, ih hfs]
  unfold checkAccessors
  dsimp only
  rw [hempty, hall _ fun f f' hfault hspan => by rw [hfault, hspan]]

theorem insertNew_subset {names : List String} {name : String} (hnames : names ⊆ taken)
    (hname : name ∈ taken) : Name.insertNew names name ⊆ taken := by
  intro v hv
  rcases Name.mem_insertNew.mp hv with hv | rfl
  · exact hnames hv
  · exact hname

theorem lift_inStep {α : Type} (h : Alongside env taken home s s') (z : Except CompileError α) :
    InStep env taken home (fun a a' => a' = a) s s' (liftM z) (liftM z) := by
  cases z with
  | error e => exact .error
  | ok a => exact .ok ⟨rfl, h⟩

/-- **The functions of a property that stands for a variable**, in two runs. -/
theorem synonym_inStep (h : Alongside env taken home s s') {property : String}
    {indices : List Ident} {target target' : VarRef} {span : Span}
    (ht : target.Respelled (Ident.Respells env taken (home.withIndices indices)) target')
    (hget : tableName env (synonymGetter property indices span) ∈ taken)
    (hset : tableName env (synonymSetter property indices span) ∈ taken) :
    InStep env taken home (fun _ _ => True) s s' (synonym env property indices target span)
      (synonym env property indices target' span) := by
  -- The getter and the setter assign in one direction each, from or to a name of their own.
  have hplain : ∀ i : Ident, (VarRef.plain i).Respelled
      (Ident.Respells env taken (home.withIndices indices)) (.plain i) :=
    fun i => ⟨.refl i, .nil, rfl⟩
  have hbody : ∀ {v v' : VarRef} {e e' : Expr}
      (_ : v.Respelled (Ident.Respells env taken (home.withIndices indices)) v')
      (_ : e.Respelled (Ident.Respells env taken (home.withIndices indices)) e') {t t' : State},
      Alongside env taken (home.withIndices indices) t t' →
      InStep env taken (home.withIndices indices)
        (StmtsRespelled env (Ident.Respells env taken) (home.withIndices indices)) t t'
        (do return [← assignment env v e span []]) (do return [← assignment env v' e' span []]) :=
    fun hv he _ _ halong => (assignment_inStep halong hv he).bind fun _ _ _ _ hx ht =>
      .ret ht (.single hx)
  have hgetter : (synonymGetter property indices span).paramNames =
      indices.map Ident.full ++ ["result"] := by
    simp [synonymGetter, FunctionDef.paramNames, Function.comp_def]
  have hsetter : (synonymSetter property indices span).paramNames =
      indices.map Ident.full ++ ["value_to_set"] := by
    simp [synonymSetter, FunctionDef.paramNames, Function.comp_def]
  have hindices : ∀ {names : List String}, names ⊆ ["result", "value_to_set"] →
      indices.map Ident.full ++ names ⊆ (home.withIndices indices).params := fun hnames =>
    List.append_subset.mpr
      ⟨fun _ hmem => List.mem_append_right _ (List.mem_append_left _ hmem),
        fun _ hmem => List.mem_append_right _ (List.mem_append_right _ (hnames hmem))⟩
  refine (functionWith_inStep h rfl hget rfl (hgetter ▸ hindices (by simp))
    (hbody (hplain _) ht.toExpr)).bind fun _ _ _ _ _ halong => ?_
  exact functionWith_inStep halong rfl hset rfl (hsetter ▸ hindices (by simp))
    (hbody ht (hplain _).toExpr)

mutual

/-- A statement is lowered in both runs. -/
theorem stmt_inStep {families : List String} : ∀ {home : Home} {y y' : Stmt} {s s' : State},
    y.Respelled env (Ident.Respells env taken) home y' →
    Allowed taken home (stmtNames env families y) (stmtFootprint env families y) →
    Alongside env taken home s s' →
    InStep env taken home (StmtsRespelled env (Ident.Respells env taken) home) s s'
      (stmt env families y) (stmt env families y')
  | _, _, _, _, _, .forLoop hvar hstart hstop hstep hb, hy, h => by
    simp only [stmt]
    refine (assignment_inStep h hvar hstart).bind fun _ _ _ _ hfirst h => ?_
    refine (refs_inStep h).bind fun r r' _ _ hr h => ?_
    obtain ⟨rfl, hat⟩ := hr
    refine (stmts_inStep hb hy h).bind fun _ _ _ _ hbody h => ?_
    refine (stepStmt_inStep h hvar hstep).bind fun _ _ _ _ hlast h => .ret h ?_
    -- An assignment, and a loop whose body has the step of the loop at its end.
    refine .cons hfirst (.single (.whileLoop ?_ (hbody.append (.single hlast))))
    exact expr_respelled hat (loopCondition_respelled hvar hstop _)
  | _, _, _, _, _, .ifChain hbs ho, hy, h => by
    simp only [stmt]
    refine (chain_inStep (fun h => stmts_inStep ho hy.append.2 h) hbs hy.append.1 h).bind
      fun _ _ _ _ hx h => .ret h (.single hx)
  | _, _, _, _, _, .family hb, ⟨hnames, hdeclares⟩, h => by
    simp only [stmt]
    rw [stmtNames, List.cons_subset] at hnames
    have hfamilies : ∀ symbols : Symbols, symbols.families ⊆ taken →
        (symbols.addFamily (".".intercalate (openFamily env families _))).families ⊆ taken :=
      fun symbols hsymbols => insertNew_subset hsymbols hnames.1
    refine (modifySymbols_inStep h (hfamilies _ h.families) h.properties).bind
      fun _ _ _ _ _ h => ?_
    exact stmts_inStep hb ⟨hnames.2, hdeclares⟩ h
  | _, _, _, _, _, .property hfs, ⟨hnames, _⟩, h => by
    simp only [stmt]
    rw [stmtNames, List.cons_subset] at hnames
    rw [checkAccessors_respelled hfs]
    refine (lift_inStep h _).bind fun _ _ _ _ _ h => ?_
    refine (accessors_inStep hfs hnames.2 h).bind fun _ _ _ _ _ h => ?_
    exact (modifySymbols_inStep h h.families (insertNew_subset h.properties hnames.1)).bind
      fun _ _ _ _ _ h => .ret h .nil
  | _, _, _, _, _, .synonym ht, ⟨hnames, _⟩, h => by
    simp only [stmt]
    simp only [stmtNames, List.cons_subset] at hnames
    obtain ⟨hproperty, hget, hset, -⟩ := hnames
    refine (synonym_inStep h ht hget hset).bind fun _ _ _ _ _ h => ?_
    exact (modifySymbols_inStep h h.families (insertNew_subset h.properties hproperty)).bind
      fun _ _ _ _ _ h => .ret h .nil
  | _, _, _, _, _, .declare hd, hy, h => by
    simp only [stmt]
    exact declaration_inStep h hd fun hf => hy.declares hf (List.mem_singleton_self _)
  | _, _, _, _, _, .assign ht hv, _, h => by
    simp only [stmt]
    exact (assignment_inStep h ht hv).bind fun _ _ _ _ hx h => .ret h (.single hx)
  | _, _, _, _, _, .call hc, _, h => by
    simp only [stmt]
    refine (refs_inStep h).bind fun r r' _ _ hr h => .ret h ?_
    obtain ⟨rfl, hat⟩ := hr
    exact .single (.call (call_respelled hat hc))
  | _, _, _, _, _, .whileLoop hc hb, hy, h => by
    simp only [stmt]
    refine (refs_inStep h).bind fun r r' _ _ hr h => ?_
    obtain ⟨rfl, hat⟩ := hr
    exact (stmts_inStep hb hy h).bind fun _ _ _ _ hbody h =>
      .ret h (.single (.whileLoop (expr_respelled hat hc) hbody))
  | _, _, _, _, _, .select hsubject hcs, hy, h => by
    simp only [stmt]
    refine (refs_inStep h).bind fun r r' _ _ hr h => ?_
    obtain ⟨rfl, hat⟩ := hr
    exact (cases_inStep hcs hy h).bind fun _ _ _ _ hcases h =>
      .ret h (.single (.select (expr_respelled hat hsubject) hcases))

/-- **Statements are lowered in both runs.** -/
theorem stmts_inStep {families : List String} : ∀ {home : Home} {ss ss' : List Stmt} {s s' : State},
    StmtsRespelled env (Ident.Respells env taken) home ss ss' →
    Allowed taken home (stmtsNames env families ss) (stmtsFootprint env families ss) →
    Alongside env taken home s s' →
    InStep env taken home (StmtsRespelled env (Ident.Respells env taken) home) s s'
      (stmts env families ss) (stmts env families ss')
  | _, _, _, _, _, .nil, _, h => by
    simp only [stmts]
    exact .ret h .nil
  | _, _, _, _, _, .cons hs hss, hy, h => by
    simp only [stmts]
    refine (stmt_inStep hs hy.append.1 h).bind fun _ _ _ _ hfirst h => ?_
    exact (stmts_inStep hss hy.append.2 h).bind fun _ _ _ _ hrest h => .ret h (hfirst.append hrest)

theorem chain_inStep {families : List String} {span : Span} {trace : List Span} :
    ∀ {home : Home} {otherwise otherwise' : Lower (List Stmt)} {bs bs' : List Branch}
      {s s' : State},
    (∀ {s s'}, Alongside env taken home s s' →
      InStep env taken home (StmtsRespelled env (Ident.Respells env taken) home) s s' otherwise
        otherwise') →
    BranchesRespelled env (Ident.Respells env taken) home bs bs' →
    Allowed taken home (branchesNames env families bs) (branchesFootprint env families bs) →
    Alongside env taken home s s' →
    InStep env taken home (Stmt.Respelled env (Ident.Respells env taken) home) s s'
      (chain env families span trace otherwise bs) (chain env families span trace otherwise' bs')
  | _, _, _, _, _, _, _, ho, .nil, _, h => by
    simp only [chain]
    exact (ho h).bind fun _ _ _ _ hother h => .ret h (.ifChain .nil hother)
  | home, otherwise, otherwise', _, _, _, _, ho, .cons hc hb hbs, hy, h => by
    have hrest : ∀ {s s'}, Alongside env taken home s s' →
        InStep env taken home (Stmt.Respelled env (Ident.Respells env taken) home) s s'
          (chain env families span trace otherwise _)
          (chain env families span trace otherwise' _) :=
      fun h => chain_inStep ho hbs hy.append.2 h
    -- The last branch takes the other statements, and does not nest them.
    cases hbs with
    | nil =>
      simp only [chain]
      refine (refs_inStep h).bind fun r r' _ _ hr h => ?_
      obtain ⟨rfl, hat⟩ := hr
      refine (stmts_inStep hb hy.append.1 h).bind fun _ _ _ _ hbody h => ?_
      exact (ho h).bind fun _ _ _ _ hother h =>
        .ret h (.ifChain (.cons (expr_respelled hat hc) hbody .nil) hother)
    | cons _ _ _ =>
      simp only [chain]
      refine (refs_inStep h).bind fun r r' _ _ hr h => ?_
      obtain ⟨rfl, hat⟩ := hr
      refine (stmts_inStep hb hy.append.1 h).bind fun _ _ _ _ hbody h => ?_
      exact (hrest h).bind fun _ _ _ _ hinner h =>
        .ret h (.ifChain (.cons (expr_respelled hat hc) hbody .nil) (.single hinner))

theorem cases_inStep {families : List String} : ∀ {home : Home} {cs cs' : List Case} {s s' : State},
    CasesRespelled env (Ident.Respells env taken) home cs cs' →
    Allowed taken home (casesNames env families cs) (casesFootprint env families cs) →
    Alongside env taken home s s' →
    InStep env taken home (CasesRespelled env (Ident.Respells env taken) home) s s'
      (cases env families cs) (cases env families cs')
  | _, _, _, _, _, .nil, _, h => by
    simp only [cases]
    exact .ret h .nil
  | _, _, _, _, _, .cons hstart hstop hb hcs, hy, h => by
    simp only [cases]
    refine (refs_inStep h).bind fun r r' _ _ hr h => ?_
    obtain ⟨rfl, hat⟩ := hr
    refine (stmts_inStep hb hy.append.1 h).bind fun _ _ _ _ hbody h => ?_
    exact (cases_inStep hcs hy.append.2 h).bind fun _ _ _ _ hrest h =>
      .ret h (.cons (expr_respelled hat hstart) (option_respelled hat hstop) hbody hrest)

theorem accessors_inStep {property : String} : ∀ {home : Home} {fs fs' : List FunctionDef}
    {s s' : State}, FunctionsRespelled env (Ident.Respells env taken) fs fs' →
    accessorsNames env property fs ⊆ taken → Alongside env taken home s s' →
    InStep env taken home (fun _ _ => True) s s' (accessors env property fs)
      (accessors env property fs')
  | _, _, _, _, _, .nil, _, h => by
    simp only [accessors]
    exact .ret h trivial
  | _, _, _, _, _, .cons hb hfs, hnames, h => by
    rw [accessorsNames, List.cons_subset, List.append_subset] at hnames
    simp only [accessors]
    refine (functionWith_inStep h rfl hnames.1 rfl (List.Subset.refl _) fun h =>
      stmts_inStep hb ⟨hnames.2.1, fun _ => List.Subset.refl _⟩ h).bind fun _ _ _ _ _ h => ?_
    exact accessors_inStep hfs hnames.2.2 h

end

end Statements

/-! ### Scripts in two runs -/

section Scripts

variable {R : Home → Ident → Ident → Prop} {bs bs' : List Block}

/-- **Blocks are lowered in both runs.** -/
theorem blocks_inStep (hbs : List.Forall₂ (Block.Respelled env (Ident.Respells env taken)) bs bs')
    (hnames : ∀ b ∈ bs, blockNames env b ⊆ taken) {s s' : State}
    (h : Alongside env taken .callback s s') :
    InStep env taken .callback (List.Forall₂ (Block.Respelled env (Ident.Respells env taken))) s s'
      (blocks env bs) (blocks env bs') := by
  induction hbs generalizing s s' with
  | nil =>
    simp only [blocks]
    exact .ret h .nil
  | cons hb _ ih =>
    rw [List.forall_mem_cons] at hnames
    obtain ⟨hhead, hrest⟩ := hnames
    cases hb with
    | callback hcontrol hbody =>
      simp only [blocks]
      refine (refs_inStep h).bind fun r r' _ _ hr h => ?_
      obtain ⟨rfl, hat⟩ := hr
      refine (stmts_inStep hbody (.callback hhead) h).bind fun _ _ _ _ hstmts h => ?_
      refine (ih hrest h).bind fun _ _ _ _ hblocks h => .ret h (.cons (.callback ?_ hstmts) hblocks)
      cases hcontrol with
      | none => exact .none
      | some hi => exact .some (ident_respells hat hi)
    | function hf =>
      cases hf with
      | cons hbody _ =>
        rw [blockNames, List.cons_subset] at hhead
        simp only [blocks, function]
        refine (functionWith_inStep h rfl hhead.1 rfl (List.Subset.refl _) fun h =>
          stmts_inStep hbody ⟨hhead.2, fun _ => List.Subset.refl _⟩ h).bind fun _ _ _ _ _ h => ?_
        exact ih hrest h

/-- The state in which the blocks of a script are lowered first. -/
def begun (x : Script) : State :=
  ⟨{ writtenNames := x.functions.foldl (fun ns f => Name.insertNew ns f.name.name) [] }, none⟩

theorem script_run (env : Env) (x : Script) :
    (script env x).run {} =
      (blocks env (initFirst x.blocks)).run (begun x) >>= fun r => pure (⟨r.1⟩, r.2.program) := by
  unfold script
  simp only [StateT.run_bind, StateT.run_get, pure_bind]
  change StateT.run (liftM ((blocks env (initFirst x.blocks)).run (begun x))) _ >>= _ = _
  cases (blocks env (initFirst x.blocks)).run (begun x) <;> rfl

/-- The same functions are written in both scripts. -/
theorem begun_respelled (hbs : List.Forall₂ (Block.Respelled env R) bs bs') :
    begun ⟨bs'⟩ = begun ⟨bs⟩ := by
  have hnames : ∀ names, (Script.functions ⟨bs'⟩).foldl
        (fun ns f => Name.insertNew ns f.name.name) names =
      (Script.functions ⟨bs⟩).foldl (fun ns f => Name.insertNew ns f.name.name) names := by
    unfold Script.functions
    induction hbs with
    | nil => exact fun _ => rfl
    | cons hb _ ih =>
      intro names
      cases hb with
      | callback _ _ => exact ih names
      | function hf =>
        cases hf with
        | cons _ _ => exact ih _
  unfold begun
  rw [hnames]

theorem isInitBlock_respelled {b b' : Block} (h : Block.Respelled env R b b') :
    isInitBlock b' = isInitBlock b := by
  cases h <;> rfl

/-- The init callbacks are in the same place. -/
theorem initFirst_respelled (hbs : List.Forall₂ (Block.Respelled env R) bs bs') :
    List.Forall₂ (Block.Respelled env R) (initFirst bs) (initFirst bs') := by
  have hfind : Option.Rel (Block.Respelled env R) (bs.find? isInitBlock) (bs'.find? isInitBlock) :=
    optionRel_find? hbs fun _ _ hb => isInitBlock_respelled hb
  have hrest : List.Forall₂ (Block.Respelled env R) (bs.eraseP isInitBlock)
      (bs'.eraseP isInitBlock) := by
    clear hfind
    induction hbs with
    | nil => exact .nil
    | @cons b b' bs bs' hb hbs ih =>
      rw [List.eraseP_cons, List.eraseP_cons, isInitBlock_respelled hb]
      cases isInitBlock b with
      | true => exact hbs
      | false => exact .cons hb ih
  unfold initFirst
  generalize bs.find? isInitBlock = o at hfind ⊢
  generalize bs'.find? isInitBlock = o' at hfind ⊢
  cases hfind with
  | none => exact .cons (.callback .none .nil) hbs
  | some hinit => exact .cons hinit hrest

/-- **Scripts that differ in references only are lowered alike.** -/
theorem script_together {x x' : Script}
    (hx : List.Forall₂ (Block.Respelled env (Ident.Respells env taken)) x.blocks x'.blocks)
    (hnames : ∀ b ∈ x.blocks, blockNames env b ⊆ taken) :
    Together (fun r r' =>
        List.Forall₂ (Block.Respelled env (Ident.Respells env taken)) r.1.blocks r'.1.blocks ∧
          Alongside env taken .callback ⟨r.2, none⟩ ⟨r'.2, none⟩)
      ((script env x).run {}) ((script env x').run {}) := by
  have hfirst : ∀ b ∈ initFirst x.blocks, blockNames env b ⊆ taken := by
    intro b hb
    rcases Scheme.mem_initFirst hb with hb | rfl
    · exact hnames b hb
    · exact List.nil_subset _
  have hbegun : Alongside env taken .callback (begun x) (begun x') := by
    rw [show begun x' = begun x from begun_respelled hx]
    exact ⟨rfl, .nil, List.nil_subset _, List.nil_subset _, .callback rfl⟩
  rw [script_run, script_run]
  refine Together.map (blocks_inStep (initFirst_respelled hx) hfirst hbegun) ?_
  rintro ⟨bs, s⟩ ⟨bs', s'⟩ ⟨hbs, hs⟩
  exact ⟨hbs, hs.program, hs.functions, hs.families, hs.properties, .callback rfl⟩

end Scripts

end FlatScript.Lowering
