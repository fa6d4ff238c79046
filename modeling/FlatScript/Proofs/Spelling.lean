import FlatScript.Proofs.Lowering.RespelledScripts
import FlatScript.Proofs.Settling

/-!
# The letter case of references

Variables are declared in any letter case, so that a global variable is also found under a reference
in another one. The local variables of a function are no exception when they are declared, but a
reference to one is found by its exact spelling only.

All other references can be respelled: `FlatScript.references_respelled` says that lowering and the
sigils treat two scripts alike that differ in the letter case of such references. Lowering goes in
step for them; for the sigils it is enough that the tables know the same names. What both leave is
compared by writing all names in small letters.
-/

namespace FlatScript

/-! ### Small letters -/

/-- All names are written in small letters. -/
def smallLetters : Renaming := ⟨fun i => { i with name := i.name.toLower }, id⟩

variable {env : Env} {taken : List String} {home : Home} {p p' : Program} {i i' : Ident}

theorem Ident.Respells.smallLetters (h : i.Respells env taken home i') :
    smallLetters.name i' = smallLetters.name i := by
  rcases h with rfl | h
  · rfl
  · simp only [FlatScript.smallLetters, h.sigil, h.letters, h.span, h.qualified]

/-! ### Names in any letter case -/

/-- The names that a program knows are taken. -/
structure Program.Taken (p : Program) (taken : List String) : Prop where
  functions : ∀ e ∈ p.functions, e.name ∈ taken
  families : p.symbols.families ⊆ taken
  properties : p.symbols.properties ⊆ taken

/-- Variables are found in any letter case. -/
theorem Symbols.hasVariable_toLower (symbols : Symbols) (name : String) :
    symbols.hasVariable name.toLower = symbols.hasVariable name := by
  rw [Symbols.hasVariable, Symbols.hasVariable, Text.lower_toLower]

/-- A free name is no built-in with any sigil. -/
theorem Ident.Free.isBuiltin (h : i.Free env taken home) (sigil : Sigil) :
    env.builtins.isBuiltin (sigil.text ++ i.name) = false := by
  rw [← Bool.not_eq_true, Builtins.isBuiltin, List.contains_iff_mem]
  intro hmem
  refine Bool.false_ne_true (h.unprefixed.symm.trans (List.any_eq_true.mpr ⟨_, hmem, ?_⟩))
  rw [Lowering.sigil_split_text]
  exact beq_self_eq_true _

namespace Sigils

section Recased

variable {params : List String}

/-- A free name without a sigil is one of a variable. -/
theorem isSigilFree_free (hp : p.Taken taken) (hparams : params ⊆ home.params)
    (h : i.Free env taken home) (hsigil : i.sigil = none) :
    isSigilFree env.builtins p params i.name = false := by
  have hfull : i.full = i.name := by rw [Ident.full, hsigil]
  have huser : p.isUserFunction i.name = false := by
    rw [← Bool.not_eq_true, Program.isUserFunction_iff]
    intro hmem
    obtain ⟨e, he, heq⟩ := List.mem_map.mp hmem
    exact h.taken (heq ▸ hp.functions e he)
  have hfamily : i.name ∉ p.symbols.families := fun hmem => h.taken (hp.families hmem)
  have hproperty : i.name ∉ p.symbols.properties := fun hmem => h.taken (hp.properties hmem)
  have hparam : Name.firstPart i.name ∉ params := fun hmem => h.param (hfull ▸ hparams hmem)
  simp [isSigilFree, isParam, Symbols.isFamily, Symbols.isProperty, huser, h.function, hfamily,
    hproperty, hparam]

/-- A declared variable is found in any letter case. -/
theorem isDeclared_recased (h : i.Recased env taken home i') (sigil : Sigil) :
    isDeclared env.builtins p (sigil.text ++ i'.name) =
      isDeclared env.builtins p (sigil.text ++ i.name) := by
  have hvariable : p.symbols.hasVariable (sigil.text ++ i'.name) =
      p.symbols.hasVariable (sigil.text ++ i.name) := by
    rw [← Symbols.hasVariable_toLower, Text.toLower_append, h.letters, ← Text.toLower_append,
      Symbols.hasVariable_toLower]
  rw [isDeclared, isDeclared, hvariable, h.left.isBuiltin, h.right.isBuiltin]

/-- **A name in another letter case is found like the name.** -/
theorem resolve_recased (hp : p.Taken taken) (hparams : params ⊆ home.params)
    (h : i.Recased env taken home i') (subscripted : Bool) :
    Together (fun j j' => smallLetters.name j' = smallLetters.name j)
      (resolve env.builtins p params i subscripted)
      (resolve env.builtins p params i' subscripted) := by
  have hsmall (sigil : Option Sigil) :
      smallLetters.name { i' with sigil } = smallLetters.name { i with sigil } := by
    simp only [smallLetters, h.letters, h.span, h.qualified]
  unfold resolve
  rw [h.sigil]
  cases hsigil : i.sigil with
  | none =>
    -- The same sigils fit both spellings.
    have hcandidates : candidates env.builtins p i'.name subscripted =
        candidates env.builtins p i.name subscripted := by
      simp only [candidates, isDeclared_recased h]
    dsimp only
    rw [isSigilFree_free hp hparams h.left hsigil,
      isSigilFree_free hp hparams h.right (h.sigil.trans hsigil), hcandidates]
    simp only [Bool.false_eq_true, if_false]
    split
    · exact .error
    · exact .ok (hsmall _)
    · exact .error
  | some used =>
    have hfull : i.full = used.text ++ i.name ∧ i'.full = used.text ++ i'.name := by
      simp only [Ident.full, h.sigil, hsigil, and_self]
    have hparam : isParam params i.full = false ∧ isParam params i'.full = false := by
      have hleft : Name.firstPart i.full ∉ params := fun hmem => h.left.param (hparams hmem)
      have hright : Name.firstPart i'.full ∉ params := fun hmem => h.right.param (hparams hmem)
      simp [isParam, hleft, hright]
    have hdeclared : isDeclared env.builtins p i'.full = isDeclared env.builtins p i.full := by
      rw [hfull.1, hfull.2, isDeclared_recased h]
    dsimp only
    rw [hparam.1, hparam.2, hdeclared]
    split
    · exact .ok (Ident.Respells.smallLetters (.inr h))
    -- Declared under another sigil or not at all: an error either way.
    · split <;> split <;> exact .error

end Recased

/-- **A respelled name is found like the name**, in programs that know the same names. -/
theorem ident_respells (hnames : SameNames p p') (hp : p.Taken taken) {scope : Scope}
    (hscope : scope.params ⊆ home.params) (h : i.Respells env taken home i') (subscripted : Bool) :
    Together (fun j j' => smallLetters.name j' = smallLetters.name j)
      (ident env p scope i subscripted) (ident env p' scope i' subscripted) := by
  have hresolve : Together (fun j j' => smallLetters.name j' = smallLetters.name j)
      (resolve env.builtins p scope.params i subscripted)
      (resolve env.builtins p' scope.params i' subscripted) := by
    rw [resolve_sameNames hnames]
    rcases h with rfl | h
    · cases resolve env.builtins p scope.params i' subscripted with
      | error fault => exact .error
      | ok j => exact .ok rfl
    · exact resolve_recased hp hscope h subscripted
  unfold ident
  generalize resolve env.builtins p scope.params i subscripted = x at hresolve ⊢
  generalize resolve env.builtins p' scope.params i' subscripted = x' at hresolve ⊢
  cases hresolve with
  | ok h => exact .ok h
  | error => exact .error

section Expressions

variable {scope : Scope}

theorem isEmpty_of_exprs_eq {g : Renaming} {es es' : List Expr} (h : g.exprs es' = g.exprs es) :
    es'.isEmpty = es.isEmpty := by
  rw [Renaming.exprs_eq_map, Renaming.exprs_eq_map] at h
  simpa using congrArg List.isEmpty h

mutual

/-- **A respelled expression gets its sigils like the expression.** -/
theorem expr_respelled (hnames : SameNames p p') (hp : p.Taken taken)
    (hscope : scope.params ⊆ home.params) : ∀ {e e' : Expr},
    Expr.Respelled (Ident.Respells env taken home) e e' →
      Together (fun r r' => smallLetters.expr r' = smallLetters.expr r) (expr env p scope e)
        (expr env p' scope e')
  | _, _, .binary hleft hright => by
    simp only [expr]
    refine (expr_respelled hnames hp hscope hleft).bind fun _ _ hl => ?_
    refine (expr_respelled hnames hp hscope hright).map fun _ _ hr => ?_
    simp only [Renaming.expr, hl, hr]
  | _, _, .unary hoperand => by
    simp only [expr]
    refine (expr_respelled hnames hp hscope hoperand).map fun _ _ ho => ?_
    simp only [Renaming.expr, ho]
  | _, _, .var hi hes => by
    simp only [expr]
    refine (exprs_respelled hnames hp hscope hes).bind fun es es' hes' => ?_
    rw [isEmpty_of_exprs_eq hes']
    refine (ident_respells hnames hp hscope hi _).map fun _ _ hname => ?_
    simp only [Renaming.expr, hname, hes']
  | _, _, .call hargs => by
    simp only [expr]
    refine (arguments_respelled hnames hp hscope hargs).map fun _ _ hargs' => ?_
    simp only [Renaming.expr, hargs']
  | .int _ _, _, .literal _ | .real _ _, _, .literal _ | .str _ _, _, .literal _
  | .bool _ _, _, .literal _ | .raw _ _, _, .literal _ => by
    simp only [expr]
    exact .ok rfl

/-- Respelled expressions get their sigils like the expressions. -/
theorem exprs_respelled (hnames : SameNames p p') (hp : p.Taken taken)
    (hscope : scope.params ⊆ home.params) : ∀ {es es' : List Expr},
    ExprsRespelled (Ident.Respells env taken home) es es' →
      Together (fun rs rs' => smallLetters.exprs rs' = smallLetters.exprs rs)
        (exprs env p scope es) (exprs env p' scope es')
  | _, _, .nil => .ret rfl
  | _, _, .cons he hes => by
    simp only [exprs]
    refine (expr_respelled hnames hp hscope he).bind fun _ _ hm => ?_
    refine (exprs_respelled hnames hp hscope hes).map fun _ _ hms => ?_
    simp only [Renaming.exprs, hm, hms]

theorem arguments_respelled (hnames : SameNames p p') (hp : p.Taken taken)
    (hscope : scope.params ⊆ home.params) {keepFirst : Bool} : ∀ {es es' : List Expr},
    ExprsRespelled (Ident.Respells env taken home) es es' →
      Together (fun rs rs' => smallLetters.exprs rs' = smallLetters.exprs rs)
        (arguments env p scope keepFirst es) (arguments env p' scope keepFirst es')
  | _, _, .nil => .ret rfl
  | _, _, .cons he hes => by
    simp only [arguments]
    split
    · refine (exprs_respelled hnames hp hscope hes).map fun _ _ hms => ?_
      simp only [Renaming.exprs, he.renamed fun _ _ => Ident.Respells.smallLetters, hms]
    · refine (expr_respelled hnames hp hscope he).bind fun _ _ hm => ?_
      refine (exprs_respelled hnames hp hscope hes).map fun _ _ hms => ?_
      simp only [Renaming.exprs, hm, hms]

end

/-- **The leaves of respelled statements get their sigils alike.** -/
theorem leafMap_keeps (hnames : SameNames p p') (hp : p.Taken taken) :
    (leafMap env p).Keeps (leafMap env p') (Ident.Respells env taken) smallLetters where
  expr hscope he := expr_respelled hnames hp hscope he
  target hscope hv := by
    simp only [leafMap, varRef]
    refine (exprs_respelled hnames hp hscope hv.subscripts).bind fun es es' hes => ?_
    rw [isEmpty_of_exprs_eq hes, hv.span]
    refine (ident_respells hnames hp hscope hv.ident _).map fun _ _ hname => ?_
    simp only [Renaming.varRef, hname, hes]
  call hscope hc := by
    simp only [leafMap, call]
    rw [hc.rest]
    refine (arguments_respelled hnames hp hscope hc.args).map fun _ _ hargs => ?_
    simp only [Renaming.call, hargs]

end Expressions

/-! ### Tables and scripts -/

/-- **A function of the table gets its sigils alike.** -/
theorem entry_respelled (hnames : SameNames p p') (hp : p.Taken taken) {e e' : FunctionEntry}
    (h : Lowering.EntryRespelled env taken home e e') :
    Together (fun r r' => r'.rename smallLetters = r.rename smallLetters) (entry env p e)
      (entry env p' e') := by
  have hkeeps : (leafMap env p).Keeps (leafMap env p') (Ident.Respells env taken) smallLetters :=
    leafMap_keeps hnames hp
  have hparams : e'.fn.paramNames = e.fn.paramNames := by
    rw [h.rest]
    rfl
  have hframe : smallLetters.stmts e'.frame = smallLetters.stmts e.frame :=
    h.frame.renamed fun _ _ _ => Ident.Respells.smallLetters
  have hrest := h.rest
  simp only [entry]
  rw [hparams]
  refine (hkeeps.stmts h.params h.body).bind fun body body' hbody => ?_
  refine (hkeeps.stmts h.params h.globals).bind fun globals globals' hglobals => ?_
  refine (hkeeps.stmts h.params h.locals).map fun locals locals' hlocals => ?_
  rw [hrest]
  simp only [withStmts, FunctionEntry.rename, hbody, hglobals, hlocals, hframe]

end Sigils

/-- **Two results that are the same in small letters**: scripts, and programs with the functions in
their tables. -/
structure SameInSmallLetters (r r' : Script × Program) : Prop where
  script : smallLetters.script r'.1 = smallLetters.script r.1
  functions : r'.2.functions.map (·.rename smallLetters) = r.2.functions.map (·.rename smallLetters)
  rest : r'.2 = { r.2 with functions := r'.2.functions }

namespace Sigils

open Lowering (Alongside)

/-- **Respelled scripts get their sigils alike**, with the tables of their functions. -/
theorem script_together {x x' : Script} (hp : Alongside env taken .callback ⟨p, none⟩ ⟨p', none⟩)
    (hx : List.Forall₂ (Block.Respelled env (Ident.Respells env taken)) x.blocks x'.blocks) :
    Together SameInSmallLetters ((script env x).run p) ((script env x').run p') := by
  have htaken : ∀ e ∈ p.functions, e.name ∈ taken := by
    intro e he
    obtain ⟨_, _, _, hentry⟩ := exists_mem_of_forall₂ (List.Forall₂.flip hp.functions) he
    exact hentry.name
  have hprogram : p' = { p with functions := p'.functions } := hp.program
  have hsame : SameNames p p' := ⟨by rw [hprogram], Lowering.names_respelled hp.functions⟩
  have hknown : p.Taken taken := ⟨htaken, hp.families, hp.properties⟩
  rw [script_run_eq, script_run_eq]
  have hcontrol : ∀ i i', i.Respells env taken .callback i' →
      Together (fun j j' => smallLetters.name j' = smallLetters.name j)
        (ident env p ⟨[], []⟩ i false) (ident env p' ⟨[], []⟩ i' false) :=
    fun _ _ hi => ident_respells hsame hknown (List.nil_subset _) hi false
  refine ((leafMap_keeps hsame hknown).script hcontrol hx).bind fun y y' hy => ?_
  have htables : Together (List.Forall₂ fun f f' => f'.rename smallLetters = f.rename smallLetters)
      (p.functions.mapM (entry env p)) (p'.functions.mapM (entry env p')) :=
    .list hp.functions fun _ _ ⟨_, he⟩ => entry_respelled hsame hknown he
  refine htables.map fun fs fs' hfs => ⟨hy, ?_, ?_⟩
  · exact map_eq_of_forall₂ hfs fun _ _ hf => hf
  · exact congrArg (fun q : Program => { q with functions := fs' }) hprogram

end Sigils

/-! ### Scripts -/

/-- **Scripts that differ in the letter case of references**, where no spelling of such a reference
is a name that is found by its exact spelling. -/
def Script.Respelled (env : Env) (x x' : Script) : Prop :=
  List.Forall₂
    (Block.Respelled env (Ident.Respells env (x.blocks.flatMap (Lowering.blockNames env))))
    x.blocks x'.blocks

/-- **The letter case of references does not matter** to lowering and the sigils, but for those that
are written exactly like a local variable of the function around them, or like another name that is
found by its spelling: for two scripts that differ in the other references only, both succeed or
both fail, and they leave the same script and the same functions, up to letter case. -/
theorem references_respelled {env : Env} {x x' : Script} (h : x.Respelled env x') :
    Together SameInSmallLetters ((Lowering.script env x >>= Sigils.script env).run {})
      ((Lowering.script env x' >>= Sigils.script env).run {}) := by
  have hnames : ∀ b ∈ x.blocks,
      Lowering.blockNames env b ⊆ x.blocks.flatMap (Lowering.blockNames env) :=
    fun b hb _ hmem => List.mem_flatMap.mpr ⟨b, hb, hmem⟩
  rw [StateT.run_bind, StateT.run_bind]
  exact (Lowering.script_together h hnames).bind fun r r' hr => Sigils.script_together hr.2 hr.1

/-- A name without a sigil. -/
def bareName (text : String) (line : Nat) : Ident := ⟨none, text, ⟨line, 1, 1⟩, false⟩

/-- The declaration of a variable. -/
def bareDeclare (text : String) (line : Nat) : Stmt :=
  ⟨.declare ⟨bareName text line, [], none, [], none⟩, ⟨line, 1, 1⟩, []⟩

/-- A function that assigns its local variable to a global one. -/
def countingFunction (counter : String) : FunctionDef where
  name := bareName "f" 4
  params := []
  result := none
  body := [bareDeclare "part" 5,
    ⟨.assign (.plain (bareName counter 6)) (.var (bareName "part" 6) [] ⟨6, 1, 1⟩), ⟨6, 1, 1⟩, []⟩]
  isTaskfunc := false
  isOverride := false
  span := ⟨4, 1, 1⟩

/-- A script with this function and a global variable `count`. -/
def countingScript (counter : String) : Script :=
  ⟨[.callback ⟨"init", none, [bareDeclare "count" 2], ⟨1, 1, 1⟩⟩,
    .function (countingFunction counter)]⟩

/-- The global variable can be written in capital letters: the script is compiled to the same up to
letter case. -/
theorem countingScript_respelled :
    (countingScript "count").Respelled ⟨{}, .empty⟩ (countingScript "COUNT") ∧
      ∃ r r', (Lowering.script ⟨{}, .empty⟩ (countingScript "count") >>=
          Sigils.script ⟨{}, .empty⟩).run {} = .ok r ∧
        (Lowering.script ⟨{}, .empty⟩ (countingScript "COUNT") >>=
          Sigils.script ⟨{}, .empty⟩).run {} = .ok r' ∧ SameInSmallLetters r r' := by
  have hrespelled : (countingScript "count").Respelled ⟨{}, .empty⟩ (countingScript "COUNT") := by
    have hcounter : (bareName "count" 6).Recased ⟨{}, .empty⟩ ["f"]
        (.of ⟨{}, .empty⟩ (countingFunction "count")) (bareName "COUNT" 6) := by
      have hletters : "COUNT".toLower = "count".toLower := by
        simp [← String.toList_inj, Text.toList_toLower]
      exact ⟨rfl, rfl, rfl, hletters, by decide +kernel, by decide +kernel, by decide +kernel,
        by decide +kernel⟩
    have hbody : StmtsRespelled ⟨{}, .empty⟩ (Ident.Respells ⟨{}, .empty⟩ ["f"])
        (.of ⟨{}, .empty⟩ (countingFunction "count")) (countingFunction "count").body
        (countingFunction "COUNT").body :=
      .cons (.declare ⟨rfl, rfl, .none, .nil, .none⟩)
        (.single (.assign ⟨.inr hcounter, .nil, rfl⟩ (.refl .refl _)))
    have hfunction : FunctionsRespelled ⟨{}, .empty⟩ (Ident.Respells ⟨{}, .empty⟩ ["f"])
        [countingFunction "count"] [countingFunction "COUNT"] := .cons hbody .nil
    have htaken : (countingScript "count").blocks.flatMap (Lowering.blockNames ⟨{}, .empty⟩) =
        ["f"] := by
      decide +kernel
    have hinit : StmtsRespelled ⟨{}, .empty⟩ (Ident.Respells ⟨{}, .empty⟩ ["f"]) .callback
        [bareDeclare "count" 2] [bareDeclare "count" 2] :=
      .single (.declare ⟨rfl, rfl, .none, .nil, .none⟩)
    unfold Script.Respelled
    rw [htaken]
    exact .cons (.callback .none hinit) (.cons (.function hfunction) .nil)
  have hok : ∀ text ∈ ["count", "COUNT"], ((Lowering.script ⟨{}, .empty⟩ (countingScript text) >>=
      Sigils.script ⟨{}, .empty⟩).run {}).toOption.isSome := by decide +kernel
  rw [List.forall_mem_cons, List.forall_mem_singleton] at hok
  obtain ⟨r, hr⟩ := Option.isSome_iff_exists.mp hok.1
  obtain ⟨r', hr'⟩ := Option.isSome_iff_exists.mp hok.2
  rw [Except.toOption_eq_some] at hr hr'
  exact ⟨hrespelled, r, r', hr, hr', (references_respelled hrespelled).results hr hr'⟩

end FlatScript
