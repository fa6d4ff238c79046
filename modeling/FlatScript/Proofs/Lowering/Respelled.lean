import FlatScript.Proofs.Lowering.Abreast
import FlatScript.Proofs.Respelled
import Mathlib.Tactic.MkIffOfInductiveProp

/-!
# Lowering references in another letter case

Lowering finds built-ins, functions, parameters and the local variables of a function by the exact
spelling of a reference. A reference that has none of these names, before and behind namespaces, is
left to be found among the global variables: it is `FlatScript.Ident.Free`.

Here two runs of lowering are compared, whose references differ in letter case where they are free
(`FlatScript.Ident.Respells`). `FlatScript.Lowering.Alongside` is what their states have in common,
and `FlatScript.Lowering.InStep` says of two steps that they end alike and keep it. The leaves come
first, then the declarations, `FlatScript.Lowering.declaration_inStep`.
-/

namespace FlatScript

/-! ### References that are found in any letter case -/

/-- **A reference has no name that is found by its exact spelling**: of a built-in, of a function, a
family or a property of the script, of a parameter or of a variable that the function around it
declares. -/
@[mk_iff]
structure Ident.Free (env : Env) (taken : List String) (home : Home) (i : Ident) : Prop where
  function : env.builtins.isFunction i.name = false
  keyword : env.builtins.isKeyword i.name = false
  unprefixed : env.builtins.isBuiltinUnprefixed i.name = false
  taken : i.name ∉ taken
  param : Name.firstPart i.full ∉ home.params
  declared : i.name ∉ home.locals

/-- **References that differ in letter case**, and are free before and behind namespaces. -/
structure Ident.Recased (env : Env) (taken : List String) (home : Home) (i i' : Ident) : Prop where
  sigil : i'.sigil = i.sigil
  span : i'.span = i.span
  qualified : i'.qualified = i.qualified
  letters : i'.name.toLower = i.name.toLower
  left : i.Free env taken home
  right : i'.Free env taken home
  leftUnder : (i.qualifyDeclared env.lines).Free env taken home
  rightUnder : (i'.qualifyDeclared env.lines).Free env taken home

instance (env : Env) (taken : List String) (home : Home) (i : Ident) :
    Decidable (i.Free env taken home) := decidable_of_iff' _ (Ident.free_iff ..)

/-- A reference is spelled in the same way, or it is free and the letter case is different. -/
def Ident.Respells (env : Env) (taken : List String) (home : Home) (i i' : Ident) : Prop :=
  i' = i ∨ i.Recased env taken home i'

variable {env : Env} {taken : List String} {home : Home} {i i' : Ident}

theorem Ident.Respells.refl (i : Ident) : i.Respells env taken home i := .inl rfl

theorem Ident.Free.congr {j : Ident} (h : i.Free env taken home) (hsigil : j.sigil = i.sigil)
    (hname : j.name = i.name) : j.Free env taken home := by
  have hfull : j.full = i.full := by rw [Ident.full, Ident.full, hsigil, hname]
  exact ⟨hname ▸ h.function, hname ▸ h.keyword, hname ▸ h.unprefixed, hname ▸ h.taken,
    hfull ▸ h.param, hname ▸ h.declared⟩

namespace Lowering

/-- What references in a function are resolved by. -/
structure Refs.At (env : Env) (home : Home) (r : Refs) : Prop where
  env : r.env = env
  params : r.params ⊆ home.params
  substitutions : ∀ x ∈ r.substitutions, x.1 ∈ home.locals

section References

variable {r : Refs}

/-- A free name gets its namespaces. -/
theorem Refs.At.qualify (hr : r.At env home) (h : i.Free env taken home) :
    r.qualify i = { i.qualifyDeclared env.lines with qualified := true } := by
  have hkeeps : i.keepsName env.builtins r.written r.params = false := by
    have hparam : Name.firstPart i.full ∉ r.params := fun hmem => h.param (hr.params hmem)
    simp [Ident.keepsName, h.function, h.keyword, h.unprefixed, hparam]
  unfold Refs.qualify Ident.qualify Ident.qualifyDeclared
  rw [hr.env, hkeeps]
  split
  · next hqualified => rw [← hqualified]
  · cases hns : (env.lines.info i.span.line).namespaces with
    | nil => rfl
    | cons n ns => rfl

/-- **A free name in another letter case stays one under its namespaces.** -/
theorem qualify_recased (hr : r.At env home) (h : i.Recased env taken home i') :
    (r.qualify i).Recased env taken home (r.qualify i') := by
  rw [hr.qualify h.left, hr.qualify h.right]
  have hleft := h.leftUnder.congr (j := { i.qualifyDeclared env.lines with qualified := true })
    rfl rfl
  have hright := h.rightUnder.congr (j := { i'.qualifyDeclared env.lines with qualified := true })
    rfl rfl
  refine ⟨?_, ?_, rfl, ?_, hleft, hright, hleft, hright⟩ <;>
    simp only [Ident.qualifyDeclared, h.qualified, h.span] <;> split
  · exact h.sigil
  · exact h.sigil
  · exact h.span
  · exact h.span
  · exact h.letters
  · exact Name.toLower_qualified _ h.letters

/-- A free name is not one of a local variable. -/
theorem substitute?_free (hr : r.At env home) (h : i.Free env taken home) :
    r.substitute? i = none := by
  refine List.lookup_eq_none_iff.mpr fun x hx => ?_
  simpa using fun heq : i.name = x.1 => h.declared (heq ▸ hr.substitutions x hx)

/-- **What a respelled name is resolved to.** -/
theorem ident_respells (hr : r.At env home) (h : i.Respells env taken home i') :
    (r.ident i).Respells env taken home (r.ident i') := by
  rcases h with rfl | h
  · exact .refl _
  · have hq := qualify_recased hr h
    simp only [Refs.ident, substitute?_free hr hq.left, substitute?_free hr hq.right]
    exact .inr hq

theorem varRef_respells (hr : r.At env home) (h : i.Respells env taken home i') {es es' : List Expr}
    (hes : ExprsRespelled (Ident.Respells env taken home) es es') (span : Span) :
    (r.varRef i es span).Respelled (Ident.Respells env taken home) (r.varRef i' es' span) := by
  rcases h with rfl | h
  · unfold Refs.varRef
    dsimp only
    cases r.substitute? (r.qualify i') with
    | none => exact ⟨.refl _, hes, rfl⟩
    | some v => exact ⟨.refl _, hes.append (.refl .refl _), rfl⟩
  · have hq := qualify_recased hr h
    simp only [Refs.varRef, substitute?_free hr hq.left, substitute?_free hr hq.right]
    exact ⟨.inr hq, hes, rfl⟩

mutual

/-- **What a respelled expression is resolved to.** -/
theorem expr_respelled (hr : r.At env home) : ∀ {e e' : Expr},
    Expr.Respelled (Ident.Respells env taken home) e e' →
      Expr.Respelled (Ident.Respells env taken home) (expr r e) (expr r e')
  | _, _, .binary hleft hright => by
    simp only [expr]
    exact .binary (expr_respelled hr hleft) (expr_respelled hr hright)
  | _, _, .unary hoperand => by
    simp only [expr]
    exact .unary (expr_respelled hr hoperand)
  | _, _, .var hi hes => by
    simp only [expr]
    exact (varRef_respells hr hi (exprs_respelled hr hes) _).toExpr
  | _, _, .call hargs => by
    simp only [expr]
    exact .call (arguments_respelled hr hargs)
  | e, _, .literal h => .refl .refl _

/-- What respelled expressions are resolved to. -/
theorem exprs_respelled (hr : r.At env home) : ∀ {es es' : List Expr},
    ExprsRespelled (Ident.Respells env taken home) es es' →
      ExprsRespelled (Ident.Respells env taken home) (exprs r es) (exprs r es')
  | _, _, .nil => .nil
  | _, _, .cons he hes => .cons (expr_respelled hr he) (exprs_respelled hr hes)

theorem arguments_respelled (hr : r.At env home) {keepFirst : Bool} : ∀ {es es' : List Expr},
    ExprsRespelled (Ident.Respells env taken home) es es' →
      ExprsRespelled (Ident.Respells env taken home) (arguments r keepFirst es)
        (arguments r keepFirst es')
  | _, _, .nil => .nil
  | _, _, .cons he hes => by
    simp only [arguments]
    refine .cons ?_ (exprs_respelled hr hes)
    split
    · exact he
    · exact expr_respelled hr he

end

theorem varRef_respelled (hr : r.At env home) {v v' : VarRef}
    (h : v.Respelled (Ident.Respells env taken home) v') :
    (varRef r v).Respelled (Ident.Respells env taken home) (varRef r v') := by
  unfold varRef
  rw [h.span]
  exact varRef_respells hr h.ident (exprs_respelled hr h.subscripts) _

theorem call_respelled (hr : r.At env home) {c c' : Call}
    (h : c.Respelled (Ident.Respells env taken home) c') :
    (call r c).Respelled (Ident.Respells env taken home) (call r c') := by
  obtain ⟨hargs, hrest⟩ := h
  rw [hrest]
  exact ⟨arguments_respelled hr hargs, rfl⟩

theorem option_respelled (hr : r.At env home) {o o' : Option Expr}
    (h : Option.Rel (Expr.Respelled (Ident.Respells env taken home)) o o') :
    Option.Rel (Expr.Respelled (Ident.Respells env taken home)) (o.map (expr r))
      (o'.map (expr r)) :=
  optionRel_map h fun _ _ he => expr_respelled hr he

theorem initializer_respelled (hr : r.At env home) {v v' : Initializer}
    (h : v.Respelled (Ident.Respells env taken home) v') :
    (initializer r v).Respelled (Ident.Respells env taken home) (initializer r v') := by
  cases h with
  | single he => exact .single (expr_respelled hr he)
  | list hes => exact .list (exprs_respelled hr hes)

end References

/-! ### Declarations -/

section Declarations

variable {R : Ident → Ident → Prop} {r : Refs} {d d' : Declaration}

/-- The sigil of a declaration does not depend on references. -/
theorem inferSigil_respelled (h : d.Respelled R d') : inferSigil d' = inferSigil d := by
  have hsame := h.renamed (g := ⟨fun _ => default, id⟩) fun _ _ _ => rfl
  rw [← inferSigil_rename _ d', hsame, inferSigil_rename]

/-- **A declaration is lowered to one of the same name.** -/
theorem lowered_respelled (hr : r.At env home) (families : List String)
    (h : d.Respelled (Ident.Respells env taken home) d') :
    (lowered r families d).Respelled (Ident.Respells env taken home) (lowered r families d') := by
  have hvalues : Option.Rel (Initializer.Respelled (Ident.Respells env taken home))
      (d.init.map (initializer r)) (d'.init.map (initializer r)) :=
    optionRel_map h.init fun _ _ hi => initializer_respelled hr hi
  -- Before the sigil is found.
  have hbare : Declaration.Respelled (Ident.Respells env taken home)
      ⟨declaredName r.env families d.name, d.modifiers, d.size.map (expr r), exprs r d.params,
        d.init.map (initializer r)⟩
      ⟨declaredName r.env families d'.name, d'.modifiers, d'.size.map (expr r), exprs r d'.params,
        d'.init.map (initializer r)⟩ :=
    ⟨by rw [h.name], h.modifiers, option_respelled hr h.size, exprs_respelled hr h.params, hvalues⟩
  have hsigil := inferSigil_respelled hbare
  rw [h.name] at hsigil
  refine ⟨?_, hbare.modifiers, hbare.size, hbare.params, hbare.init⟩
  simp only [lowered, h.name, hsigil]

end Declarations

/-! ### States -/

/-- **Functions of the table that differ in references only**, with all that is known of them. -/
structure EntryRespelled (env : Env) (taken : List String) (home : Home) (e e' : FunctionEntry) :
    Prop where
  name : e.name ∈ taken
  params : e.fn.paramNames ⊆ home.params
  substitutions : ∀ x ∈ e.substitutions, x.1 ∈ home.locals
  body : StmtsRespelled env (Ident.Respells env taken) home e.fn.body e'.fn.body
  globals : StmtsRespelled env (Ident.Respells env taken) home e.globals e'.globals
  locals : StmtsRespelled env (Ident.Respells env taken) home e.locals e'.locals
  frame : StmtsRespelled env (Ident.Respells env taken) home e.frame e'.frame
  rest : e' = { e with
    fn := { e.fn with body := e'.fn.body }
    globals := e'.globals
    locals := e'.locals
    frame := e'.frame }

/-- Tables whose functions differ in references only. -/
abbrev TablesRespelled (env : Env) (taken : List String) :
    List FunctionEntry → List FunctionEntry → Prop :=
  List.Forall₂ fun e e' => ∃ home, EntryRespelled env taken home e e'

/-- The functions around the statements at hand. -/
inductive AroundRespelled (env : Env) (taken : List String) (home : Home) :
    Option FunctionEntry → Option FunctionEntry → Prop
  | callback (h : home.inFunction = false) : AroundRespelled env taken home none none
  | function {e e' : FunctionEntry} (h : home.inFunction = true)
    (he : EntryRespelled env taken home e e') : AroundRespelled env taken home (some e) (some e')

/-- **The states of two runs over scripts that differ in references only.** -/
structure Alongside (env : Env) (taken : List String) (home : Home) (s s' : State) : Prop where
  program : s'.program = { s.program with functions := s'.program.functions }
  functions : TablesRespelled env taken s.program.functions s'.program.functions
  families : s.program.symbols.families ⊆ taken
  properties : s.program.symbols.properties ⊆ taken
  around : AroundRespelled env taken home s.current s'.current

/-- **Two steps that end alike**, with states that are still alongside. -/
def InStep {α β : Type} (env : Env) (taken : List String) (home : Home) (Q : α → β → Prop)
    (s s' : State) (x : Lower α) (x' : Lower β) : Prop :=
  Together (fun r r' => Q r.1 r'.1 ∧ Alongside env taken home r.2 r'.2) (x.run s) (x'.run s')

section Steps

variable {α α' β β' : Type} {s s' : State} {Q : α → α' → Prop} {R : β → β' → Prop}

theorem InStep.ret {a : α} {a' : α'} (h : Alongside env taken home s s') (hQ : Q a a') :
    InStep env taken home Q s s' (pure a) (pure a') := .ok ⟨hQ, h⟩

theorem InStep.bind {x : Lower α} {x' : Lower α'} {f : α → Lower β} {f' : α' → Lower β'}
    (hx : InStep env taken home Q s s' x x')
    (hf : ∀ a a' t t', Q a a' → Alongside env taken home t t' →
      InStep env taken home R t t' (f a) (f' a')) :
    InStep env taken home R s s' (x >>= f) (x' >>= f') := by
  unfold InStep
  rw [StateT.run_bind, StateT.run_bind]
  exact Together.bind hx fun r r' hr => hf r.1 r'.1 r.2 r'.2 hr.1 hr.2

/-- References are resolved by the same in both runs. -/
theorem Alongside.refs (h : Alongside env taken home s s') :
    refsOf env s'.program.writtenNames s'.current = refsOf env s.program.writtenNames s.current ∧
      (refsOf env s.program.writtenNames s.current).At env home := by
  have hwritten : s'.program.writtenNames = s.program.writtenNames := by rw [h.program]
  rw [hwritten]
  have haround := h.around
  generalize s.current = c at haround ⊢
  generalize s'.current = c' at haround ⊢
  cases haround with
  | callback _ => exact ⟨rfl, rfl, List.nil_subset _, nofun⟩
  | function _ he =>
    refine ⟨?_, rfl, he.params, he.substitutions⟩
    rw [he.rest]
    rfl

theorem refs_inStep (h : Alongside env taken home s s') :
    InStep env taken home (fun r r' => r' = r ∧ r.At env home) s s' (refs env) (refs env) := by
  unfold InStep
  rw [refs_run, refs_run]
  obtain ⟨heq, hat⟩ := h.refs
  exact .ok ⟨⟨heq, hat⟩, h⟩

/-- Families and properties are brought in both runs. -/
theorem modifySymbols_inStep (h : Alongside env taken home s s') {m : Symbols → Symbols}
    (hfamilies : (m s.program.symbols).families ⊆ taken)
    (hproperties : (m s.program.symbols).properties ⊆ taken) :
    InStep env taken home (fun _ _ => True) s s' (modifySymbols m) (modifySymbols m) := by
  refine .ok ⟨trivial, ?_, h.functions, hfamilies, hproperties, h.around⟩
  have hsymbols : s'.program.symbols = s.program.symbols := by rw [h.program]
  show ({ s'.program with symbols := m s'.program.symbols } : Program) = _
  rw [hsymbols, h.program]

/-- A variable is declared in both runs. -/
theorem Alongside.withVariable {p p' : Program} {c c' : Option FunctionEntry}
    (h : Alongside env taken home ⟨p, c⟩ ⟨p', c'⟩) (name : String) (isUi : Bool)
    {d d' : Option FunctionEntry} (haround : AroundRespelled env taken home d d') :
    Alongside env taken home ⟨Lowering.withVariable p name isUi, d⟩
      ⟨Lowering.withVariable p' name isUi, d'⟩ := by
  refine ⟨?_, h.functions, h.families, h.properties, haround⟩
  have hprogram : p' = { p with functions := p'.functions } := h.program
  have hsymbols : p'.symbols = p.symbols := by rw [hprogram]
  show Lowering.withVariable p' name isUi = _
  unfold Lowering.withVariable
  rw [hsymbols, hprogram]

end Steps

/-! ### Declarations in two runs -/

section Declarations

variable {e e' : FunctionEntry} {d d' : Declaration} {span : Span} {trace : List Span}

/-- What a variable starts with is assigned in both runs. -/
theorem splitInit_respelled (target : VarRef) (span : Span) (trace : List Span)
    (h : d.Respelled (Ident.Respells env taken home) d') :
    StmtsRespelled env (Ident.Respells env taken) home
        ((splitInit target d).1.map (⟨·, span, trace⟩))
        ((splitInit target d').1.map (⟨·, span, trace⟩)) ∧
      (splitInit target d).2.Respelled (Ident.Respells env taken home) (splitInit target d').2 := by
  have hconst : d'.isConst = d.isConst := by
    simp only [Declaration.isConst, Declaration.hasModifier, h.modifiers]
  have hinit := h.init
  unfold splitInit
  rw [hconst, optionRel_isSome h.size]
  split
  · exact ⟨.nil, h⟩
  · rcases hd : d.init with _ | (value | values) <;>
      rcases hd' : d'.init with _ | (value' | values') <;>
      rw [hd, hd'] at hinit <;> cases hinit
    · exact ⟨.nil, ⟨h.name, h.modifiers, h.size, h.params, .none⟩⟩
    · next hi =>
      cases hi with
      | single hv => exact ⟨.single (.assign ⟨.refl _, .refl .refl _, rfl⟩ hv),
          ⟨h.name, h.modifiers, h.size, h.params, .none⟩⟩
    · next hi => cases hi
    · next hi => cases hi
    · exact ⟨.nil, ⟨h.name, h.modifiers, h.size, h.params, .none⟩⟩

/-- Both runs note that a variable is declared. -/
theorem EntryRespelled.note (h : EntryRespelled env taken home e e') (names : List String) :
    EntryRespelled env taken home { e with localNames := names } { e' with localNames := names } :=
  ⟨h.name, h.params, h.substitutions, h.body, h.globals, h.locals, h.frame, by rw [h.rest]⟩

/-- A global variable is declared in both runs. -/
theorem EntryRespelled.addGlobal (h : EntryRespelled env taken home e e')
    (hd : d.Respelled (Ident.Respells env taken home) d') (span : Span) (trace : List Span) :
    EntryRespelled env taken home { e with globals := e.globals ++ [⟨.declare d, span, trace⟩] }
      { e' with globals := e'.globals ++ [⟨.declare d', span, trace⟩] } :=
  ⟨h.name, h.params, h.substitutions, h.body, h.globals.append (.single (.declare hd)), h.locals,
    h.frame, by rw [h.rest]⟩

/-- A cell of the frame is declared in both runs. -/
theorem EntryRespelled.addFrameLocal (h : EntryRespelled env taken home e e')
    (hd : d.Respelled (Ident.Respells env taken home) d') (hname : d.name.name ∈ home.locals)
    (span : Span) (trace : List Span) :
    StmtsRespelled env (Ident.Respells env taken) home (addFrameLocal e d span trace).1
        (addFrameLocal e' d' span trace).1 ∧
      EntryRespelled env taken home (addFrameLocal e d span trace).2
        (addFrameLocal e' d' span trace).2 := by
  have hlength : e'.frame.length = e.frame.length := h.frame.length
  unfold Lowering.addFrameLocal
  rw [hlength, hd.name]
  obtain ⟨hassigns, hdecl⟩ := splitInit_respelled
    (Frame.slot Frame.framePointer .add (e.frame.length + 1) d.name.span) span trace hd
  refine ⟨hassigns, h.name, h.params, ?_, h.body, h.globals, h.locals,
    h.frame.append (.single (.declare hdecl)), ?_⟩
  · exact List.forall_mem_cons.mpr ⟨hname, h.substitutions⟩
  · have hsubstitutions : e'.substitutions = e.substitutions := by rw [h.rest]
    dsimp only
    rw [hsubstitutions, h.rest]

/-- A local variable with a name of its own is declared in both runs. -/
theorem EntryRespelled.addRenamedLocal (h : EntryRespelled env taken home e e')
    (hd : d.Respelled (Ident.Respells env taken home) d') (hname : d.name.name ∈ home.locals)
    (unique : String) (span : Span) (trace : List Span) :
    StmtsRespelled env (Ident.Respells env taken) home (addRenamedLocal e unique d span trace).1
        (addRenamedLocal e' unique d' span trace).1 ∧
      EntryRespelled env taken home (addRenamedLocal e unique d span trace).2
        (addRenamedLocal e' unique d' span trace).2 := by
  have hrenamed : Declaration.Respelled (Ident.Respells env taken home)
      { d.withoutModifier "local" with name := .fixed unique d.name.span }
      { d'.withoutModifier "local" with name := .fixed unique d.name.span } :=
    ⟨rfl, by simp only [Declaration.withoutModifier, hd.modifiers], hd.size, hd.params, hd.init⟩
  unfold Lowering.addRenamedLocal
  rw [hd.name]
  obtain ⟨hassigns, hdecl⟩ := splitInit_respelled
    (.plain (.fixed unique d.name.span)) span trace hrenamed
  refine ⟨hassigns, h.name, h.params, ?_, h.body, h.globals,
    h.locals.append (.single (.declare hdecl)), h.frame, ?_⟩
  · exact List.forall_mem_cons.mpr ⟨hname, h.substitutions⟩
  · have hsubstitutions : e'.substitutions = e.substitutions := by rw [h.rest]
    dsimp only
    rw [hsubstitutions, h.rest]

/-- **A declaration in a function**, in two runs. -/
theorem declareIn_inStep {p p' : Program}
    (h : Alongside env taken home ⟨p, some e⟩ ⟨p', some e'⟩)
    (hd : d.Respelled (Ident.Respells env taken home) d') (hname : d.name.name ∈ home.locals) :
    InStep env taken home (StmtsRespelled env (Ident.Respells env taken) home)
      ⟨p, some e⟩ ⟨p', some e'⟩ (declareIn env e d span trace)
      (declareIn env e' d' span trace) := by
  -- Which of the three ways the declaration goes is read off its modifiers and the table entry.
  obtain ⟨hfunction, he⟩ : home.inFunction = true ∧ EntryRespelled env taken home e e' := by
    cases h.around with
    | function hfunction he => exact ⟨hfunction, he⟩
  have hentry : e'.name = e.name ∧ e'.fn.isTaskfunc = e.fn.isTaskfunc ∧
      e'.localNames = e.localNames := by
    rw [he.rest]
    exact ⟨rfl, rfl, rfl⟩
  have hmodifier : ∀ m, d'.hasModifier m = d.hasModifier m := fun m => by
    simp only [Declaration.hasModifier, hd.modifiers]
  have huiKind : d'.uiKind? = d.uiKind? := by simp only [Declaration.uiKind?, hd.modifiers]
  have hpromoted : isPromoted e' d' = isPromoted e d := by
    simp only [isPromoted, hentry.1, hmodifier]
  have hstorage : storageName p' d' = storageName p d := by
    have hsymbols : p'.symbols = p.symbols := by rw [show p' = _ from h.program]
    simp only [storageName, hsymbols, hd.name]
  have hglobal : (d.withoutModifier "global").Respelled (Ident.Respells env taken home)
      (d'.withoutModifier "global") :=
    ⟨hd.name, by simp only [Declaration.withoutModifier, hd.modifiers], hd.size, hd.params, hd.init⟩
  unfold InStep
  rw [declareIn_run, declareIn_run, hpromoted, huiKind, hd.name, hentry.2.2, hstorage]
  dsimp only
  rw [hentry.2.1, hmodifier]
  split
  · have hadded := he.addGlobal hglobal span trace
    rw [hentry.2.2] at hadded
    exact .ok ⟨.nil, h.withVariable _ _ (.function hfunction hadded)⟩
  split
  · exact .error
  split
  · obtain ⟨hss, hadded⟩ := (he.note (e.localNames ++ [Text.lower d.name.name])).addFrameLocal hd
      hname span trace
    exact .ok ⟨hss, h.program, h.functions, h.families, h.properties, .function hfunction hadded⟩
  · obtain ⟨hss, hadded⟩ := (he.note (e.localNames ++ [Text.lower d.name.name])).addRenamedLocal hd
      hname (storageName p d) span trace
    exact .ok ⟨hss, h.withVariable _ _ (.function hfunction hadded)⟩

/-- **A declaration**, in two runs. -/
theorem declaration_inStep {s s' : State} {families : List String}
    (h : Alongside env taken home s s') (hd : d.Respelled (Ident.Respells env taken home) d')
    (hname : home.inFunction = true → (declaredName env families d.name).name ∈ home.locals) :
    InStep env taken home (StmtsRespelled env (Ident.Respells env taken) home) s s'
      (declaration env families d span trace) (declaration env families d' span trace) := by
  obtain ⟨hrefs, hat⟩ := h.refs
  have hlowered := lowered_respelled hat families hd
  obtain ⟨p, current⟩ := s
  obtain ⟨p', current'⟩ := s'
  unfold InStep
  rw [declaration_run, declaration_run, hrefs]
  dsimp only at hlowered ⊢
  generalize hlow : lowered (refsOf env p.writtenNames current) families d = low at hlowered ⊢
  generalize lowered (refsOf env p.writtenNames current) families d' = low' at hlowered ⊢
  have haround := h.around
  cases haround with
  | callback hcallback =>
    have huiKind : low'.uiKind? = low.uiKind? := by
      simp only [Declaration.uiKind?, hlowered.modifiers]
    rw [hlowered.name, huiKind]
    exact .ok ⟨.single (.declare hlowered), h.withVariable _ _ (.callback hcallback)⟩
  | function hfunction he =>
    refine declareIn_inStep h hlowered ?_
    rw [← hlow]
    exact hname hfunction

end Declarations

end Lowering

end FlatScript
