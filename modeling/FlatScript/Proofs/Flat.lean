import FlatScript.Proofs.CallOrder
import FlatScript.Proofs.Inlining.Copies
import FlatScript.Proofs.Inlining.Whole
import FlatScript.Proofs.Leaves
import FlatScript.Proofs.Lowering.Walk
import FlatScript.Proofs.Passes
import FlatScript.Proofs.Reading.Branches
import Mathlib.Data.List.Nodup

/-!
# Flat scripts

Lowering takes families, properties, counting loops and chains of conditions apart, and every
variable that it leaves declared has a sigil. No step after it brings one of them back, so the
statements of a script whose functions have been arranged are flat.

* `FlatScript.flat` is the rule.
* `FlatScript.Flattened` says that it holds of a script and of its functions; the theorems
  about it go from step to step.
-/

namespace FlatScript

/-- **Statements without families, properties and counting loops**, in which declared variables
have sigils and a choice has one condition. -/
def flat : Rule where
  expr _ := True
  stmt
    | .property _ _ | .synonym _ _ _ | .forLoop _ _ _ _ _ _ | .family _ _ => False
    | .declare d => d.name.sigil.isSome = true
    | .ifChain bs _ => bs.length = 1
    | _ => True
  list _ := True
  skips _ := false
  atom _ _ _ := False

theorem flat_mute : flat.Mute := fun _ => trivial

theorem meets_flat_assign (target : VarRef) (value : Expr) (span : Span) (trace : List Span) :
    Stmt.Meets flat ⟨.assign target value, span, trace⟩ :=
  .inr ⟨trivial, flat_mute.varRef target, flat_mute.expr value⟩

theorem meets_flat_declare {d : Declaration} (h : d.name.sigil.isSome = true) (span : Span)
    (trace : List Span) : Stmt.Meets flat ⟨.declare d, span, trace⟩ :=
  ⟨h, flat_mute.declaration d⟩

theorem flat_reshaped {k k' : StmtKind} (h : k.Reshaped k') (hk : flat.stmt k) : flat.stmt k' := by
  cases h with
  | declare hd =>
    rename_i d d'
    change d'.name.sigil.isSome = true
    rw [hd.name]
    exact hk
  | ifChain hlength => exact hlength.trans hk
  | _ => exact hk

theorem flat_shallow : flat.Shallow := ⟨flat_reshaped, fun _ => trivial⟩

/-- Whatever becomes of the leaves, flat statements stay flat. -/
theorem LeafMap.carries_flat {ε : Type} (f : LeafMap ε) : f.Carries flat flat where
  expr _ _ _ := flat_mute.expr _
  target _ _ _ := flat_mute.expr _
  call _ _ _ _ := ⟨trivial, flat_mute.args _⟩
  assign _ _ _ := trivial
  whole _ h _ _ := h.elim
  accessors _ _ _ := trivial
  reshape := flat_reshaped
  list _ _ := trivial

theorem stmtsMeet_flat_mapLeaves {ε : Type} {f : LeafMap ε} {params : List String}
    {ss ss' : List Stmt} (h : stmtsMeet flat ss) (hmap : mapLeavesStmts f params ss = .ok ss') :
    stmtsMeet flat ss' :=
  f.carries_flat.stmts trivial ss h hmap

/-! ### Functions and scripts -/

/-- A function of the table is flat, with its declarations. -/
structure FunctionEntry.Flat (e : FunctionEntry) : Prop where
  body : stmtsMeet flat e.fn.body
  decls : stmtsMeet flat (e.globals ++ e.locals)

/-- **A script and its functions are flat**, no two functions have the same name, and only
functions that can be called are marked as called. -/
structure Flattened (s : Script) (p : Program) : Prop where
  blocks : ∀ b ∈ s.blocks, stmtsMeet flat b.body
  functions : ∀ e ∈ p.functions, e.Flat
  nodup : (p.functions.map FunctionEntry.name).Nodup
  marked : ∀ e ∈ p.functions, e.name ∈ p.calls.explicit → e.fn.IsTarget

variable {env : Env} {s s' : Script} {p p' : Program}

/-! ### Lowering -/

/-- The declarations of the function around are flat. -/
def FlatAround : Option FunctionEntry → Prop
  | none => True
  | some f => stmtsMeet flat (f.globals ++ f.locals)

theorem stmtsMeet_flat_assigns {target : VarRef} {d : Declaration} {span : Span}
    {trace : List Span} :
    stmtsMeet flat ((Lowering.splitInit target d).1.map (⟨·, span, trace⟩)) := by
  unfold Lowering.splitInit
  split
  · trivial
  · split
    · exact ⟨meets_flat_assign _ _ _ _, trivial⟩
    · trivial

/-- **Lowering leaves flat statements.** -/
def flattening (env : Env) : Lowering.Scheme env where
  src := forked
  dst _ := flat
  good := FlatAround
  entry := FunctionEntry.Flat
  header _ := True
  families _ := True
  mono _ := .refl _
  list := trivial
  outside := trivial
  noFamilies := trivial
  expr _ _ := flat_mute.expr _
  call _ _ _ := ⟨trivial, flat_mute.args _⟩
  binary := trivial
  atom h := h
  whole h := h
  step _ := trivial
  assign := trivial
  whileLoop := trivial
  ifOne := rfl
  ifNone h := absurd rfl h
  select _ _ := trivial
  family _ _ := trivial
  declared _ _ _ := rfl
  promoted {f _ _ _ span trace} hf _ _ _ := by
    have hold := stmtsMeet_append.mp (show stmtsMeet flat (f.globals ++ f.locals) from hf)
    change stmtsMeet flat ((f.globals ++ [_]) ++ f.locals)
    simp only [stmtsMeet_append]
    exact ⟨⟨hold.1, meets_flat_declare rfl span trace, trivial⟩, hold.2⟩
  framed hf _ _ _ _ := ⟨hf, stmtsMeet_flat_assigns⟩
  renamed {f w fs d span trace localNames unique} hf _ _ _ hunique := by
    have hold := stmtsMeet_append.mp (show stmtsMeet flat (f.globals ++ f.locals) from hf)
    refine ⟨?_, stmtsMeet_flat_assigns⟩
    obtain ⟨d', hname, hlocals⟩ := Lowering.addRenamedLocal_locals { f with localNames } unique
      (Lowering.lowered (Lowering.refsOf env w (some f)) fs d) span trace
    change stmtsMeet flat (f.globals ++ _)
    rw [hlocals]
    simp only [stmtsMeet_append]
    refine ⟨hold.1, hold.2, meets_flat_declare ?_ span trace, trivial⟩
    rw [hname]
    exact hunique.sigil _
  openFunction _ := trivial
  closeFunction he hbody := ⟨hbody, he⟩
  accessors _ _ _ _ := trivial
  synonym _ _ := ⟨trivial, trivial⟩
  result := forked_mute.varRef _
  valueToSet := forked_mute.varRef _

/-- **A lowered script is flat**, when every choice of its source has a condition. -/
theorem flattened_of_lowering (hs : s.Forked)
    (h : (Lowering.script env s).run {} = .ok (s', p')) : Flattened s' p' := by
  have hsource : ∀ b ∈ s.blocks, (flattening env).Source b := by
    intro b hb
    cases b with
    | callback c => exact hs _ hb
    | function f => exact ⟨trivial, hs _ hb⟩
  obtain ⟨htable, hblocks⟩ := (flattening env).script_run hsource (.empty _) h
  refine ⟨fun b hb => ?_, htable.entry, htable.nodup, by simp [htable.noMarks trivial]⟩
  obtain ⟨c, rfl, hbody⟩ := hblocks b hb
  exact hbody.2

/-! ### Sigils -/

theorem FunctionEntry.Flat.sigils {e e' : FunctionEntry} (he : e.Flat)
    (h : Sigils.entry env p e = .ok e') : e'.Flat := by
  obtain ⟨body, globals, locals, hbody, hglobals, hlocals, rfl⟩ := Sigils.entry_eq_ok h
  have hold := stmtsMeet_append.mp he.decls
  exact ⟨stmtsMeet_flat_mapLeaves he.body hbody, stmtsMeet_append.mpr
    ⟨stmtsMeet_flat_mapLeaves hold.1 hglobals, stmtsMeet_flat_mapLeaves hold.2 hlocals⟩⟩

theorem Flattened.sigils (hs : Flattened s p) (h : (Sigils.script env s).run p = .ok (s', p')) :
    Flattened s' p' := by
  obtain ⟨hblocks, functions, rfl, hfunctions⟩ := Sigils.script_run h
  refine ⟨fun b hb => ?_, fun e he => ?_, ?_, fun e he hmark => ?_⟩
  · obtain ⟨b₀, hb₀, hmap⟩ := exists_mem_of_forall₂ hblocks hb
    exact (LeafMap.carries_flat _).block (hs.blocks b₀ hb₀) hmap
  · obtain ⟨e₀, he₀, hentry⟩ := exists_mem_of_forall₂ hfunctions he
    exact (hs.functions e₀ he₀).sigils hentry
  · change (functions.map FunctionEntry.name).Nodup
    rw [Sigils.names_eq hfunctions]
    exact hs.nodup
  · obtain ⟨e₀, he₀, hentry⟩ := exists_mem_of_forall₂ hfunctions he
    obtain ⟨body, globals, locals, -, -, -, rfl⟩ := Sigils.entry_eq_ok hentry
    exact hs.marked e₀ he₀ hmark

/-! ### Expansion -/

theorem FunctionEntry.Flat.grows {e e' : FunctionEntry} (he : e.Flat) (h : e.Grows e') :
    e'.Flat := by
  refine ⟨h.fn ▸ he.body, ?_⟩
  rcases h.decls with ⟨hg, hl⟩ | ⟨hg, hl⟩
  · rw [hg, hl]
    exact he.decls
  · rw [hg, hl]
    trivial

/-- **Expansion keeps statements flat**, when the functions it copies are. -/
def flatExpansion (env : Env) (p₀ : Program) (hp₀ : ∀ e ∈ p₀.functions, e.Flat) :
    Inlining.Scheme env p₀ where
  src _ := flat
  dst _ _ := flat
  site _ _ _ _ := True
  here _ _ := True
  ready _ body _ := stmtsMeet flat body
  mono _ := .refl _
  skips := rfl
  back h := h
  raw _ h := .inr h
  atom h := h.elim
  binary _ := trivial
  unary _ := trivial
  var _ _ _ := trivial
  literal _ _ := trivial
  builtin _ _ _ _ _ := trivial
  builtinStmt _ _ _ _ _ := ⟨trivial, fun _ _ => trivial⟩
  siteOfCall _ := trivial
  siteOfStmt _ := trivial
  siteOfName _ _ := trivial
  siteOfGetter _ _ _ := trivial
  siteOfSetter _ _ _ := trivial
  nil := trivial
  append _ _ := trivial
  assign _ _ := ⟨trivial, fun _ _ => trivial⟩
  reshape hk h := ⟨flat_reshaped hk h, fun _ _ => trivial⟩
  kept _ _ _ _ _ _ _ := ⟨trivial, fun _ _ => trivial⟩
  noWhole h := h
  stored _ _ _ _ := meets_flat_assign _ _ _ _
  loaded _ _ _ _ := meets_flat_assign _ _ _ _
  single _ := flat_mute.expr _
  taskfunc _ _ _ _ _ _ _ _ _ _ := ⟨trivial, trivial⟩
  readyNil _ _ _ _ := trivial
  readyDecls hp _ he _ _ _ := by
    obtain ⟨e₀, he₀, hgrows⟩ := hp.exists_before he
    exact ((hp₀ e₀ (Program.mem_functions_of_function? he₀).1).grows hgrows).decls
  readyBody hp _ he _ _ _ _ h := by
    obtain ⟨e₀, he₀, hgrows⟩ := hp.exists_before he
    have hflat := (hp₀ e₀ (Program.mem_functions_of_function? he₀).1).grows hgrows
    exact stmtsMeet_flat_mapLeaves (stmtsMeet_copiedTo flat_shallow _ hflat.body) h

theorem flatExpansion_closed (env : Env) (p₀ : Program) (hp₀ : ∀ e ∈ p₀.functions, e.Flat) :
    (flatExpansion env p₀ hp₀).Closed :=
  fun _ _ _ hready => ⟨trivial, hready⟩

/-- A function that can be called under its name can be called, when names are different. -/
theorem Program.IsTarget.of_mem {p : Program} (hp : (p.functions.map FunctionEntry.name).Nodup)
    {e : FunctionEntry} (he : e ∈ p.functions) (h : p.IsTarget e.name) : e.fn.IsTarget := by
  obtain ⟨e', he', htarget⟩ := h
  obtain ⟨hmem, hname⟩ := Program.mem_functions_of_function? he'
  exact List.inj_on_of_nodup_map hp hmem he hname ▸ htarget

theorem Flattened.expand (hs : Flattened s p) (h : (Inlining.script env s).run p = .ok (s', p')) :
    Flattened s' p' := by
  have hclosed := flatExpansion_closed env p hs.functions
  have hstarts : (flatExpansion env p hs.functions).Starts (Inlining.expand env)
      (Inlining.expand env) s.blocks :=
    ⟨fun c hc q hq => hclosed.expand_runs trivial (hs.blocks (.callback c) hc) hq,
      fun e he _ q hq => hclosed.expand_runs trivial (hs.functions e he).body hq⟩
  obtain ⟨p₁, bodies, hgrows, rfl, hblocks, hbodies⟩ := Inlining.Scheme.script_run hstarts h
  refine ⟨fun b hb => ?_, fun e he => ?_, ?_, fun e he hmark => ?_⟩
  · obtain ⟨b₀, -, c, body, -, rfl, hbody⟩ := exists_mem_of_forall₂ hblocks hb
    exact hbody.2
  · obtain ⟨e₁, he₁, rfl⟩ := List.mem_map.mp he
    obtain ⟨e₀, he₀, hgrow⟩ := hgrows.mem_before he₁
    have hflat := (hs.functions e₀ he₀).grows hgrow
    rcases Inlining.withBody_cases bodies e₁ with heq | ⟨body, hmem, heq⟩
    · rwa [heq]
    · rw [heq]
      exact ⟨(hbodies.meets _ hmem).2, hflat.decls⟩
  · simp only [List.map_map, Function.comp_def, Inlining.withBody_name]
    exact hgrows.names ▸ hs.nodup
  · obtain ⟨e₁, he₁, rfl⟩ := List.mem_map.mp he
    obtain ⟨e₀, he₀, hgrow⟩ := hgrows.mem_before he₁
    rw [Inlining.withBody_name, hgrow.name] at hmark
    rw [Inlining.withBody_fn, hgrow.fn]
    rcases hgrows.marked _ hmark with hmark | htarget
    · exact hs.marked e₀ he₀ hmark
    · exact htarget.of_mem hs.nodup he₀

/-! ### Frames -/

theorem FunctionEntry.Flat.withFrame {e e' : FunctionEntry} (he : e.Flat)
    (h : Taskfunc.withFrame env e = .ok e') : e'.Flat := by
  rcases Taskfunc.withFrame_eq_ok h with ⟨-, rfl⟩ | ⟨-, -, body, hsubst, rfl⟩
  · exact he
  · refine ⟨?_, he.decls⟩
    have hassign := meets_flat_assign
    simp only [Taskfunc.enter, Taskfunc.leave, Taskfunc.assign, Stmt.written, stmtsMeet_append]
    exact ⟨⟨⟨hassign _ _ _ _, hassign _ _ _ _, hassign _ _ _ _, trivial⟩,
      stmtsMeet_flat_mapLeaves he.body hsubst⟩, hassign _ _ _ _, hassign _ _ _ _,
      hassign _ _ _ _, trivial⟩

/-- A function that is marked as called has no parameters once it has its frame. -/
theorem Flattened.params_eq_nil (hs : Flattened s p) {e e' : FunctionEntry}
    (he : e ∈ p.functions) (h : Taskfunc.withFrame env e = .ok e')
    (hmark : e'.name ∈ p.calls.explicit) : e'.fn.params = [] := by
  rw [Taskfunc.withFrame_name h] at hmark
  rcases Taskfunc.withFrame_eq_ok h with ⟨htask, rfl⟩ | ⟨-, -, body, -, rfl⟩
  · exact (hs.marked e' he hmark).resolve_left (by simp [htask])
  · rfl

/-- Functions with their frames that are marked as called have no parameters. -/
theorem Flattened.framed_params (hs : Flattened s p)
    (h : (Taskfunc.program env).run p = .ok ((), p')) {e : FunctionEntry} (he : e ∈ p'.functions)
    (hmark : e.name ∈ p'.calls.explicit) : e.fn.params = [] := by
  obtain ⟨functions, rfl, hfunctions⟩ := Taskfunc.program_run h
  obtain ⟨e₀, he₀, hframe⟩ := exists_mem_of_forall₂ hfunctions he
  exact hs.params_eq_nil he₀ hframe hmark

theorem Flattened.frames (hs : Flattened s p) (h : (Taskfunc.program env).run p = .ok ((), p')) :
    Flattened s p' := by
  obtain ⟨functions, rfl, hfunctions⟩ := Taskfunc.program_run h
  refine ⟨hs.blocks, fun e he => ?_, ?_, fun e he hmark => ?_⟩
  · obtain ⟨e₀, he₀, hframe⟩ := exists_mem_of_forall₂ hfunctions he
    exact (hs.functions e₀ he₀).withFrame hframe
  · change (functions.map FunctionEntry.name).Nodup
    rw [map_eq_of_forall₂ hfunctions fun _ _ => Taskfunc.withFrame_name]
    exact hs.nodup
  · obtain ⟨e₀, he₀, hframe⟩ := exists_mem_of_forall₂ hfunctions he
    exact .inr (hs.params_eq_nil he₀ hframe hmark)

/-! ### Arrangement -/

/-- **An arranged script is flat.** -/
theorem Flattened.arrange (hs : Flattened s p) (h : (Arrangement.script s).run p = .ok (s', p')) :
    ∀ b ∈ s'.blocks, stmtsMeet flat b.body := by
  obtain ⟨init, rest, hblocks, hblocks', -⟩ := Arrangement.script_run h
  have hmarked : ∀ e ∈ Arrangement.markUsed p, e.Flat := by
    intro e he
    obtain ⟨e₀, he₀, used, rfl⟩ := Arrangement.mem_markUsed he
    exact ⟨(hs.functions e₀ he₀).body, (hs.functions e₀ he₀).decls⟩
  intro b hb
  rw [hblocks'] at hb
  rcases List.mem_cons.mp hb with rfl | hb
  · exact Arrangement.meets_hoist (fun e he => (hmarked e he).decls)
      (hs.blocks (.callback init) (by simp [hblocks]))
  · rcases List.mem_append.mp hb with hb | hb
    · obtain ⟨f, hf, rfl⟩ := List.mem_map.mp hb
      obtain ⟨-, e, he, -, rfl⟩ := Arrangement.mem_written hf
      exact (hmarked e he).body
    · exact hs.blocks b (by simp [hblocks, hb])

end FlatScript
