import FlatScript.Proofs.Inlining.Depth

/-!
# Which calls are left

After expansion, the calls that are left are those of built-in functions and those with the
keyword `call`. The rule `FlatScript.Inlining.fullyInlined` says so of every node of a body,
together with what is recorded of the calls with `call`: the function is in the table, it is
marked, the graph of calls has the edge from the block that the call stands in, and that
block is not the init callback.

* `FlatScript.Inlining.script_fullyInlined` is the statement for whole scripts. It holds of
  every script and every table of functions, also of those that call each other in a circle,
  because expansion ends on all of them.
-/

namespace FlatScript.Inlining

/-- **No call is left but those that are meant to be**: in the block `t`, a call is one of a
built-in function without the keyword `call`, or a statement `call f` without arguments that
is recorded. The first argument of a function that takes a name is not looked at. -/
def fullyInlined (env : Env) (p : Program) (t : Top) : Rule where
  expr
    | .call name _ _ usingCall _ =>
      usingCall = false ∧ p.isBuiltinCall env.builtins name.name = true
    | _ => True
  stmt
    | .call c =>
      (c.usingCall = false ∧ p.isBuiltinCall env.builtins c.name.name = true) ∨
        (c.usingCall = true ∧ c.args = [] ∧ Recorded p t c.name.name)
    | _ => True
  list _ := True
  skips := Builtins.keepsFirstArgument
  atom _ _ _ := False

theorem fullyInlined_grows {env : Env} {p p' : Program} {t : Top} (h : p.Grows p') :
    (fullyInlined env p t).Implies (fullyInlined env p' t) := by
  refine ⟨?_, ?_, fun _ _ => trivial, fun _ h => h, fun _ _ _ h => h, fun _ _ h => h⟩
  · intro e he
    cases e with
    | call name args isProcedure usingCall span => exact ⟨he.1, (h.isBuiltinCall ..).trans he.2⟩
    | _ => trivial
  · intro k hk
    cases k with
    | call c =>
      rcases hk with ⟨hc, hb⟩ | ⟨hc, hargs, hrec⟩
      · exact .inl ⟨hc, (h.isBuiltinCall ..).trans hb⟩
      · exact .inr ⟨hc, hargs, hrec.grows h⟩
    | _ => trivial

/-- There is no call in the index of a cell of the stack. -/
theorem meets_argumentSlot (env : Env) (p : Program) (t : Top) (count i : Nat) (span : Span) :
    (argumentSlot count i span).Meets (fullyInlined env p t) := by
  unfold argumentSlot Frame.slot
  dsimp only
  split <;> simp [VarRef.Meets, VarRef.toExpr, Expr.op, Frame.fixedVar, VarRef.plain,
    Expr.Meets, exprsMeet, fullyInlined]

/-- The scheme in which anything may be expanded, and what comes out has no calls left but
those that are meant to be. -/
def callScheme (env : Env) (p₀ : Program) : Scheme env p₀ where
  src _ := .trivial
  dst := fullyInlined env
  site _ _ _ _ := True
  here _ _ := True
  ready _ _ _ := True
  mono := fullyInlined_grows
  skips := Rule.trivial_skips _
  back _ := Expr.meets_trivial _
  raw hkeep _ := .inl hkeep
  atom h := h.elim
  binary _ := trivial
  unary _ := trivial
  var _ _ _ := trivial
  literal {_ _ e} hlit _ := by cases e <;> trivial
  builtin _ _ hb _ _ := ⟨rfl, hb⟩
  builtinStmt _ _ hb _ _ := ⟨.inl ⟨rfl, hb⟩, fun _ _ => trivial⟩
  siteOfCall _ := trivial
  siteOfStmt _ := trivial
  siteOfName _ _ := trivial
  siteOfGetter _ _ _ := trivial
  siteOfSetter _ _ _ := trivial
  nil := trivial
  append _ _ := trivial
  assign _ _ := ⟨trivial, fun _ _ => trivial⟩
  reshape hk _ := ⟨by cases hk <;> trivial, fun _ _ => trivial⟩
  kept _ _ hrec _ _ _ _ := ⟨.inr ⟨rfl, rfl, hrec⟩, fun _ _ => trivial⟩
  noWhole h := h
  stored _ _ hv _ := .inr ⟨trivial, meets_argumentSlot .., hv⟩
  loaded _ _ ht _ := .inr ⟨trivial, ht, meets_argumentSlot ..⟩
  single h := by
    obtain ⟨-, h | ⟨-, -, hv⟩, -⟩ := h
    · exact h.elim
    · exact hv
  taskfunc _ _ hrec _ _ _ _ _ _ _ := ⟨.inr ⟨rfl, rfl, hrec⟩, trivial⟩
  readyNil _ _ _ _ := trivial
  readyDecls _ _ _ _ _ _ := trivial
  readyBody _ _ _ _ _ _ _ _ := trivial

theorem callScheme_closed (env : Env) (p₀ : Program) : (callScheme env p₀).Closed :=
  fun _ body _ _ => ⟨trivial, stmtsMeet_trivial body⟩

theorem callScheme_starts (env : Env) (p₀ : Program) (blocks : List Block) :
    (callScheme env p₀).Starts (expand env) (expand env) blocks :=
  ⟨fun c _ _ hp =>
      (callScheme_closed env p₀).expand_runs trivial (stmtsMeet_trivial c.body) hp,
    fun e _ _ _ hp =>
      (callScheme_closed env p₀).expand_runs trivial (stmtsMeet_trivial e.fn.body) hp⟩

/-- Giving functions their expanded bodies does not change which calls may be left. -/
theorem fullyInlined_withBody (env : Env) (p : Program) (bodies : List (String × List Stmt))
    (t : Top) :
    fullyInlined env { p with functions := p.functions.map (withBody bodies) } t =
      fullyInlined env p t := by
  have huser : ∀ name, Program.isUserFunction
      { p with functions := p.functions.map (withBody bodies) } name = p.isUserFunction name := by
    intro name
    simp [Program.isUserFunction, Function.comp_def]
  have hbuiltin : ∀ name, Program.isBuiltinCall
      { p with functions := p.functions.map (withBody bodies) } env.builtins name =
        p.isBuiltinCall env.builtins name := by
    intro name
    simp only [Program.isBuiltinCall, function?_withBody, Option.any_map]
    congr 3
    funext e
    rw [withBody_fn]
  have hrec : ∀ name, Recorded { p with functions := p.functions.map (withBody bodies) } t name ↔
      Recorded p t name :=
    fun name => ⟨fun h => ⟨h.notInit, (huser name).symm.trans h.known, h.explicit, h.edge⟩,
      fun h => ⟨h.notInit, (huser name).trans h.known, h.explicit, h.edge⟩⟩
  simp only [fullyInlined, hbuiltin, hrec]

/-- **Full inlining.** In an expanded script, and in the functions of the table that can be
called with `call`, no call is left but those that are meant to be; there are none with `call`
in an init callback. And expansion ends on every script and every table: nothing depends on
what would be done where the stack of functions that are being copied holds one of them twice,
or where the copies nest deeper than the bound. -/
theorem script_fullyInlined (env : Env) (s : Script) (p : Program) :
    (∀ s' p', (script env s).run p = .ok (s', p') →
      (∀ c ∈ s'.callbacks, bodyMeets (fullyInlined env p' (.callback c.isInit)) c.body) ∧
        ∀ e ∈ p'.functions, isStandalone e.fn = true →
          bodyMeets (fullyInlined env p' (.function e.name)) e.fn.body) ∧
      ∀ other, (scriptBy (watched env other) s).run p = (script env s).run p := by
  refine ⟨?_, fun other => by rw [scriptBy_watched]⟩
  intro s' p' h
  obtain ⟨p₁, bodies, -, rfl, hblocks, hbodies⟩ :=
    Scheme.script_run (callScheme_starts env p s.blocks) h
  simp only [fullyInlined_withBody]
  refine ⟨?_, ?_⟩
  · intro c hc
    exact Scheme.callbacks_of_blocks hblocks (mem_blocks_of_mem_callbacks hc)
  · intro e he hstand
    obtain ⟨e₁, he₁, rfl⟩ := List.mem_map.mp he
    rw [withBody_name]
    have hstand₁ : isStandalone e₁.fn = true := by
      rw [withBody_fn] at hstand
      exact hstand
    exact hbodies.meets _ (mem_of_withBody (hbodies.total e₁ he₁ hstand₁))

/-! ### A sample -/

/-- An assignment to the variable `x`. -/
def setX (value : Expr) : Stmt := .written (.assign (Frame.fixedVar "$x" .zero) value) .zero

/-- The functions `f`, which sets `x`, and `g`, which sets it to its parameter. -/
def sampleProgram : Program where
  functions :=
    [{ fn := ⟨.fixed "f" .zero, [], none, [setX (.int 1 .zero)], false, false, .zero⟩ },
      { fn := ⟨.fixed "g" .zero, [⟨.fixed "a" .zero, .value⟩], none,
          [setX (Frame.fixedVar "a" .zero).toExpr], false, false, .zero⟩ }]

/-- A script with the calls `call f` and `g(2)`. -/
def sampleScript : Script :=
  ⟨[.callback ⟨"init", none, [], .zero⟩,
    .callback ⟨"note", none,
      [.written (.call ⟨.fixed "f" .zero, [], true, true, .zero⟩) .zero,
        .written (.call ⟨.fixed "g" .zero, [.int 2 .zero], true, false, .zero⟩) .zero], .zero⟩]⟩

theorem sampleScript_fullyInlined :
    ∃ s' p', (script ⟨{}, .empty⟩ sampleScript).run sampleProgram = .ok (s', p') ∧
      (∀ c ∈ s'.callbacks, bodyMeets (fullyInlined ⟨{}, .empty⟩ p' (.callback c.isInit)) c.body) ∧
      ∀ e ∈ p'.functions, isStandalone e.fn = true →
        bodyMeets (fullyInlined ⟨{}, .empty⟩ p' (.function e.name)) e.fn.body :=
  ⟨_, _, rfl, (script_fullyInlined ⟨{}, .empty⟩ sampleScript sampleProgram).1 _ _ rfl⟩

end FlatScript.Inlining
