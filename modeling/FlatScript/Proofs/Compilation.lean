import FlatScript.Compiler
import FlatScript.Proofs.Outcome

/-!
# The steps of a compilation

A compilation that succeeds has gone through all of its steps, and each of them has left a
script and a program behind. `FlatScript.Compilation` collects these results, so that what is
known of a compiled script can be followed back to its source.
-/

namespace FlatScript

/-- What becomes of a script when it gets short names, if the options ask for them. -/
inductive Shortens (env : Env) (o : Options) (s : Script) (p : Program) :
    Option ShortNames → Script → Prop
  | keep (h : o.compactVariables = false) : Shortens env o s p none s
  | shorten {s' : Script} {t : ShortNames} {p' : Program} (h : o.compactVariables = true)
    (hrun : (Compaction.script env o.preserveNames s).run p = .ok ((s', t), p')) :
    Shortens env o s p (some t) s'

/-- **The results of the steps of a compilation**, one after the other. The options are those
after the directives of the source. -/
structure Compilation (env : Env) (o : Options) (source : String) where
  /-- The script as it is written. -/
  parsed : Script
  /-- The script without functions, properties and families, and the table of functions. -/
  lowered : Script × Program
  /-- References with their sigils. -/
  typed : Script × Program
  /-- Functions copied to their calls. -/
  expanded : Script × Program
  /-- Task functions with their frames. -/
  framed : Program
  /-- Functions and declarations in their places. -/
  arranged : Script × Program
  /-- References with their sigils again, since there are new ones. -/
  resolved : Script × Program
  /-- Controls as identifiers. -/
  checked : Script
  /-- Names without dots. -/
  undotted : Script × Program
  /-- Expressions and branches folded, if that is asked for. -/
  folded : Script
  /-- The short names, if they are asked for. -/
  shortNames : Option ShortNames
  /-- The script that is written. -/
  final : Script
  parse_eq : Script.parse source env.lines = .ok parsed
  lower_eq : (Lowering.script env
    (if o.combineCallbacks then parsed.combineCallbacks else parsed)).run {} = .ok lowered
  type_eq : (Sigils.script env lowered.1).run lowered.2 = .ok typed
  expand_eq : (Inlining.script env typed.1).run typed.2 = .ok expanded
  frame_eq : (Taskfunc.program env).run expanded.2 = .ok ((), framed)
  arrange_eq : (Arrangement.script expanded.1).run framed = .ok arranged
  resolve_eq : (Sigils.script env arranged.1).run arranged.2 = .ok resolved
  check_eq : (Controls.script env resolved.1).run resolved.2 = .ok (checked, resolved.2)
  undot_eq : (Undotting.script checked).run resolved.2 = .ok undotted
  fold_eq : folded = if o.optimizeCode then Folding.script undotted.1 else undotted.1
  shortens : Shortens env o folded undotted.2 shortNames final

/-- The script that is lowered. -/
def Compilation.joined {env : Env} {o : Options} {source : String}
    (r : Compilation env o source) : Script :=
  if o.combineCallbacks then r.parsed.combineCallbacks else r.parsed

/-! ### Stages -/

namespace Staged

/-- Nothing stops the compilation. -/
abbrev never : List Stage → Bool := fun _ => false

variable {α : Type} {stages stages' : List Stage} {a : α}

theorem bind_eq_ok {β : Type} {x : Staged α} {f : α → Staged β} {b : β}
    (h : (x >>= f).run stages = .ok b stages') :
    ∃ a stages₁, x.run stages = .ok a stages₁ ∧ (f a).run stages₁ = .ok b stages' := by
  rw [EStateM.run_bind] at h
  split at h
  · next a stages₁ hx => exact ⟨a, stages₁, hx, h⟩
  · cases h

theorem ofParse_eq_ok {x : Except (List ParseError) α}
    (h : (ofParse x).run stages = .ok a stages') : x = .ok a := by
  cases x with
  | error e => cases h
  | ok b => cases h; rfl

theorem ofCompile_eq_ok {step : Compile α} {p : Program} {r : α × Program}
    (h : (ofCompile step p).run stages = .ok r stages') : step.run p = .ok r := by
  unfold ofCompile at h
  split at h
  · next hrun =>
    cases h
    exact hrun
  · cases h

/-- A step, and the steps behind it. -/
theorem runSteps_cons_eq_ok {step : Step} {rest : List Step} {s : Script} {p : Program}
    {r : Script × Program} (h : (runSteps never (step :: rest) s p).run stages = .ok r stages') :
    ∃ s₁ p₁ stages₁, (step.run s).run p = .ok (s₁, p₁) ∧
      (runSteps never rest s₁ p₁).run stages₁ = .ok r stages' := by
  obtain ⟨⟨⟩, _, -, h⟩ := bind_eq_ok h
  obtain ⟨⟨s₁, p₁⟩, stages₁, hstep, h⟩ := bind_eq_ok h
  exact ⟨s₁, p₁, stages₁, ofCompile_eq_ok hstep, h⟩

/-- Joining callbacks is a step of its own. -/
theorem runSteps_combine_eq_ok {combine : Bool} {rest : List Step} {s : Script} {p : Program}
    {r : Script × Program}
    (h : (runSteps never ((if combine then
      [⟨.combining, fun s => return s.combineCallbacks⟩] else []) ++ rest) s p).run stages =
        .ok r stages') :
    ∃ stages₁, (runSteps never rest (if combine then s.combineCallbacks else s) p).run stages₁ =
      .ok r stages' := by
  cases combine with
  | false => exact ⟨stages, h⟩
  | true =>
    obtain ⟨s₁, p₁, stages₁, hstep, h⟩ := runSteps_cons_eq_ok h
    cases hstep
    exact ⟨stages₁, h⟩

/-- Folding is the last step, if it is one. -/
theorem runSteps_fold_eq_ok {fold : Bool} {s s' : Script} {p p' : Program}
    (h : (runSteps never (if fold then
      [⟨.folding, fun s => return Folding.script s⟩] else []) s p).run stages =
        .ok (s', p') stages') :
    s' = (if fold then Folding.script s else s) ∧ p' = p := by
  cases fold with
  | false =>
    cases h
    exact ⟨rfl, rfl⟩
  | true =>
    obtain ⟨s₁, p₁, stages₁, hstep, h⟩ := runSteps_cons_eq_ok h
    cases hstep
    cases h
    exact ⟨rfl, rfl⟩

/-- Short names are given if they are asked for. -/
theorem compact_eq_ok {env : Env} {o : Options} {s s' : Script} {p : Program}
    {short : Option ShortNames} (h : (compact never env o s p).run stages = .ok (s', short) stages') :
    Shortens env o s p short s' := by
  unfold compact at h
  split at h
  · next hcompact =>
    obtain ⟨⟨⟩, _, -, h⟩ := bind_eq_ok h
    obtain ⟨⟨⟨s₁, t⟩, p₁⟩, _, hrun, h⟩ := bind_eq_ok h
    cases h
    exact .shorten hcompact (ofCompile_eq_ok hrun)
  · next hcompact =>
    cases h
    exact .keep (by simpa using hcompact)

end Staged

/-- Controls are checked without a change to the program. -/
theorem Controls.script_run {env : Env} {s s' : Script} {p p' : Program}
    (h : (Controls.script env s).run p = .ok (s', p')) :
    p' = p ∧ s.mapLeaves (Controls.leafMap env p.symbols) .ok = .ok s' := by
  unfold Controls.script at h
  simp only [StateT.run_bind, StateT.run_get, pure_bind] at h
  obtain ⟨hmap, rfl⟩ := StateT.lift_eq_ok.mp h
  exact ⟨rfl, hmap⟩

/-- The steps of a compilation, when it ends. -/
theorem exists_compilation {env : Env} {o : Options} {source : String} {c : Compiled}
    (h : compile env o source = .ok c) :
    ∃ r : Compilation env (o.withPragmas source env.lines) source,
      c = ⟨Printer.script env.builtins (o.withPragmas source env.lines) r.final, r.shortNames,
        o.withPragmas source env.lines⟩ := by
  unfold compile at h
  split at h
  · next stages hrun =>
    cases h
    unfold compileStaged at hrun
    dsimp only at hrun
    generalize o.withPragmas source env.lines = o' at hrun ⊢
    -- First the compilation is taken apart around its steps, and then the steps one by one.
    obtain ⟨⟨⟩, _, -, hrun⟩ := Staged.bind_eq_ok hrun
    obtain ⟨⟨⟩, _, -, hrun⟩ := Staged.bind_eq_ok hrun
    obtain ⟨parsed, _, hparse, hrun⟩ := Staged.bind_eq_ok hrun
    obtain ⟨⟨s, p⟩, _, hsteps, hrun⟩ := Staged.bind_eq_ok hrun
    obtain ⟨⟨final, short⟩, _, hcompact, hrun⟩ := Staged.bind_eq_ok hrun
    obtain ⟨⟨⟩, _, -, hrun⟩ := Staged.bind_eq_ok hrun
    obtain ⟨⟨⟩, _, -, hrun⟩ := Staged.bind_eq_ok hrun
    cases hrun
    unfold steps at hsteps
    rw [List.append_assoc] at hsteps
    obtain ⟨_, hsteps⟩ := Staged.runSteps_combine_eq_ok hsteps
    obtain ⟨s₁, p₁, _, hlower, hsteps⟩ := Staged.runSteps_cons_eq_ok hsteps
    obtain ⟨s₂, p₂, _, htype, hsteps⟩ := Staged.runSteps_cons_eq_ok hsteps
    obtain ⟨s₃, p₃, _, hexpand, hsteps⟩ := Staged.runSteps_cons_eq_ok hsteps
    obtain ⟨s₄, p₄, _, hframes, hsteps⟩ := Staged.runSteps_cons_eq_ok hsteps
    obtain ⟨s₅, p₅, _, harrange, hsteps⟩ := Staged.runSteps_cons_eq_ok hsteps
    obtain ⟨s₆, p₆, _, hcontrols, hsteps⟩ := Staged.runSteps_cons_eq_ok hsteps
    obtain ⟨s₇, p₇, _, hundot, hsteps⟩ := Staged.runSteps_cons_eq_ok hsteps
    obtain ⟨rfl, rfl⟩ := Staged.runSteps_fold_eq_ok hsteps
    -- Frames leave the script alone, and the step of controls looks up sigils once more.
    obtain ⟨⟨⟩, q, hframe, hframes⟩ := StateT.bind_eq_ok.mp hframes
    cases hframes
    obtain ⟨s₅', p₅', hresolve, hcontrols⟩ := StateT.bind_eq_ok.mp hcontrols
    obtain ⟨rfl, -⟩ := Controls.script_run hcontrols
    exact ⟨⟨parsed, (s₁, p₁), (s₂, p₂), (s₃, p₃), p₄, (s₅, p₅), (s₅', p₆), s₆, (s₇, p), _, short,
      final, Staged.ofParse_eq_ok hparse, hlower, htype, hexpand, hframe, harrange, hresolve,
      hcontrols, hundot, rfl, Staged.compact_eq_ok hcompact⟩, rfl⟩
  · cases h

end FlatScript
