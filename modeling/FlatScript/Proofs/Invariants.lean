import FlatScript.Proofs.Characters
import FlatScript.Proofs.Dialect
import FlatScript.Proofs.Inlining.Limits
import FlatScript.Proofs.Lowering.Faults

/-!
# No invariant of the compiler breaks

Some steps of a compilation rely on what the steps before have done: expansion on a script
without functions, the order of the functions on an init callback in front, the copying of bodies
on a bound that is never reached. Where the reliance is wrong they give up with
`FlatScript.CompileError.internal`, which is never the fault of the script.

* `FlatScript.taskFrames` are the sizes of the frames of the task functions of a script.
* `FlatScript.compile_ne_internal` says that no compilation ends this way, as long as the frames
  have a size that is an integer of the engine.
-/

namespace FlatScript

/-- The error does not report a broken invariant. -/
def CompileError.IsHonest (e : CompileError) : Prop := ∀ message, e ≠ .internal message

theorem CompileError.IsPlain.isHonest {e : CompileError} (h : e.IsPlain) : e.IsHonest := by
  obtain ⟨fault, loc, rfl, -⟩ := h
  exact nofun

/-! ### Frames -/

/-- **The sizes of the frames of the task functions** of a script: in each of them are the frame
pointer of the caller, the local variables, the parameters and the result. -/
def taskFrames (env : Env) (o : Options) (source : String) : List Nat :=
  match Script.parse source env.lines with
  | .error _ => []
  | .ok s =>
    match (Lowering.script env (if o.combineCallbacks then s.combineCallbacks else s)).run {} with
    | .error _ => []
    | .ok (_, p) => (p.functions.filter (·.fn.isTaskfunc)).map Taskfunc.frameSize

/-- The frames of a table of functions fit into the integers of the engine. -/
def FramesFit (p : Program) : Prop :=
  ∀ e ∈ p.functions, e.fn.isTaskfunc = true → Taskfunc.frameSize e < 2 ^ 31

/-- Two functions that differ in their bodies and declarations only. -/
structure SameFrame (e e' : FunctionEntry) : Prop where
  task : e'.fn.isTaskfunc = e.fn.isTaskfunc
  params : e'.fn.params = e.fn.params
  result : e'.fn.result = e.fn.result
  frame : e'.frame = e.frame

theorem SameFrame.size {e e' : FunctionEntry} (h : SameFrame e e') :
    Taskfunc.frameSize e' = Taskfunc.frameSize e := by
  simp only [Taskfunc.frameSize, Taskfunc.slotNames, h.params, h.result, h.frame]

theorem FramesFit.of_sameFrame {p p' : Program} (hp : FramesFit p)
    (h : ∀ e' ∈ p'.functions, ∃ e ∈ p.functions, SameFrame e e') : FramesFit p' := by
  intro e' he' htask
  obtain ⟨e, he, hsame⟩ := h e' he'
  rw [hsame.size]
  exact hp e he (hsame.task ▸ htask)

section Steps

variable {env : Env} {s s' : Script} {p p' : Program}

theorem FramesFit.sigils (hp : FramesFit p) (h : (Sigils.script env s).run p = .ok (s', p')) :
    FramesFit p' := by
  obtain ⟨-, functions, rfl, hfunctions⟩ := Sigils.script_run h
  refine hp.of_sameFrame fun e' he' => ?_
  obtain ⟨e, he, hentry⟩ := exists_mem_of_forall₂ hfunctions he'
  obtain ⟨body, globals, locals, -, -, -, rfl⟩ := Sigils.entry_eq_ok hentry
  exact ⟨e, he, rfl, rfl, rfl, rfl⟩

theorem FramesFit.inlining (hp : FramesFit p)
    (h : (Inlining.script env s).run p = .ok (s', p')) : FramesFit p' := by
  obtain ⟨p₁, bodies, hgrows, rfl, -, -⟩ :=
    Inlining.Scheme.script_run (Inlining.callScheme_starts env p s.blocks) h
  refine hp.of_sameFrame fun e' he' => ?_
  obtain ⟨e₁, he₁, rfl⟩ := List.mem_map.mp he'
  obtain ⟨e, he, hentry⟩ := hgrows.mem_before he₁
  have hfn := Inlining.withBody_fn bodies e₁
  refine ⟨e, he, ?_, ?_, ?_, ?_⟩
  · rw [hfn, ← hentry.fn]
  · rw [hfn, ← hentry.fn]
  · rw [hfn, ← hentry.fn]
  · rw [Inlining.withBody_frame, hentry.frame]

/-- The parameters of a task function have a place in its frame, so they are not too many. -/
theorem FramesFit.params_lt (hp : FramesFit p) {e : FunctionEntry} (he : e ∈ p.functions)
    (htask : e.fn.isTaskfunc = true) : e.fn.params.length + 1 < 2 ^ 31 := by
  have hfit := hp e he htask
  have hparams : (Taskfunc.slotNames e.fn).length =
      e.fn.params.length + e.fn.result.toList.length := by
    simp [Taskfunc.slotNames]
  unfold Taskfunc.frameSize at hfit
  omega

/-! ### Single steps -/

/-- What bounds the errors of expansion when nothing is known but the sizes of frames. -/
def Inlining.frameLimits (env : Env) {p₀ : Program} (hp₀ : FramesFit p₀) : Limits env p₀ :=
  FreeLimits.limits
    { fails := CompileError.IsHonest
      dst := .trivial
      plain := CompileError.IsPlain.isHonest
      recursion := nofun
      offset := fun he htask hlarge => absurd (hp₀.params_lt he htask) (Nat.not_lt.mpr hlarge)
      raw := fun _ _ e => .inr e.meets_trivial
      binary := trivial
      unary := trivial
      literal := fun _ => trivial
      var := fun _ _ => trivial
      builtin := fun _ => trivial
      slot := Expr.meets_trivial _ }

/-- Expansion of a script of callbacks. -/
theorem Inlining.script_isHonest (hp : FramesFit p) (hs : ∀ b ∈ s.blocks, ∃ c, b = .callback c) :
    FailsWith CompileError.IsHonest ((Inlining.script env s).run p) := by
  refine (frameLimits env hp).script_fails ?_ fun e _ _ => stmtsMeet_trivial e.fn.body
  intro b hb
  obtain ⟨c, rfl⟩ := hs b hb
  exact ⟨c, rfl, stmtsMeet_trivial c.body⟩

end Steps

/-! ### Compilations -/

section Compile

variable {env : Env} {o : Options} {source : String}

theorem Typing.framesFit (r : Typing env o source)
    (h : ∀ size ∈ taskFrames env o source, size < 2 ^ 31) : FramesFit r.typed.2 := by
  refine FramesFit.sigils (p := r.lowered.2) (s := r.lowered.1) ?_ r.type_eq
  intro e he htask
  refine h _ ?_
  unfold taskFrames
  rw [r.parse_eq]
  simp only [r.lower_eq]
  exact List.mem_map_of_mem (List.mem_filter.mpr ⟨he, htask⟩)

/-- Expansion starts on callbacks only. -/
theorem Typing.callbacks (r : Typing env o source) :
    ∀ b ∈ r.typed.1.blocks, ∃ c, b = .callback c := by
  intro b hb
  obtain ⟨b₀, hb₀, hmap⟩ := exists_mem_of_forall₂ (Sigils.script_run r.type_eq).1 hb
  obtain ⟨c, rfl⟩ := Lowering.script_callbacks r.lower_eq b₀ hb₀
  cases hmap with
  | callback _ _ => exact ⟨_, rfl⟩

/-- The first block of an expanded script is a callback. -/
theorem Typing.expanded_init (r : Typing env o source) {expanded : Script × Program}
    (h : (Inlining.script env r.typed.1).run r.typed.2 = .ok expanded) :
    ∃ c rest, expanded.1.blocks = .callback c :: rest := by
  obtain ⟨hheads, hcallbacks⟩ := Inlining.script_heads h
  have hinit : expanded.1.heads.head? = some (.callback "init") := by
    rw [hheads, Sigils.script_heads r.type_eq]
    exact Lowering.script_init r.lower_eq
  cases hblocks : expanded.1.blocks with
  | nil => simp [Script.heads, hblocks] at hinit
  | cons b rest =>
    obtain ⟨c, rfl⟩ := hcallbacks b (by simp [hblocks])
    exact ⟨c, rest, rfl⟩

/-- **No invariant of the compiler breaks.** Whatever the built-in names, the origin of the lines,
the options and the text, and whenever the caller stops it, a compilation does not end with an
internal error, if the frames of the task functions have sizes below `2 ^ 31`. -/
theorem compile_ne_internal (env : Env) (o : Options) (source message : String)
    (h : ∀ size ∈ taskFrames env (o.withPragmas source env.lines) source, size < 2 ^ 31) :
    compile env o source ≠ .error (.program (.internal message)) ∧
      ∀ stop stages stages',
        (compileStaged stop env o source).run stages ≠
          .error (.program (.internal message)) stages' := by
  have hsteps : ∀ e, Breaks env (o.withPragmas source env.lines) source e → e.IsHonest := by
    intro e hbreaks
    cases hbreaks with
    | lower hrun => exact (Lowering.script_fails env _ _ e hrun).isHonest
    | type hrun => exact (Sigils.script_fails env _ _ e hrun).isHonest
    | expand r hrun => exact Inlining.script_isHonest (r.framesFit h) r.callbacks e hrun
    | frame r hexpand hrun =>
      have hfit := (r.framesFit h).inlining hexpand
      refine Taskfunc.program_fails env _ (fun _ => CompileError.IsPlain.isHonest) ?_ e hrun
      exact fun f hf htask hlarge => absurd (hfit f hf htask) (Nat.not_lt.mpr hlarge)
    | arrange r hexpand hrun =>
      obtain ⟨c, rest, hblocks⟩ := r.expanded_init hexpand
      exact Arrangement.script_fails _ _ (fun _ => nofun)
        (fun hnone => absurd hblocks (hnone c rest)) e hrun
    | check hrun => exact (Controls.script_fails env _ _ e hrun).isHonest
    | shorten hrun =>
      exact Compaction.script_fails env _ _ _ (fun _ _ => nofun) (fun _ _ _ => nofun) e hrun
  refine ⟨fun hcompile => ?_, fun stop stages stages' hrun => ?_⟩
  · exact hsteps _ (breaks_of_compile hcompile) message rfl
  · exact hsteps _ (breaks_of_compileStaged hrun) message rfl

end Compile

/-- A task function with two parameters, a result and a local variable, that is called. -/
def pairText : String :=
  "on init\ndeclare %p[100]\ndeclare $sp\ndeclare $fp\nend on\n" ++
    "on note\nt(1, 2)\nend on\n" ++
    "taskfunc t(a, b) -> r\ndeclare x\nx := a\nr := x+b\nend taskfunc\n"

theorem pairText_ne_internal :
    taskFrames ⟨{}, .empty⟩ (Options.withPragmas {} pairText .empty) pairText = [5] ∧
      compile ⟨{}, .empty⟩ {} pairText ≠ .error (.program (.internal "")) := by
  set_option maxRecDepth 4000 in
  have htext : pairText.toList = _ :=
    Text.toList_pieces (Text.toList_pieces String.toList_ofList String.toList_ofList) String.toList_ofList
  have hframes : taskFrames ⟨{}, .empty⟩ (Options.withPragmas {} pairText .empty) pairText = [5] := by
    rw [taskFrames, Options.withPragmas_eq_self _ _ (htext ▸ by decide +kernel),
      Script.parse_eq_ofChars htext]
    decide +kernel
  refine ⟨hframes, (compile_ne_internal ⟨{}, .empty⟩ {} pairText "" ?_).1⟩
  rw [hframes]
  decide

end FlatScript
