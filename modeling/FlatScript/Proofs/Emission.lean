import FlatScript.Proofs.Characters
import FlatScript.Proofs.FirstCircle
import FlatScript.Proofs.Hoisting

/-!
# Which functions are written

Between the init callback and the others, an arranged script has the functions that are called with
`call` and that a callback reaches. Nothing else is written there, and nothing twice. A function
that is only copied to its calls is reached but not called with `call`, and a function that only
dropped ones call is the other way round.

Leaving functions out does not disturb the order: a function that is written stands behind those
that it calls, since all of them are ordered before any is left out. So it is not only circles of
written functions that are an error, but all circles of calls.

* `FlatScript.Emits` says which functions are written, and in what order.
* `FlatScript.emission_exact` is the statement on scripts.
-/

namespace FlatScript

variable {env : Env} {s : Script} {p : Program} {n : String}

/-! ### The two outcomes -/

namespace Arrangement

/-- A circle of calls is an error. -/
theorem run_of_circle {circle : List String} (h : p.calls.findCycle = some circle) :
    (script s).run p = .error (.recursionDetected ("->".intercalate circle)) := by
  unfold script
  simp only [StateT.run_bind, StateT.run_get, pure_bind, h]
  rfl

/-- Without circles, a script that starts with a callback is arranged. -/
theorem run_of_acyclic {init : Callback} {rest : List Block} (h : p.calls.findCycle = none)
    (hblocks : s.blocks = .callback init :: rest) :
    (script s).run p =
      .ok (⟨.callback { init with body := hoist (markUsed p) init.body } ::
          (written p.calls (markUsed p)).map .function ++ rest⟩,
        { p with functions := (markUsed p).map withoutHoisted }) := by
  unfold script
  simp only [StateT.run_bind, StateT.run_get, pure_bind, h, hblocks]
  rfl

end Arrangement

/-! ### What is written -/

/-- **The functions that are written**, in their order. -/
structure Emits (p : Program) (fs : List FunctionDef) : Prop where
  /-- They are functions of the table. -/
  table : ∀ f ∈ fs, ∃ e ∈ p.functions, e.fn = f
  /-- A function is written if it is called with `call` and a callback reaches it, and then once. -/
  count : ∀ n, (fs.map (·.name.name)).count n =
    if p.calls.isExplicit n = true ∧ p.calls.LeadsTo none n then 1 else 0
  /-- What a function calls stands before it, if it is written. -/
  before : ∀ before f after, fs = before ++ f :: after →
    ∀ g ∈ fs, (some f.name.name, g.name.name) ∈ p.calls.calls → g ∈ before

/-- **Without circles, these functions are written**, if all that are marked are in the table and
those that are used are called by a callback. -/
theorem emits_written (hcomplete : p.calls.Complete) (hacyclic : p.calls.Acyclic)
    (hmarked : ∀ n, p.calls.isExplicit n = true → p.isUserFunction n = true)
    (hused : ∀ e ∈ p.functions, e.used = true → (none, e.name) ∈ p.calls.calls) :
    Emits p (Arrangement.written p.calls (Arrangement.markUsed p)) := by
  have hnodup := Arrangement.nodup_written p.calls (Arrangement.markUsed p)
  refine ⟨fun f hf => ?_, fun n => ?_, fun before f after hsplit g hg hcall => ?_⟩
  · obtain ⟨-, e, he, -, rfl⟩ := Arrangement.mem_written hf
    obtain ⟨e₀, he₀, used, rfl⟩ := Arrangement.mem_markUsed he
    exact ⟨e₀, he₀, rfl⟩
  · rw [hnodup.count]
    congr 1
    rw [Arrangement.mem_names_written hcomplete hacyclic, eq_iff_iff]
    constructor
    · rintro ⟨-, hmark, e, he, rfl, hon⟩
      exact ⟨hmark, (Arrangement.used_iff hused he).mp hon⟩
    · -- What is marked is in the table, and there it is used because a callback reaches it.
      rintro ⟨hmark, hled⟩
      obtain ⟨e, he, rfl⟩ := List.mem_map.mp (Program.isUserFunction_iff.mp (hmarked n hmark))
      exact ⟨hled.mem_functions hcomplete, hmark, Arrangement.exists_used he hled⟩
  · obtain ⟨hmark, e, he, hon, rfl⟩ := Arrangement.mem_written hg
    obtain ⟨g, hgbefore, hname⟩ := Arrangement.written_before hcomplete hacyclic hsplit hcall
      (List.contains_iff_mem.mpr hmark) he rfl hon
    -- No other function that is written has that name.
    have hgmem : g ∈ Arrangement.written p.calls (Arrangement.markUsed p) := by
      rw [hsplit]
      exact List.mem_append_left _ hgbefore
    exact List.inj_on_of_nodup_map hnodup hgmem hg hname ▸ hgbefore

/-! ### Whole scripts -/

/-- A script of callbacks whose first line is that of the init callback. -/
theorem exists_init (hs : ∀ b ∈ s.blocks, ∃ c, b = .callback c)
    (h : s.heads.head? = some (.callback "init")) :
    ∃ init rest, s.blocks = .callback init :: rest ∧ init.name = "init" := by
  obtain ⟨_ | ⟨b, rest⟩⟩ := s
  · cases h
  · obtain ⟨init, rfl⟩ := hs b List.mem_cons_self
    exact ⟨init, rest, rfl, Block.Head.callback.inj (Option.some.inj h)⟩

section Steps

variable {s₁ s₂ s₃ : Script} {p₁ p₂ p₃ p₄ : Program}

/-- **The graph of calls before a script is arranged** is complete, and what is marked in it is in
the table. -/
theorem calls_of_framed (hlower : (Lowering.script env s).run {} = .ok (s₁, p₁))
    (hsigils : (Sigils.script env s₁).run p₁ = .ok (s₂, p₂))
    (hexpand : (Inlining.script env s₂).run p₂ = .ok (s₃, p₃))
    (hframes : (Taskfunc.program env).run p₃ = .ok ((), p₄)) :
    p₄.calls.Complete ∧ ∀ n, p₄.calls.isExplicit n = true → p₄.isUserFunction n = true := by
  have htable := Lowering.table_of_script hlower
  obtain ⟨-, functions₂, rfl, -⟩ := Sigils.script_run hsigils
  obtain ⟨q, bodies, hgrows, rfl, -, -⟩ :=
    Inlining.Scheme.script_run (Inlining.callScheme_starts env _ _) hexpand
  obtain ⟨functions₄, rfl, hwith⟩ := Taskfunc.program_run hframes
  refine ⟨hgrows.complete ?_, fun n hmark => ?_⟩
  · rw [CallGraph.Complete, htable.noCalls trivial]
    simp
  · rcases hgrows.marked n (List.contains_iff_mem.mp hmark) with hmark | ⟨e, he, -⟩
    · -- Nothing was marked before expansion.
      rw [htable.noMarks trivial] at hmark
      cases hmark
    · have hnames : functions₄.map FunctionEntry.name = q.functions.map FunctionEntry.name := by
        rw [map_eq_of_forall₂ hwith fun _ _ => Taskfunc.withFrame_name]
        simp
      have hmem : n ∈ q.functions.map FunctionEntry.name := Program.isUserFunction_iff.mp
        ((hgrows.isUserFunction n).trans (Program.isUserFunction_of_function? he))
      rw [Program.isUserFunction_iff]
      exact hnames ▸ hmem

/-- **Emission is exact.** Whatever script is lowered, gets its sigils, is expanded and gets its
frames: without circles of calls it is arranged, and between the init callback and the others stand
the functions that are called with `call` and that a callback reaches, callees before callers. With
a circle, reached or not, the first one is reported. -/
theorem emission_exact (hlower : (Lowering.script env s).run {} = .ok (s₁, p₁))
    (hsigils : (Sigils.script env s₁).run p₁ = .ok (s₂, p₂))
    (hexpand : (Inlining.script env s₂).run p₂ = .ok (s₃, p₃))
    (hframes : (Taskfunc.program env).run p₃ = .ok ((), p₄)) :
    (p₄.calls.Acyclic → ∃ init rest fs, s₃.blocks = .callback init :: rest ∧ init.name = "init" ∧
      (∀ b ∈ rest, ∃ c, b = .callback c) ∧ Emits p₄ fs ∧
      (Arrangement.script s₃).run p₄ =
        .ok (⟨.callback { init with
            body := Arrangement.hoist (Arrangement.markUsed p₄) init.body } ::
              fs.map .function ++ rest⟩,
          { p₄ with functions := (Arrangement.markUsed p₄).map Arrangement.withoutHoisted })) ∧
    (¬ p₄.calls.Acyclic → ∃ circle,
      CallGraph.IsFirstCircle (fun m n => (some m, n) ∈ p₄.calls.calls) circle ∧
      (Arrangement.script s₃).run p₄ =
        .error (.recursionDetected ("->".intercalate circle))) := by
  obtain ⟨hcomplete, hmarked⟩ := calls_of_framed hlower hsigils hexpand hframes
  constructor
  · intro hacyclic
    obtain ⟨hheads, hcallbacks⟩ := Inlining.script_heads hexpand
    have hinit : s₃.heads.head? = some (.callback "init") := by
      rw [hheads, Sigils.script_heads hsigils]
      exact Lowering.script_init hlower
    obtain ⟨init, rest, hblocks, hname⟩ := exists_init hcallbacks hinit
    refine ⟨init, rest, _, hblocks, hname, fun b hb => hcallbacks b (by simp [hblocks, hb]),
      emits_written hcomplete hacyclic hmarked fun e he =>
        called_of_framed hlower hsigils hexpand hframes he, ?_⟩
    exact Arrangement.run_of_acyclic
      ((CallGraph.findCycle_eq_none_iff hcomplete).mpr hacyclic) hblocks
  · intro hcircle
    rcases hfound : p₄.calls.findCycle with _ | circle
    · exact absurd (CallGraph.acyclic_of_findCycle hcomplete hfound) hcircle
    · exact ⟨circle, CallGraph.findCycle_eq_some hcomplete hfound,
        Arrangement.run_of_circle hfound⟩

end Steps

/-- Functions that are called with `call`: by a callback, through a function that is copied, and by
a function that is dropped. -/
def emittedText : String :=
  "on note\ncall outer\nend on\nfunction outer\nmiddle\nend function\n" ++
    "function middle\ncall inner\nend function\nfunction inner\nend function\n" ++
    "function lost\nend function\nfunction dropped\ncall lost\nend function\n"

/-- What is written for it. -/
def emittedCode : String :=
  "on init\nend on\nfunction inner\nend function\nfunction outer\ncall inner\nend function\n" ++
    "on note\ncall outer\nend on\n"

theorem emittedText_exact : ∃ c, compile ⟨{}, .empty⟩ {} emittedText = .ok c ∧
    c.code = emittedCode ∧
    ∃ r : Compilation ⟨{}, .empty⟩ (Options.withPragmas {} emittedText .empty) emittedText,
      r.framed.calls.Acyclic ∧ ∃ init rest fs, r.expanded.1.blocks = .callback init :: rest ∧
        Emits r.framed fs ∧ r.arranged.1.blocks = .callback { init with
          body := Arrangement.hoist (Arrangement.markUsed r.framed) init.body } ::
            fs.map .function ++ rest := by
  set_option maxRecDepth 4000 in
  have htext : emittedText.toList = _ :=
    Text.toList_pieces (Text.toList_pieces String.toList_ofList String.toList_ofList) String.toList_ofList
  have hcode : (compile ⟨{}, .empty⟩ {} emittedText).toOption.map Compiled.code =
      some emittedCode := by
    rw [compile_eq_ofChars _ _ htext (by decide +kernel)]
    decide +kernel
  obtain ⟨c, hrun, hcode⟩ := Option.map_eq_some_iff.mp hcode
  have hrun := Except.toOption_eq_some.mp hrun
  obtain ⟨r, -⟩ := exists_compilation hrun
  have hacyclic : r.framed.calls.Acyclic := CallGraph.acyclic_of_findCycle
    (calls_of_framed r.lower_eq r.type_eq r.expand_eq r.frame_eq).1
    (Arrangement.findCycle_eq_none r.arrange_eq)
  obtain ⟨init, rest, fs, hblocks, -, -, hemits, harranged⟩ :=
    (emission_exact r.lower_eq r.type_eq r.expand_eq r.frame_eq).1 hacyclic
  rw [r.arrange_eq] at harranged
  have hresult := congrArg (fun r => r.1.blocks) (Except.ok.inj harranged)
  exact ⟨c, hrun, hcode, r, hacyclic, init, rest, fs, hblocks, hemits, hresult⟩

set_option maxRecDepth 4000 in
/-- A circle of functions that no callback reaches. -/
example : (match compile ⟨{}, .empty⟩ {} ("on init\nend on\n" ++
    "function pong\ncall ping\nend function\nfunction ping\ncall pong\nend function\n") with
  | .error (.program (.recursionDetected circle)) => circle
  | _ => "") = "ping->pong->ping" := by
  rw [compile_eq_ofChars _ _ (Text.toList_pieces String.toList_ofList String.toList_ofList)
    (by decide +kernel)]
  decide +kernel

end FlatScript
