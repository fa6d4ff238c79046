import FlatScript.Proofs.Passes
import FlatScript.Proofs.Stack.Expanded
import FlatScript.Proofs.Stack.Sites

/-!
# The discipline of the stack

A script that leaves the stack alone is lowered, gets its sigils, is expanded, and its task
functions get their frames. This file puts together what is known after each of these steps:

* calls of task functions pass their arguments on the stack, and nothing else does;
* `FlatScript.Stack.callbacks_disciplined`: whatever the engine does, every such call that a
  callback comes to, at any depth, gives the pointers and the stack above them back, and its
  values are where the function looks for them.
-/

namespace FlatScript.Stack

open Inlining (marshalled slotCount passedKinds Passed isStandalone withBody withBody_cases
  withBody_name withBody_fn)

/-! ### Sources -/

/-- **A block that leaves the stack alone.** -/
def Reserves : Block → Prop
  | .callback c => stmtsMeet reserved c.body
  | .function f => Reserved f ∧ stmtsMeet reserved f.body

/-- **What is known of a script and its functions** before they are expanded. -/
structure Tidy (s : Script) (p : Program) : Prop where
  callbacks : ∀ c, .callback c ∈ s.blocks → stmtsMeet (cells 0) c.body
  functions : ∀ e ∈ p.functions, Kept e
  nodup : (p.functions.map FunctionEntry.name).Nodup

variable {env : Env} {s s' : Script} {p p' : Program}

theorem tidy_of_lowering (hs : ∀ b ∈ s.blocks, Reserves b)
    (h : (Lowering.script env s).run {} = .ok (s', p')) : Tidy s' p' := by
  have hsource : ∀ b ∈ s.blocks, (lowering env).Source b := by
    intro b hb
    cases b with
    | callback c => exact hs _ hb
    | function f => exact hs _ hb
  obtain ⟨htable, hblocks⟩ := (lowering env).script_run hsource (.empty _) h
  refine ⟨fun c hc => ?_, htable.entry, htable.nodup⟩
  obtain ⟨c', hc', hbody⟩ := hblocks _ hc
  cases hc'
  exact hbody.2

theorem Tidy.sigils (ht : Tidy s p) (h : (Sigils.script env s).run p = .ok (s', p')) :
    Tidy s' p' := by
  obtain ⟨hblocks, functions, rfl, hfunctions⟩ := Sigils.script_run h
  refine ⟨fun c hc => ?_, fun e he => ?_, ?_⟩
  · obtain ⟨b, hb, hmap⟩ := exists_mem_of_forall₂ hblocks hc
    cases hmap with
    | callback _ hbody => exact (sigils_carries env p 0).stmts trivial _ (ht.callbacks _ hb) hbody
  · obtain ⟨e₀, he₀, hentry⟩ := exists_mem_of_forall₂ hfunctions he
    exact ((ht.functions e₀ he₀).sigils hentry).1
  · change (functions.map FunctionEntry.name).Nodup
    rw [Sigils.names_eq hfunctions]
    exact ht.nodup

/-! ### Expansion -/

/-- **What is known of a script and its functions** after they have been expanded. -/
structure Spread (s : Script) (p : Program) : Prop where
  callbacks : ∀ c ∈ s.callbacks, bodyMeets (passing p) c.body ∧ stmtsMeet (slotted 0) c.body
  standalone : ∀ e ∈ p.functions, isStandalone e.fn = true → bodyMeets (passing p) e.fn.body
  reserved : ∀ e ∈ p.functions, Reserved e.fn
  body : ∀ e ∈ p.functions, stmtsMeet (slotted (room (some e))) e.fn.body

theorem expansion_closed (env : Env) (p : Program) (hp : ∀ e ∈ p.functions, Kept e) :
    (expansion env p hp).Closed :=
  fun _ _ _ hready => ⟨trivial, hready⟩

/-- Giving functions their expanded bodies does not change which calls are of task functions. -/
theorem sited_withBody {bodies : List (String × List Stmt)} {ss : List Stmt} (h : Sited p ss) :
    Sited { p with functions := p.functions.map (withBody bodies) } ss := by
  refine h.congr fun name => ?_
  rw [Inlining.function?_withBody]
  cases p.function? name with
  | none => exact .none
  | some e => exact .some ⟨_, withBody_fn bodies e⟩

theorem expanded_implies_passing {p₀ : Program} {t : Inlining.Top}
    (h : ∀ ss, Sited p ss → Sited p' ss) : (expanded p₀ p t).Implies (passing p') :=
  ⟨fun _ _ => trivial, fun _ _ => trivial, h, fun _ h => h, fun _ _ _ _ => trivial,
    fun _ _ _ => trivial⟩

theorem expanded_implies_slotted {p₀ : Program} {t : Inlining.Top} {k : Nat}
    (hk : roomOf p₀ t = k) : (expanded p₀ p t).Implies (slotted k) := by
  subst hk
  exact ⟨fun _ h => h, fun _ h => h, fun _ _ => trivial, fun _ h => h, fun _ _ _ h => h,
    fun _ _ h => h⟩

theorem Tidy.expand (ht : Tidy s p) (h : (Inlining.script env s).run p = .ok (s', p')) :
    Spread s' p' := by
  have hstarts : (expansion env p ht.functions).Starts (Inlining.expand env) (Inlining.expand env)
      s.blocks := by
    have hclosed := expansion_closed env p ht.functions
    refine ⟨fun c hc q hq => ?_, fun e he hstand q hq => ?_⟩
    · refine hclosed.expand_runs trivial ?_ hq
      exact ht.callbacks c hc
    · have hroom : roomOf p (.function e.name) = room (some e) := by
        rw [roomOf, Program.function?_of_mem ht.nodup he]
      refine hclosed.expand_runs trivial ?_ hq
      change stmtsMeet (cells (roomOf p (.function e.name))) e.fn.body
      rw [hroom]
      exact (ht.functions e he).body
  obtain ⟨p₁, bodies, hgrows, rfl, hblocks, hbodies⟩ := Inlining.Scheme.script_run hstarts h
  have hpassing : ∀ t, (expanded p p₁ t).Implies
      (passing { p₁ with functions := p₁.functions.map (withBody bodies) }) :=
    fun t => expanded_implies_passing fun _ h => sited_withBody h
  refine ⟨fun c hc => ?_, fun e he hstand => ?_, fun e he => ?_, fun e he => ?_⟩
  · have hbody := Inlining.Scheme.callbacks_of_blocks hblocks
      (Inlining.mem_blocks_of_mem_callbacks hc)
    exact ⟨hbody.mono (hpassing _), stmtsMeet_mono (expanded_implies_slotted rfl) hbody.2⟩
  · obtain ⟨e₁, he₁, rfl⟩ := List.mem_map.mp he
    have hstand₁ : isStandalone e₁.fn = true := by
      rw [withBody_fn] at hstand
      exact hstand
    have hmem := Inlining.mem_of_withBody (hbodies.total e₁ he₁ hstand₁)
    exact (hbodies.meets _ hmem).mono (hpassing _)
  · obtain ⟨e₁, he₁, rfl⟩ := List.mem_map.mp he
    obtain ⟨e₀, he₀, hgrow⟩ := hgrows.mem_before he₁
    have hreserved := (ht.functions e₀ he₀).reserved
    rw [withBody_fn, hgrow.fn]
    exact hreserved
  · obtain ⟨e₁, he₁, rfl⟩ := List.mem_map.mp he
    obtain ⟨e₀, he₀, hgrow⟩ := hgrows.mem_before he₁
    have htask : (withBody bodies e₁).fn.isTaskfunc = e₁.fn.isTaskfunc := by rw [withBody_fn]
    have hroom : room (some (withBody bodies e₁)) = room (some e₀) := by
      simp only [room, Inlining.withBody_frame, htask, hgrow.fn, hgrow.frame]
    rw [hroom]
    rcases withBody_cases bodies e₁ with heq | ⟨body, hmem, heq⟩
    · rw [heq, hgrow.fn]
      exact stmtsMeet_mono (cells_implies_slotted _) (ht.functions e₀ he₀).body
    · rw [heq]
      refine stmtsMeet_mono (expanded_implies_slotted ?_) (hbodies.meets _ hmem).2
      rw [hgrow.name, roomOf, Program.function?_of_mem ht.nodup he₀]

/-! ### Frames -/

/-- The cells of the parameters fit into the body of a function. -/
theorem fits_slots {e : FunctionEntry} (hreserved : Reserved e.fn) :
    Fits (Taskfunc.slots e) e.frame.length ((Taskfunc.slotNames e.fn).length + e.frame.length) ∧
      KeepsCells (Taskfunc.slots e) := by
  have hmem : ∀ b ∈ Taskfunc.slots e, ∃ i, i < (Taskfunc.slotNames e.fn).length ∧
      b.1 ∈ Taskfunc.slotNames e.fn ∧ b.2 = parameterCell e i := by
    intro b hb
    rw [slots_eq, List.mem_reverse, List.mem_mapIdx] at hb
    obtain ⟨i, hi, rfl⟩ := hb
    exact ⟨i, hi, List.getElem_mem hi, rfl⟩
  have hkeeps : KeepsCells (Taskfunc.slots e) := by
    intro b hb
    obtain ⟨i, -, hkey, -⟩ := hmem b hb
    exact hreserved _ hkey
  refine ⟨⟨Nat.le_add_left .., fun b hb => ?_, .inr hkeeps⟩, hkeeps⟩
  obtain ⟨i, hi, -, heq⟩ := hmem b hb
  rw [heq]
  exact meets_slot (by unfold Taskfunc.firstSlot; omega) (by unfold Taskfunc.firstSlot; omega) _

/-- **A task function with its frame.** -/
theorem framed_of_withFrame {e e' : FunctionEntry} (hreserved : Reserved e.fn)
    (hbody : stmtsMeet (slotted (room (some e))) e.fn.body) (htask : e.fn.isTaskfunc = true)
    (h : Taskfunc.withFrame env e = .ok e') :
    ∃ body, (Taskfunc.slots e).stmts env e.fn.body = .ok body ∧
      Framed e' ((Taskfunc.slotNames e.fn).length + e.frame.length) e.fn.span body := by
  rcases Taskfunc.withFrame_eq_ok h with ⟨hfalse, -⟩ | ⟨-, hbound, body, hsubst, rfl⟩
  · rw [htask] at hfalse
    cases hfalse
  · have hroom : room (some e) = e.frame.length := by simp [room, htask]
    obtain ⟨hfits, hkeeps⟩ := fits_slots hreserved
    exact ⟨body, hsubst, rfl, hbound,
      (hfits.carries_slotted hkeeps env).stmts trivial _ (hroom ▸ hbody) hsubst⟩

theorem Spread.table {functions : List FunctionEntry} (hs : Spread s p)
    (hfunctions : List.Forall₂ (fun e e' => Taskfunc.withFrame env e = .ok e') p.functions functions)
    (hexit : ∀ e ∈ functions, stmtsMeet noExit e.fn.body) : Table functions := by
  refine ⟨fun e' he' => ?_, hexit⟩
  obtain ⟨e, he, h⟩ := exists_mem_of_forall₂ hfunctions he'
  cases htask : e.fn.isTaskfunc with
  | true =>
    obtain ⟨body, -, hframed⟩ := framed_of_withFrame (hs.reserved e he) (hs.body e he) htask h
    exact .inr ⟨_, _, body, hframed⟩
  | false =>
    have hroom : room (some e) = 0 := by simp [room, htask]
    rcases Taskfunc.withFrame_eq_ok h with ⟨-, rfl⟩ | ⟨htrue, -⟩
    · exact .inl (hroom ▸ hs.body e' he)
    · rw [htask] at htrue
      cases htrue

/-- A function is found by its name, with its frame. -/
theorem find?_withFrame {functions : List FunctionEntry} {name : String} {e : FunctionEntry}
    (hfunctions : List.Forall₂ (fun e e' => Taskfunc.withFrame env e = .ok e') p.functions functions)
    (he : p.function? name = some e) :
    ∃ e', functions.find? (·.name == name) = some e' ∧ Taskfunc.withFrame env e = .ok e' := by
  unfold Program.function? at he
  generalize p.functions = es at hfunctions he
  induction hfunctions with
  | nil => cases he
  | @cons x x' _ _ hx _ ih =>
    rw [List.find?_cons] at he ⊢
    rw [Taskfunc.withFrame_name hx]
    cases hname : x.name == name with
    | true =>
      rw [hname] at he
      cases he
      exact ⟨x', rfl, hx⟩
    | false =>
      rw [hname] at he
      exact ih he

/-! ### Runs -/

/-- **The discipline of the stack.** Take a script that leaves the stack alone, and in which no
function uses `exit`, after its task functions have got their frames. In its callbacks and in
the functions that can be called with `call`, every call of a task function passes its
arguments on the stack, and nothing else is passed there. And in every run of a callback, from
any state and on any machine, every such call that is come to, in the callback or however deep
in the functions it calls, is disciplined when it ends. -/
theorem callbacks_disciplined {World Other : Type} (M : Machine World Other) (env : Env)
    {s₀ s₁ s₂ s₃ : Script} {p₁ p₂ p₃ p₄ : Program} (hsource : ∀ b ∈ s₀.blocks, Reserves b)
    (hlower : (Lowering.script env s₀).run {} = .ok (s₁, p₁))
    (hsigils : (Sigils.script env s₁).run p₁ = .ok (s₂, p₂))
    (hexpand : (Inlining.script env s₂).run p₂ = .ok (s₃, p₃))
    (hframes : (Taskfunc.program env).run p₃ = .ok ((), p₄))
    (hexit : ∀ e ∈ p₄.functions, stmtsMeet noExit e.fn.body) :
    (∀ c ∈ s₃.callbacks, bodyMeets (passing p₃) c.body) ∧
      (∀ e ∈ p₃.functions, isStandalone e.fn = true → bodyMeets (passing p₃) e.fn.body) ∧
      ∀ c ∈ s₃.callbacks, ∀ (f : FunctionEntry) (name : Ident) (span : Span) (trace : List Span)
        (captured : Bool) (values : List (Option Expr)) (targets : List (Option VarRef)),
        p₃.function? name.name = some f → f.fn.isTaskfunc = true →
        Passed f.fn captured values targets →
        ∀ (n : Nat) (rest : List Stmt) (start st st' : State World),
          Reaches M p₄.functions c.body start
            (marshalled f.fn name span trace values targets ++ rest) st →
          Exec M p₄.functions n (marshalled f.fn name span trace values targets) st st' →
          ∃ body, (Taskfunc.slots f).stmts env f.fn.body = .ok body ∧
            ∃ m before entry last after, Disciplined M p₄.functions n m f body span trace values
              targets st before entry last after st' := by
  have hspread := ((tidy_of_lowering hsource hlower).sigils hsigils).expand hexpand
  obtain ⟨functions, rfl, hfunctions⟩ := Taskfunc.program_run hframes
  refine ⟨fun c hc => (hspread.callbacks c hc).1, hspread.standalone, ?_⟩
  intro c hc f name span trace captured values targets hf htask hpassed n rest start st st' hreach h
  have hmem := (Program.mem_functions_of_function? hf).1
  obtain ⟨e, he, hframe⟩ := find?_withFrame hfunctions hf
  obtain ⟨body, hbody, hframed⟩ :=
    framed_of_withFrame (hspread.reserved f hmem) (hspread.body f hmem) htask hframe
  exact ⟨body, hbody, hreach.disciplined (hspread.table hfunctions hexit) he hframed hpassed
    (hspread.callbacks c hc).2 h⟩

/-! ### A sample -/

/-- A declaration of a variable. -/
def sampleDeclare (name : String) (size : Option Expr) : Stmt :=
  .written (.declare ⟨.fixed name .zero, [], size, [], none⟩) .zero

/-- A task function that adds one to its parameter, and a callback that calls it. -/
def sampleSource : Script :=
  ⟨[.callback ⟨"init", none,
      [sampleDeclare "%p" (some (.int 100 .zero)), sampleDeclare "$sp" none,
        sampleDeclare "$fp" none, sampleDeclare "$x" none], .zero⟩,
    .function ⟨.fixed "t" .zero, [⟨.fixed "a" .zero, .var⟩], none,
      [.written (.assign (Frame.fixedVar "a" .zero)
        ((Frame.fixedVar "a" .zero).toExpr.op .add (.int 1 .zero))) .zero], true, false, .zero⟩,
    .callback ⟨"note", none,
      [.written (.call ⟨.fixed "t" .zero, [(Frame.fixedVar "$x" .zero).toExpr], true, false,
        .zero⟩) .zero], .zero⟩]⟩

/-- A machine whose world is the value of the only other variable. -/
def sampleMachine : Machine Int Empty where
  constant _ _ := False
  unary _ _ _ := False
  binary _ _ _ _ := False
  read w _ _ d := d = .int w
  write _ _ _ d w := d = .int w
  value _ _ _ _ _ _ := False
  command _ _ _ _ _ _ := False
  declare _ _ _ := False
  truth _ _ := False
  covers _ _ _ := False

/-- The task function of the sample, with its frame. -/
def sampleFramed : List Stmt :=
  let cell := Frame.slot Frame.framePointer .add 1 .zero
  Taskfunc.enter 2 .zero ++
    [.written (.assign cell (cell.toExpr.op .add (.int 1 .zero))) .zero] ++ Taskfunc.leave 2 .zero

/-- The call of the sample, after expansion. -/
def sampleCall (f : FunctionDef) : List Stmt :=
  marshalled f (.fixed "t" .zero) .zero [] [some (Frame.fixedVar "$x" .zero).toExpr]
    [some (Frame.fixedVar "$x" .zero)]

theorem sampleSource_reserves : ∀ b ∈ sampleSource.blocks, Reserves b := by
  have hdeclare : ∀ name size, (∀ e ∈ size, Expr.Meets reserved e) →
      (sampleDeclare name size).Meets reserved := by
    refine fun name size hsize => ⟨trivial, hsize, trivial, ?_⟩
    rintro _ ⟨⟩
  have hnone : ∀ e ∈ (none : Option Expr), Expr.Meets reserved e := by rintro _ ⟨⟩
  have hvar : ∀ name, isStackName (Sigil.split name).2 = false →
      (Frame.fixedVar name .zero).Meets reserved :=
    fun name hname => ⟨hname, trivial⟩
  intro b hb
  simp only [sampleSource, List.mem_cons, List.not_mem_nil, or_false] at hb
  rcases hb with rfl | rfl | rfl
  · exact ⟨hdeclare _ _ (by rintro _ ⟨⟩; trivial), hdeclare _ _ hnone, hdeclare _ _ hnone,
      hdeclare _ _ hnone, trivial⟩
  · have hparams : isStackName (Name.firstPart (Ident.fixed "a" .zero).name) = false := by decide
    refine ⟨by simpa [Reserved, Taskfunc.slotNames] using hparams, .inr ⟨trivial, ?_, ?_⟩, trivial⟩
    · exact hvar "a" (by decide)
    · exact .inr ⟨trivial, hvar "a" (by decide), trivial⟩
  · exact ⟨⟨trivial, .inr (hvar "$x" (by decide)), trivial⟩, trivial⟩

theorem sampleFramed_noExit : stmtsMeet noExit sampleFramed :=
  ⟨.inl trivial, .inl trivial, .inl trivial, .inl trivial, .inl trivial, .inl trivial,
    .inl trivial, trivial⟩

/-- The cell of the parameter goes up by one, and the stack pointer is back where it was. -/
theorem sampleFramed_runs (fns : List FunctionEntry) (n : Nat) (st : State Int) :
    ∃ st', Exec sampleMachine fns n sampleFramed st st' ∧ st'.sp = st.sp ∧
      st'.cell (st.sp - 1) = st.cell (st.sp - 1) + 1 ∧ st'.world = st.world := by
  have hp : IsVar Frame.stack (Ident.fixed Frame.stack .zero) := isVar_fixed _ (by decide) _
  have hsp : IsVar Frame.stackPointer (Ident.fixed Frame.stackPointer .zero) :=
    isVar_fixed _ (by decide) _
  have hfp : IsVar Frame.framePointer (Ident.fixed Frame.framePointer .zero) :=
    isVar_fixed _ (by decide) _
  refine ⟨_, .step (.assign (.fp hfp) (.cell hp (.sub (.sp hsp) .int)))
    (.step (.assign (.sub (.sp hsp) .int) (.fp hfp))
    (.step (.assign (.fp hfp) (.sp hsp))
    (.step (.assign (.add (.cell hp (.add (.fp hfp) .int)) .int) (.cell hp (.add (.fp hfp) .int)))
    (.step (.assign (.fp hfp) (.sp hsp))
    (.step (.assign (.cell hp (.fp hfp)) (.fp hfp))
    (.step (.assign (.add (.sp hsp) .int) (.sp hsp)) .nil)))))), ?_, ?_, rfl⟩
  · simp
  · have hcell : st.sp - 2 + 1 = st.sp - 1 := by omega
    have hfree : st.sp - 1 ≠ st.sp - 2 := by omega
    simp [hcell, hfree]

theorem sampleSource_compiled : ∃ s₁ p₁ s₂ p₂ s₃ p₃ p₄,
    (Lowering.script ⟨{}, .empty⟩ sampleSource).run {} = .ok (s₁, p₁) ∧
    (Sigils.script ⟨{}, .empty⟩ s₁).run p₁ = .ok (s₂, p₂) ∧
    (Inlining.script ⟨{}, .empty⟩ s₂).run p₂ = .ok (s₃, p₃) ∧
    (Taskfunc.program ⟨{}, .empty⟩).run p₃ = .ok ((), p₄) ∧
    ∃ f c, p₃.function? "t" = some f ∧ f.fn.isTaskfunc = true ∧
      f.fn.params.map Param.kind = [.var] ∧ f.fn.result = none ∧ c ∈ s₃.callbacks ∧
      c.body = sampleCall f.fn ∧
      ∃ e, p₄.functions = [e] ∧ e.name = "t" ∧ e.fn.body = sampleFramed := by
  refine ⟨_, _, _, _, _, _, _, by cbv, by cbv, by cbv, by cbv, _, _, by cbv, rfl, rfl, rfl,
    List.mem_cons_of_mem _ (List.mem_cons_self ..), by cbv, _, by cbv, by cbv, by cbv⟩

theorem sampleCall_runs {f : FunctionDef} {e : FunctionEntry}
    (hparams : f.params.map Param.kind = [.var]) (hresult : f.result = none) (hname : e.name = "t")
    (hbody : e.fn.body = sampleFramed) :
    ∃ st', Exec sampleMachine [e] 1 (sampleCall f) ⟨⟨10, 0, fun _ => 0⟩, 5⟩ st' ∧
      st'.world = 6 := by
  have hx : ¬ IsStackVar (Ident.fixed "$x" .zero) := by
    unfold IsStackVar IsVar
    decide
  have hp : IsVar Frame.stack (Ident.fixed Frame.stack .zero) := isVar_fixed _ (by decide) _
  have hsp : IsVar Frame.stackPointer (Ident.fixed Frame.stackPointer .zero) :=
    isVar_fixed _ (by decide) _
  have hcount : slotCount f = 1 := by
    have hlen := congrArg List.length hparams
    rw [List.length_map] at hlen
    simp [slotCount, hlen, hresult]
  unfold sampleCall marshalled
  rw [hcount]
  obtain ⟨st₁, hrun, hsp₁, hcell, -⟩ := sampleFramed_runs [e] 0
    ⟨⟨10, 0, fun a => if a = 9 then 5 else 0⟩, 5⟩
  refine ⟨_, .step (.assign (.var hx .nil rfl) (.cell hp (.sub (.sp hsp) .int)))
    (.call ⟨_, _, _, rfl, by simp [hname, Ident.fixed, Ident.ofText]; decide⟩ (hbody ▸ hrun)
      (.step (.assign (.cell hp (.sub (.sp hsp) .int)) (.var hx .nil rfl)) .nil)), ?_⟩
  simpa [hsp₁] using hcell

theorem sampleSource_disciplined : ∃ s₁ p₁ s₂ p₂ s₃ p₃ p₄ f,
    (Lowering.script ⟨{}, .empty⟩ sampleSource).run {} = .ok (s₁, p₁) ∧
    (Sigils.script ⟨{}, .empty⟩ s₁).run p₁ = .ok (s₂, p₂) ∧
    (Inlining.script ⟨{}, .empty⟩ s₂).run p₂ = .ok (s₃, p₃) ∧
    (Taskfunc.program ⟨{}, .empty⟩).run p₃ = .ok ((), p₄) ∧ p₃.function? "t" = some f ∧
    ∃ body st' m before entry last after, st'.world = 6 ∧
      Disciplined sampleMachine p₄.functions 1 m f body .zero []
        [some (Frame.fixedVar "$x" .zero).toExpr] [some (Frame.fixedVar "$x" .zero)]
        ⟨⟨10, 0, fun _ => 0⟩, 5⟩ before entry last after st' := by
  obtain ⟨s₁, p₁, s₂, p₂, s₃, p₃, p₄, hlower, hsigils, hexpand, hframes, f, c, hf, htask, hparams,
    hresult, hc, hcall, e, hfns, hname, hbody⟩ := sampleSource_compiled
  obtain ⟨st', hrun, hworld⟩ := sampleCall_runs hparams hresult hname hbody
  have hpassed : Passed f.fn false [some (Frame.fixedVar "$x" .zero).toExpr]
      [some (Frame.fixedVar "$x" .zero)] := by
    refine ⟨by simp, ?_, ?_, ?_⟩
    · simp [passedKinds, hparams, ParamKind.copiesIn]
    · simp [passedKinds, hparams, ParamKind.copiesOut]
    · have hlen := congrArg List.length hparams
      rw [List.length_map] at hlen
      simp [slotCount, hlen, hresult]
  have hexit : ∀ e' ∈ p₄.functions, stmtsMeet noExit e'.fn.body := by
    intro e' he'
    rw [hfns, List.mem_singleton] at he'
    rw [he', hbody]
    exact sampleFramed_noExit
  obtain ⟨body, -, m, before, entry, last, after, hd⟩ :=
    (callbacks_disciplined sampleMachine ⟨{}, .empty⟩ sampleSource_reserves hlower hsigils hexpand
      hframes hexit).2.2 c hc f (.fixed "t" .zero) .zero [] false _ _ hf htask hpassed 1 [] _ _ st'
      (by rw [List.append_nil, hcall]; exact .here) (hfns ▸ hrun)
  exact ⟨s₁, p₁, s₂, p₂, s₃, p₃, p₄, f, hlower, hsigils, hexpand, hframes, hf, body, st', m, before,
    entry, last, after, hworld, hd⟩

end FlatScript.Stack
