import FlatScript.Proofs.Characters
import FlatScript.Proofs.Emission
import FlatScript.Proofs.Inlining.Deposits
import FlatScript.Proofs.Lowering.Initializers

/-!
# The values that variables start with

After lowering, a value that a variable of a function starts with is assigned in the body of the
function, or it stands in a declaration that is kept with the function. This file follows both to
the script that is written.

* The body of the function comes into each block that calls the function, or is a block itself:
  `FlatScript.Compilation.Way`. It gets its sigils, is copied to the call and is expanded, or is
  expanded where it is. All of this is done statement by statement, so what becomes of an
  assignment stands where the declaration stood.
* The declarations come into the init callback, with their sigils, and expanded where a copy has
  taken them along.

Then the blocks stay what they are; only the names and the controls in them change, which is
`FlatScript.Compilation.Finished`. In the end they are folded and get short names, if that is asked
for: `FlatScript.Compilation.outputOf`. `FlatScript.initializers_kept` puts all of this together.
Which values are lost on the way is told by `FlatScript.Lowering.losesInit` alone, but for three
things that have nothing to do with values: of a copy in an expression that only assigns the result
of a function the assigned value is used, a function with a result that is called with `call` is not
expanded, and folding drops what is never run.
-/

namespace FlatScript

/-! ### Bodies, step after step -/

namespace Lowering

section After

variable {env : Env} {P : List String → Declaration → Span → List Span → List Stmt → Prop}
  {K : Stmt → List Stmt → Prop} {T : List Stmt → List Stmt → Prop}

/-- What becomes of a declaration, and then of what it has left. -/
def declThen (P : List String → Declaration → Span → List Span → List Stmt → Prop)
    (T : List Stmt → List Stmt → Prop) (families : List String) (d : Declaration) (span : Span)
    (trace : List Span) (ys : List Stmt) : Prop :=
  ∃ ss, P families d span trace ss ∧ T ss ys

/-- What becomes of a statement, and then of what it has left. -/
def stmtThen (K : Stmt → List Stmt → Prop) (T : List Stmt → List Stmt → Prop) (s : Stmt)
    (ys : List Stmt) : Prop :=
  ∃ ss, K s ss ∧ T ss ys

mutual

theorem stmtBecomes_then (hT : Statementwise T) : ∀ (families : List String) (s : Stmt)
    {zs ys : List Stmt}, stmtBecomes env P K families s zs → T zs ys →
    stmtBecomes env (declThen P T) (stmtThen K T) families s ys
  | _, ⟨.declare d, span, trace⟩, zs, _, h, hys => ⟨zs, h, hys⟩
  | _, ⟨.assign _ _, _, _⟩, zs, _, h, hys => ⟨zs, h, hys⟩
  | _, ⟨.call _, _, _⟩, zs, _, h, hys => ⟨zs, h, hys⟩
  | _, ⟨.property _ _, _, _⟩, _, _, h, hys => by
    simp only [stmtBecomes] at h ⊢
    subst h
    exact hT.nil hys
  | _, ⟨.synonym _ _ _, _, _⟩, _, _, h, hys => by
    simp only [stmtBecomes] at h ⊢
    subst h
    exact hT.nil hys
  | _, ⟨.family _ body, _, _⟩, _, _, h, hys => by
    simp only [stmtBecomes] at h ⊢
    exact stmtsBecome_then hT _ body h hys
  | families, ⟨.whileLoop _ body, _, _⟩, _, _, h, hys => by
    simp only [stmtBecomes] at h ⊢
    obtain ⟨cond, zs, span, trace, rfl, hzs⟩ := h
    obtain ⟨cond', body', span', trace', rfl, hbody⟩ := hT.whileLoop hys
    exact ⟨cond', body', span', trace', rfl, stmtsBecome_then hT families body hzs hbody⟩
  | families, ⟨.forLoop _ _ _ _ _ body, _, _⟩, _, _, h, hys => by
    simp only [stmtBecomes] at h ⊢
    obtain ⟨first, cond, zs, last, span, trace, rfl, hzs⟩ := h
    obtain ⟨first', loop, rfl, -, hloop⟩ := hT.append hys
    obtain ⟨cond', body', span', trace', rfl, hbody⟩ := hT.whileLoop hloop
    obtain ⟨body'', last', rfl, hbody, -⟩ := hT.append hbody
    exact ⟨first', cond', body'', last', span', trace', rfl,
      stmtsBecome_then hT families body hzs hbody⟩
  | families, ⟨.ifChain branches otherwise, _, _⟩, _, _, h, hys => by
    simp only [stmtBecomes] at h ⊢
    obtain ⟨s, rfl, hs⟩ := h
    exact chainBecomes_then hT families branches
      (fun h hys => stmtsBecome_then hT families otherwise h hys) hs hys
  | families, ⟨.select _ cases, _, _⟩, _, _, h, hys => by
    simp only [stmtBecomes] at h ⊢
    obtain ⟨subject, zs, span, trace, rfl, hzs⟩ := h
    obtain ⟨subject', cases', span', trace', rfl, hcases⟩ := hT.select hys
    exact ⟨subject', cases', span', trace', rfl, casesBecome_then hT families cases hzs hcases⟩
termination_by structural _ s => s

/-- **What becomes of the statements that a body is lowered to** is told at the same places. -/
theorem stmtsBecome_then (hT : Statementwise T) : ∀ (families : List String) (ss : List Stmt)
    {zs ys : List Stmt}, stmtsBecome env P K families ss zs → T zs ys →
    stmtsBecome env (declThen P T) (stmtThen K T) families ss ys
  | _, [], _, _, h, hys => by
    simp only [stmtsBecome] at h ⊢
    subst h
    exact hT.nil hys
  | families, s :: ss, _, _, h, hys => by
    simp only [stmtsBecome] at h ⊢
    obtain ⟨first, rest, rfl, hfirst, hrest⟩ := h
    obtain ⟨first', rest', rfl, hfirst', hrest'⟩ := hT.append hys
    exact ⟨first', rest', rfl, stmtBecomes_then hT families s hfirst hfirst',
      stmtsBecome_then hT families ss hrest hrest'⟩
termination_by structural _ ss => ss

theorem chainBecomes_then (hT : Statementwise T) (families : List String) :
    ∀ (bs : List Branch) {Q Q' : List Stmt → Prop} {s : Stmt} {ys : List Stmt},
    (∀ {zs ys}, Q zs → T zs ys → Q' ys) → chainBecomes env P K families Q bs s → T [s] ys →
    ∃ s', ys = [s'] ∧ chainBecomes env (declThen P T) (stmtThen K T) families Q' bs s'
  | [], _, _, _, _, ho, h, hys => by
    simp only [chainBecomes] at h ⊢
    obtain ⟨last, span, trace, rfl, hlast⟩ := h
    obtain ⟨branches', otherwise', span', trace', rfl, hbranches, ho'⟩ := hT.ifChain hys
    cases hbranches
    exact ⟨_, rfl, otherwise', span', trace', rfl, ho hlast ho'⟩
  | [⟨_, body⟩], _, _, _, _, ho, h, hys => by
    simp only [chainBecomes] at h ⊢
    obtain ⟨cond, zs, last, span, trace, rfl, hzs, hlast⟩ := h
    obtain ⟨branches', otherwise', span', trace', rfl, hbranches, ho'⟩ := hT.ifChain hys
    obtain ⟨⟨cond', body'⟩, rest, hbody, hrest, rfl⟩ := List.forall₂_cons_left_iff.mp hbranches
    cases hrest
    exact ⟨_, rfl, cond', body', otherwise', span', trace', rfl,
      stmtsBecome_then hT families body hzs hbody, ho hlast ho'⟩
  | ⟨_, body⟩ :: b :: rest, _, _, _, _, ho, h, hys => by
    simp only [chainBecomes] at h ⊢
    obtain ⟨cond, zs, inner, span, trace, rfl, hzs, hinner⟩ := h
    obtain ⟨branches', otherwise', span', trace', rfl, hbranches, ho'⟩ := hT.ifChain hys
    obtain ⟨⟨cond', body'⟩, rest', hbody, hrest, rfl⟩ := List.forall₂_cons_left_iff.mp hbranches
    cases hrest
    obtain ⟨inner', rfl, hinner'⟩ := chainBecomes_then hT families (b :: rest) ho hinner ho'
    exact ⟨_, rfl, cond', body', inner', span', trace', rfl,
      stmtsBecome_then hT families body hzs hbody, hinner'⟩
termination_by structural bs => bs

theorem casesBecome_then (hT : Statementwise T) (families : List String) : ∀ (cs : List Case)
    {zs ys : List Case}, casesBecome env P K families cs zs →
    List.Forall₂ (fun c c' => T c.body c'.body) zs ys →
    casesBecome env (declThen P T) (stmtThen K T) families cs ys
  | [], _, _, h, hys => by
    simp only [casesBecome] at h ⊢
    subst h
    cases hys
    rfl
  | ⟨_, _, body⟩ :: rest, _, _, h, hys => by
    simp only [casesBecome] at h ⊢
    obtain ⟨start, stop, zs, rest', rfl, hzs, hrest⟩ := h
    obtain ⟨⟨start', stop', body'⟩, ys', hbody, hys', rfl⟩ := List.forall₂_cons_left_iff.mp hys
    exact ⟨start', stop', body', ys', rfl, stmtsBecome_then hT families body hzs hbody,
      casesBecome_then hT families rest hrest hys'⟩
termination_by structural cs => cs

end

end After

end Lowering

/-! ### Hoisted declarations -/

namespace Arrangement

/-- A body stays in one piece when declarations are put around it. -/
theorem within_hoist (functions : List FunctionEntry) (body : List Stmt) :
    Within body (hoist functions body) := by
  induction functions with
  | nil => exact .refl body
  | cons e functions ih =>
    change Within body (if e.used then e.globals ++ hoist functions body ++ e.locals else _)
    split
    · exact ih.around _ _
    · exact ih

/-- The declarations of a function that is used are put around the body. -/
theorem within_hoist_of_mem {functions : List FunctionEntry} {e : FunctionEntry}
    (he : e ∈ functions) (hused : e.used = true) {s : Stmt} (hs : s ∈ e.globals ++ e.locals)
    (body : List Stmt) : Within [s] (hoist functions body) := by
  induction functions with
  | nil => cases he
  | cons e' functions ih =>
    change Within [s] (if e'.used then e'.globals ++ hoist functions body ++ e'.locals else _)
    rcases List.mem_cons.mp he with rfl | he
    · rw [if_pos hused]
      rcases List.mem_append.mp hs with hs | hs
      · exact ((Within.of_mem hs).left _).left _
      · exact (Within.of_mem hs).right _
    · split
      · exact (ih he).around _ _
      · exact ih he

end Arrangement

/-! ### Ways into the arranged script -/

open Inlining (Top Expands ExpandedTo IsCopy GivesValue isStandalone)

/-- The block that expansion takes it for. -/
def Block.top : Block → Top
  | .callback c => .callback c.isInit
  | .function f => .function f.name.name

variable {env : Env} {o : Options} {source : String}

namespace Compilation

/-- The body of a function gets its sigils. -/
def Typed (c : Compilation env o source) (e : FunctionEntry) (ss ys : List Stmt) : Prop :=
  mapLeavesStmts (Sigils.leafMap env c.lowered.2) e.fn.paramNames ss = .ok ys

/-- The cells of a frame are put in the place of the parameters and the result. -/
def Framed (env : Env) (e : FunctionEntry) (ss ys : List Stmt) : Prop :=
  ∃ params, mapLeavesStmts (Substitution.leafMap env (Taskfunc.slots e)) params ss = .ok ys

/-- **A way of the body of a function into a block** of the arranged script. -/
inductive Way (c : Compilation env o source) (e : FunctionEntry) :
    Top → (List Stmt → List Stmt → Prop) → Prop
  /-- It is copied to a call, with something in the place of parameters and result, and expanded. -/
  | copied (t : Top) (stack : List String) (site : Span) {σ : Substitution}
    (hσ : ∀ b ∈ σ, b.1 ∈ Taskfunc.slotNames e.fn) :
    Way c e t (After (c.Typed e) (After (fun ss ys => ys = stmtsCopiedTo site ss)
      (After (fun ss ys => σ.stmts env ss = .ok ys) (Expands env c.typed.2 t stack))))
  /-- It is expanded where it is, if the function can be called with `call`. -/
  | expanded (h : isStandalone e.fn = true) : Way c e (.function e.name)
    (After (c.Typed e) (Expands env c.typed.2 (.function e.name) [e.name]))
  /-- It is not expanded, if the function has parameters or a result and is called with `call`. -/
  | unexpanded (h : isStandalone e.fn = false) : Way c e (.function e.name) (c.Typed e)
  /-- The block is a task function, and gets its frame. -/
  | framed {T : List Stmt → List Stmt → Prop} {f : FunctionEntry} (hf : f ∈ c.expanded.2.functions)
    (htask : f.fn.isTaskfunc = true) (h : Way c e (.function f.name) T) :
    Way c e (.function f.name) (After T (Framed env f))

/-- The arranged script gets other names and other controls, but its statements stay. -/
def Finished (c : Compilation env o source) (ss ys : List Stmt) : Prop :=
  ∃ params params', After
    (fun ss ys => mapLeavesStmts (Sigils.leafMap env c.arranged.2) params ss = .ok ys)
    (After (fun ss ys =>
        mapLeavesStmts (Controls.leafMap env c.resolved.2.symbols) params' ss = .ok ys)
      fun ss ys => ys = Undotting.undot.stmts ss) ss ys

/-- What is written for statements: they are folded and get short names, if that is asked for. -/
def outputOf (c : Compilation env o source) (ss : List Stmt) : List Stmt :=
  let folded :=
    if o.optimizeCode then Folding.stmts (Folding.constantsOf c.undotted.1) ss else ss
  c.shortNames.elim folded fun names => (Compaction.shorten names).stmts folded

/-- **Statements are written**, in a block that was arranged as the given one. -/
def WrittenIn (c : Compilation env o source) (t : Top) (ys : List Stmt) : Prop :=
  ∃ b b', (b, b') ∈ c.arranged.1.blocks.zip c.final.blocks ∧ b.top = t ∧
    Within (c.outputOf ys) b'.body

/-- **Statements are never run**, and it is asked for that such statements are dropped. -/
def DroppedFrom (c : Compilation env o source) (t : Top) (ys : List Stmt) : Prop :=
  o.optimizeCode = true ∧ ∃ b b', (b, b') ∈ c.arranged.1.blocks.zip c.undotted.1.blocks ∧
    b.top = t ∧ Folding.Drops (Folding.constantsOf c.undotted.1) ys b'.body

variable {c : Compilation env o source} {e : FunctionEntry} {t : Top}
  {T : List Stmt → List Stmt → Prop}

/-- **All that happens to a body on its way** happens statement by statement. -/
theorem Way.statementwise (h : c.Way e t T) : Statementwise T := by
  have htyped : Statementwise (c.Typed e) := statementwise_mapLeaves _ _
  induction h with
  | copied t stack site =>
    exact htyped.after ((statementwise_copiedTo site).after
      ((statementwise_mapLeaves _ _).after (Inlining.statementwise_expands ..)))
  | expanded => exact htyped.after (Inlining.statementwise_expands ..)
  | unexpanded => exact htyped
  | framed _ _ _ ih =>
    exact ih.after (statementwise_exists fun params => statementwise_mapLeaves _ params)

theorem statementwise_finished (c : Compilation env o source) : Statementwise c.Finished :=
  statementwise_exists fun _ => statementwise_exists fun _ =>
    (statementwise_mapLeaves _ _).after ((statementwise_mapLeaves _ _).after
      (Renaming.statementwise _))

/-! ### Functions and blocks -/

/-- The names of the functions differ when their bodies are expanded. -/
theorem nodup_typed (c : Compilation env o source) :
    (c.typed.2.functions.map FunctionEntry.name).Nodup :=
  (Sigils.script_ready (Lowering.script_ready c.lower_eq) c.type_eq).nodup

/-- No calls are recorded before expansion. -/
theorem calls_typed (c : Compilation env o source) : c.typed.2.calls.calls = [] := by
  obtain ⟨-, functions, htyped, -⟩ := Sigils.script_run c.type_eq
  rw [htyped]
  exact (Lowering.table_of_script c.lower_eq).noCalls trivial

/-- A function of the lowered table, with its sigils. -/
theorem exists_typed (he : e ∈ c.lowered.2.functions) : ∃ e₂ ∈ c.typed.2.functions,
    Sigils.entry env c.lowered.2 e = .ok e₂ := by
  obtain ⟨-, functions, htyped, hentries⟩ := Sigils.script_run c.type_eq
  obtain ⟨e₂, he₂, hentry⟩ := exists_mem_of_forall₂ hentries.flip he
  exact ⟨e₂, by rw [htyped]; exact he₂, hentry⟩

/-- What becomes of the functions in expansion. -/
theorem expanded_functions (c : Compilation env o source) :
    List.Forall₂ (ExpandedTo env c.typed.2) c.typed.2.functions c.expanded.2.functions :=
  (Inlining.script_run c.nodup_typed c.expand_eq).1

theorem nodup_expanded (c : Compilation env o source) :
    (c.expanded.2.functions.map FunctionEntry.name).Nodup := by
  rw [map_eq_of_forall₂ c.expanded_functions fun _ _ h => h.name]
  exact c.nodup_typed

/-- A callback keeps its statements when it is arranged. -/
theorem exists_arranged {cb : Callback} (h : .callback cb ∈ c.expanded.1.blocks) :
    ∃ b ∈ c.arranged.1.blocks, b.top = .callback cb.isInit ∧ Within cb.body b.body := by
  obtain ⟨init, rest, hblocks, hblocks', -⟩ := Arrangement.script_run c.arrange_eq
  rw [hblocks] at h
  rw [hblocks']
  rcases List.mem_cons.mp h with h | h
  · cases h
    exact ⟨_, List.mem_cons_self, rfl, Arrangement.within_hoist _ _⟩
  · exact ⟨_, List.mem_cons_of_mem _ (List.mem_append_right _ h), rfl, .refl _⟩

/-- A block that is a function has been written. -/
theorem exists_written {b : Block} (hb : b ∈ c.arranged.1.blocks) {name : String}
    (htop : b.top = .function name) :
    ∃ f ∈ Arrangement.written c.framed.calls (Arrangement.markUsed c.framed),
      b = .function f ∧ f.name.name = name := by
  obtain ⟨init, rest, hblocks, hblocks', -⟩ := Arrangement.script_run c.arrange_eq
  rw [hblocks'] at hb
  rcases List.mem_cons.mp hb with rfl | hb
  · cases htop
  · rcases List.mem_append.mp hb with hb | hb
    · obtain ⟨f, hf, rfl⟩ := List.mem_map.mp hb
      exact ⟨f, hf, rfl, Top.function.inj htop⟩
    · -- All blocks of an expanded script are callbacks.
      obtain ⟨cb, rfl⟩ := (Inlining.script_heads c.expand_eq).2 b (by simp [hblocks, hb])
      cases htop

/-- A function that is written is one of the expanded table, with its frame if it has one. -/
theorem exists_expanded {f : FunctionDef}
    (hf : f ∈ Arrangement.written c.framed.calls (Arrangement.markUsed c.framed)) :
    ∃ e₃ ∈ c.expanded.2.functions, e₃.name = f.name.name ∧
      (f.body = e₃.fn.body ∨ e₃.fn.isTaskfunc = true ∧ ∃ body before after,
        (Taskfunc.slots e₃).stmts env e₃.fn.body = .ok body ∧ f.body = before ++ body ++ after) := by
  obtain ⟨functions, hframed, hwith⟩ := Taskfunc.program_run c.frame_eq
  obtain ⟨-, e₅, he₅, -, rfl⟩ := Arrangement.mem_written hf
  obtain ⟨e₄, he₄, used, rfl⟩ := Arrangement.mem_markUsed he₅
  rw [hframed] at he₄
  obtain ⟨e₃, he₃, hframe⟩ := exists_mem_of_forall₂ hwith he₄
  refine ⟨e₃, he₃, (Taskfunc.withFrame_name hframe).symm, ?_⟩
  rcases Taskfunc.withFrame_eq_ok hframe with ⟨-, rfl⟩ | ⟨htask, -, body, hbody, rfl⟩
  · exact .inl rfl
  · exact .inr ⟨htask, body, _, _, hbody, rfl⟩

/-- **What has become of the body of a function is in a block** of the arranged script, or it only
gives its value. -/
def Arrives (c : Compilation env o source) (e : FunctionEntry) (t : Top) : Prop :=
  ∃ T, c.Way e t T ∧ ∃ ys, T e.fn.body ys ∧
    ((∃ b ∈ c.arranged.1.blocks, b.top = t ∧ Within ys b.body) ∨ GivesValue c.typed.2 ys)

/-- What is in the body of a function comes into its block. -/
theorem Way.arrives {name : String} (h : c.Way e (.function name) T) {ys : List Stmt}
    (hys : T e.fn.body ys) {b : Block} (hb : b ∈ c.arranged.1.blocks)
    (htop : b.top = .function name) {e₃ : FunctionEntry} (he₃ : e₃ ∈ c.expanded.2.functions)
    (hname₃ : e₃.name = name) (hwithin : Within ys e₃.fn.body) : c.Arrives e (.function name) := by
  subst hname₃
  obtain ⟨f, hf, rfl, hname⟩ := exists_written hb htop
  obtain ⟨e', he', hname', hbody⟩ := exists_expanded hf
  obtain rfl : e' = e₃ := List.inj_on_of_nodup_map c.nodup_expanded he' he₃ (hname'.trans hname)
  rcases hbody with hbody | ⟨htask, body, before, after, hslots, hbody⟩
  · rw [← hbody] at hwithin
    exact ⟨T, h, ys, hys, .inl ⟨_, hb, htop, hwithin⟩⟩
  · -- The body of a task function stands between the statements that move the pointers.
    obtain ⟨params, ys', hys', hwithin'⟩ := hwithin.mapLeaves hslots
    have hblock := hwithin'.around before after
    rw [← hbody] at hblock
    exact ⟨_, .framed he₃ htask h, ys', ⟨ys, hys, params, hys'⟩, .inl ⟨_, hb, htop, hblock⟩⟩

/-- **A function that is a block** has its body there. -/
theorem arrives_own (he : e ∈ c.lowered.2.functions) {b : Block} (hb : b ∈ c.arranged.1.blocks)
    (htop : b.top = .function e.name) : c.Arrives e (.function e.name) := by
  obtain ⟨e₂, he₂, hentry⟩ := exists_typed he
  obtain ⟨body, globals, locals, hbody, -, -, rfl⟩ := Sigils.entry_eq_ok hentry
  obtain ⟨e₃, he₃, hexpanded⟩ := exists_mem_of_forall₂ c.expanded_functions.flip he₂
  have hname : e₃.name = e.name := hexpanded.name
  cases hstand : isStandalone e.fn with
  | true =>
    exact (Way.expanded hstand).arrives ⟨body, hbody, hexpanded.body hstand⟩ hb htop he₃ hname
      (.refl _)
  | false =>
    exact (Way.unexpanded hstand).arrives hbody hb htop he₃ hname (hexpanded.kept hstand ▸ .refl body)

/-- A copy has gone the way of copies. -/
theorem way_of_copy (he : e ∈ c.lowered.2.functions) {ys : List Stmt}
    (h : IsCopy env c.typed.2 t e.name ys) : ∃ T, c.Way e t T ∧ T e.fn.body ys := by
  obtain ⟨e₂, he₂, hentry⟩ := exists_typed he
  obtain ⟨body, globals, locals, hbody, -, -, rfl⟩ := Sigils.entry_eq_ok hentry
  obtain ⟨e', site, σ, stack, hname, hcopy⟩ := h
  have hfound := Program.function?_of_mem c.nodup_typed he₂
  have hcopied := hcopy.found
  rw [hname] at hcopied
  obtain rfl := Option.some.inj (hcopied.symm.trans hfound)
  obtain ⟨body', hσ, hexpands⟩ := hcopy.expands
  exact ⟨_, .copied t stack site hcopy.names, body, hbody, _, rfl, body', hσ, hexpands⟩

/-- **A function that is called with `call`** by a block is a block. -/
theorem exists_block {b : Block} (hb : b ∈ c.arranged.1.blocks) {name : String}
    (hcall : (b.top.caller, name) ∈ c.framed.calls.calls)
    (hmark : c.framed.calls.isExplicit name = true) :
    ∃ b' ∈ c.arranged.1.blocks, b'.top = .function name := by
  obtain ⟨hcomplete, hmarked⟩ := calls_of_framed c.lower_eq c.type_eq c.expand_eq c.frame_eq
  have hacyclic := CallGraph.acyclic_of_findCycle hcomplete (Arrangement.findCycle_eq_none c.arrange_eq)
  -- Calls lead from a callback to every block, and so to what it calls.
  have hled : c.framed.calls.LeadsTo none name := by
    cases htop : b.top with
    | callback init =>
      rw [htop] at hcall
      exact .call hcall
    | function caller =>
      rw [htop] at hcall
      obtain ⟨f, hf, -, rfl⟩ := exists_written hb htop
      obtain ⟨-, e₅, he₅, hused, rfl⟩ := Arrangement.mem_written hf
      have hcalled := (Arrangement.used_iff (fun e he => called_of_framed c.lower_eq c.type_eq
        c.expand_eq c.frame_eq he) he₅).mp hused
      exact hcalled.step hcall
  obtain ⟨e₄, he₄, hname⟩ := List.mem_map.mp (Program.isUserFunction_iff.mp (hmarked _ hmark))
  obtain ⟨e₅, he₅, hname₅, hused⟩ := Arrangement.exists_used he₄ (hname ▸ hled)
  obtain ⟨f, hf, hfname⟩ :=
    Arrangement.exists_written hcomplete hacyclic hcall hmark he₅ (hname₅.trans hname) hused
  obtain ⟨init, rest, -, hblocks, -⟩ := Arrangement.script_run c.arrange_eq
  refine ⟨.function f, ?_, congrArg Top.function hfname⟩
  rw [hblocks]
  exact List.mem_cons_of_mem _ (List.mem_append_left _ (List.mem_map_of_mem hf))

/-- **A function that is called by a block** has its body there, or is a block. -/
theorem arrives (he : e ∈ c.lowered.2.functions) {b : Block} (hb : b ∈ c.arranged.1.blocks)
    (hcall : (b.top.caller, e.name) ∈ c.framed.calls.calls) :
    ∃ t, (t.caller = b.top.caller ∨ t = .function e.name) ∧ c.Arrives e t := by
  obtain ⟨functions, hframed, -⟩ := Taskfunc.program_run c.frame_eq
  have hcalls : c.framed.calls = c.expanded.2.calls := by rw [hframed]
  rw [hcalls] at hcall
  have hseen := (Inlining.script_run c.nodup_typed c.expand_eq).2
    (Inlining.callWatch env c.typed.2 b.top.caller e.name) hcall
  rcases hseen with hnow | ⟨cb, hcb, hcaller, ys, hcopy, hys⟩ | ⟨e₃, he₃, hcaller, ys, hcopy, hys⟩ |
    hmark
  · change _ ∈ c.typed.2.calls.calls at hnow
    rw [calls_typed] at hnow
    cases hnow
  · obtain ⟨T, hway, hbecomes⟩ := way_of_copy he hcopy
    refine ⟨_, .inl hcaller, T, hway, ys, hbecomes, hys.imp_left fun hwithin => ?_⟩
    obtain ⟨b', hb', htop, hbody⟩ := exists_arranged hcb
    exact ⟨b', hb', htop, hwithin.trans hbody⟩
  · obtain ⟨T, hway, hbecomes⟩ := way_of_copy he hcopy
    refine ⟨_, .inl hcaller, ?_⟩
    rcases hys with hwithin | hvalue
    · have htop : b.top = .function e₃.name := by
        cases htop : b.top with
        | callback init =>
          rw [htop] at hcaller
          cases hcaller
        | function name =>
          rw [htop] at hcaller
          exact congrArg Top.function (Option.some.inj hcaller).symm
      exact hway.arrives hbecomes hb htop he₃ rfl hwithin
    · exact ⟨T, hway, ys, hbecomes, .inr hvalue⟩
  · rw [← hcalls] at hcall
    obtain ⟨b', hb', htop⟩ := exists_block hb hcall (hcalls ▸ hmark)
    exact ⟨_, .inr rfl, arrives_own he hb' htop⟩

/-! ### Declarations -/

/-- **A declaration has its sigils**, and is expanded if a copy has taken it along. -/
def Settled (c : Compilation env o source) (e : FunctionEntry) (d d₂ : Declaration) : Prop :=
  ∃ d₁, (Sigils.leafMap env c.lowered.2).declaration ⟨e.fn.paramNames, []⟩ d = .ok d₁ ∧
    (d₂ = d₁ ∨ ∃ n stack p p', c.typed.2.Grows p ∧
      (Inlining.declaration env (Inlining.below env n) ⟨.callback true, stack, []⟩ d₁).run p =
        .ok (d₂, p'))

/-- A declaration in a list whose leaves have changed. -/
theorem exists_declared {ε : Type} {r : LeafMap ε} {params : List String} {ss ss' : List Stmt}
    (h : mapLeavesStmts r params ss = .ok ss') {d : Declaration} {span : Span} {trace : List Span}
    (hd : ⟨.declare d, span, trace⟩ ∈ ss) :
    ∃ d', r.declaration ⟨params, trace⟩ d = .ok d' ∧ ⟨.declare d', span, trace⟩ ∈ ss' := by
  obtain ⟨s', hs', hmap⟩ := exists_mem_of_forall₂ (forall₂_mapLeavesStmts h).flip hd
  simp only [Stmt.mapLeaves] at hmap
  obtain ⟨d', hd', hmap⟩ := Except.bind_eq_ok.mp hmap
  cases hmap
  exact ⟨d', hd', hs'⟩

/-- A declaration of a function, among those that it has with its sigils. -/
theorem exists_declared_append {ε : Type} {r : LeafMap ε} {params : List String}
    {globals locals globals' locals' : List Stmt}
    (hglobals : mapLeavesStmts r params globals = .ok globals')
    (hlocals : mapLeavesStmts r params locals = .ok locals') {d : Declaration} {span : Span}
    {trace : List Span} (hd : ⟨.declare d, span, trace⟩ ∈ globals ++ locals) :
    ∃ d', r.declaration ⟨params, trace⟩ d = .ok d' ∧
      ⟨.declare d', span, trace⟩ ∈ globals' ++ locals' := by
  rcases List.mem_append.mp hd with hd | hd
  · obtain ⟨d', hd', hmem⟩ := exists_declared hglobals hd
    exact ⟨d', hd', List.mem_append_left _ hmem⟩
  · obtain ⟨d', hd', hmem⟩ := exists_declared hlocals hd
    exact ⟨d', hd', List.mem_append_right _ hmem⟩

/-- The init callback comes first, with the declarations of the functions that are used. -/
theorem exists_arranged_init (c : Compilation env o source) :
    ∃ init : Callback, init.isInit = true ∧ .callback { init with
      body := Arrangement.hoist (Arrangement.markUsed c.framed) init.body } ∈ c.arranged.1.blocks := by
  obtain ⟨init, rest, hblocks, hblocks', -⟩ := Arrangement.script_run c.arrange_eq
  have hhead : c.expanded.1.heads.head? = some (.callback "init") := by
    rw [(Inlining.script_heads c.expand_eq).1, Sigils.script_heads c.type_eq]
    exact Lowering.script_init c.lower_eq
  refine ⟨init, isInit_of_head hhead (.callback init) (by simp [hblocks]), ?_⟩
  rw [hblocks']
  exact List.mem_cons_self

/-- Frames leave the declarations where they are. -/
theorem exists_framed {e₃ : FunctionEntry} (he₃ : e₃ ∈ c.expanded.2.functions) :
    ∃ e₄ ∈ c.framed.functions, e₄.name = e₃.name ∧ e₄.globals = e₃.globals ∧
      e₄.locals = e₃.locals := by
  obtain ⟨functions, hframed, hwith⟩ := Taskfunc.program_run c.frame_eq
  obtain ⟨e₄, he₄, hframe⟩ := exists_mem_of_forall₂ hwith.flip he₃
  refine ⟨e₄, by rw [hframed]; exact he₄, Taskfunc.withFrame_name hframe, ?_⟩
  rcases Taskfunc.withFrame_eq_ok hframe with ⟨-, rfl⟩ | ⟨-, -, body, -, rfl⟩ <;> exact ⟨rfl, rfl⟩

/-- **The declarations of a function that a callback reaches are in an init callback.** -/
theorem declares (he : e ∈ c.lowered.2.functions) (hled : c.framed.calls.LeadsTo none e.name)
    {d : Declaration} {span : Span} (hd : ⟨.declare d, span, []⟩ ∈ e.globals ++ e.locals) :
    ∃ d₂, c.Settled e d d₂ ∧ ∃ b ∈ c.arranged.1.blocks, b.top = .callback true ∧
      Within [⟨.declare d₂, span, []⟩] b.body := by
  have huncopied := (uncopied_of_lowering (Script.bodyMeets_of_parse uncopied_readable c.parse_eq
    o.combineCallbacks) c.lower_eq).functions e he
  obtain ⟨e₂, he₂, hentry⟩ := exists_typed he
  obtain ⟨body, globals, locals, -, hglobals, hlocals, rfl⟩ := Sigils.entry_eq_ok hentry
  have hplain : PlainDecls (globals ++ locals) :=
    (huncopied.globals.mapLeaves hglobals).append (huncopied.locals.mapLeaves hlocals)
  obtain ⟨d₁, hd₁, hmem⟩ := exists_declared_append hglobals hlocals hd
  have hne := List.ne_nil_of_mem hmem
  have hdecls : c.typed.2.decls? e.name = some (globals ++ locals) :=
    congrArg (Option.map _) (Program.function?_of_mem c.nodup_typed he₂)
  obtain ⟨e₃, he₃, hexpanded⟩ := exists_mem_of_forall₂ c.expanded_functions.flip he₂
  have hname : e₃.name = e.name := hexpanded.name
  rcases hexpanded.decls with ⟨hsame, hsame'⟩ | ⟨hnone, hnone'⟩
  · -- The declarations are still there, so they are hoisted.
    obtain ⟨e₄, he₄, hname₄, hglobals₄, hlocals₄⟩ := exists_framed he₃
    obtain ⟨init, hinit, hb⟩ := c.exists_arranged_init
    refine ⟨d₁, ⟨d₁, hd₁, .inl rfl⟩, _, hb, congrArg Top.callback hinit, ?_⟩
    refine Arrangement.within_hoist_of_mem (List.mem_map_of_mem he₄) ?_ ?_ _
    · rw [← hname, ← hname₄] at hled
      simp [CallGraph.mem_reachableFromRoot.mpr hled]
    · dsimp only
      rw [hglobals₄, hlocals₄, hsame, hsame']
      exact hmem
  · -- A copy has taken them along.
    have hnow : c.expanded.2.decls? e.name = some [] := by
      have hfound := Program.function?_of_mem c.nodup_expanded he₃
      rw [hname] at hfound
      rw [Program.decls?, hfound, Option.map_some, hnone, hnone']
      rfl
    rcases (Inlining.script_run c.nodup_typed c.expand_eq).2
      (Inlining.declWatch env c.typed.2 e.name _ hplain hne hdecls) hnow with
      hbefore | ⟨cb, hcb, hinit, stack, ys, hexpands, hwithin⟩ | ⟨e', -, hinit, -⟩ | hexcused
    · exact absurd (Option.some.inj (hdecls.symm.trans hbefore)) hne
    · have htop : cb.isInit = true := Top.callback.inj (of_decide_eq_true hinit)
      obtain ⟨d₂, n, p, p', hplace, hgrows, hrun⟩ := hexpands.declared hmem
      obtain ⟨b, hb, hbtop, hbody⟩ := exists_arranged hcb
      rw [htop] at hbtop hrun
      exact ⟨d₂, ⟨d₁, hd₁, .inr ⟨n, stack, p, p', hgrows, hrun⟩⟩, b, hb, hbtop,
        hplace.trans (hwithin.trans hbody)⟩
    · cases hinit
    · exact hexcused.elim

/-! ### The script that is written -/

/-- A block whose leaves have changed has the same statements, with other leaves. -/
theorem exists_mapLeaves {ε : Type} {r : LeafMap ε} {control : Ident → Except ε Ident}
    {b b' : Block} (h : b.MapLeaves r control b') :
    ∃ params, mapLeavesStmts r params b.body = .ok b'.body := by
  cases h with
  | callback _ hbody => exact ⟨[], hbody⟩
  | @function f f' hf =>
    obtain ⟨body, hbody, hf⟩ := Except.bind_eq_ok.mp hf
    cases hf
    exact ⟨f.paramNames, hbody⟩

/-- What stands in a block of the arranged script stands in it when it has its names. -/
theorem finished_blocks (c : Compilation env o source) :
    List.Forall₂ (fun b b' => ∀ ys, Within ys b.body → ∃ ys', c.Finished ys ys' ∧ Within ys' b'.body)
      c.arranged.1.blocks c.undotted.1.blocks := by
  have hresolved := (Sigils.script_run c.resolve_eq).1
  have hchecked := Script.mapLeaves_eq_ok (Controls.script_run c.check_eq).2
  rw [c.undotted_eq]
  refine List.forall₂_map_right_iff.mpr (forall₂_comp ?_ hresolved hchecked)
  intro b b₁ b₂ hb hb' ys hys
  obtain ⟨params, hmap⟩ := exists_mapLeaves hb
  obtain ⟨params', hmap'⟩ := exists_mapLeaves hb'
  obtain ⟨params₁, ys₁, hys₁, hwithin₁⟩ := hys.mapLeaves hmap
  obtain ⟨params₂, ys₂, hys₂, hwithin₂⟩ := hwithin₁.mapLeaves hmap'
  refine ⟨_, ⟨params₁, params₂, ys₁, hys₁, ys₂, hys₂, rfl⟩, ?_⟩
  cases b₂ <;> exact Undotting.undot.within hwithin₂

/-- What stands in statements is written with them, or dropped. -/
theorem within_outputOf (c : Compilation env o source) {ys ss : List Stmt} (h : Within ys ss) :
    Within (c.outputOf ys) (c.outputOf ss) ∨
      o.optimizeCode = true ∧ Folding.Drops (Folding.constantsOf c.undotted.1) ys ss := by
  unfold outputOf
  split
  · next hoptimize =>
    refine (Folding.within _ h).imp (fun hfolded => ?_) fun hdrops => ⟨hoptimize, hdrops⟩
    cases c.shortNames with
    | none => exact hfolded
    | some names => exact (Compaction.shorten names).within hfolded
  · refine .inl ?_
    cases c.shortNames with
    | none => exact h
    | some names => exact (Compaction.shorten names).within h

/-- The bodies that are written. -/
theorem final_bodies (c : Compilation env o source) :
    c.final.blocks.map Block.body = c.undotted.1.blocks.map fun b => c.outputOf b.body := by
  have hfolded : c.folded.blocks.map Block.body = c.undotted.1.blocks.map fun b =>
      if o.optimizeCode then Folding.stmts (Folding.constantsOf c.undotted.1) b.body
      else b.body := by
    rw [c.fold_eq]
    split
    · exact Folding.script_bodies _
    · rfl
  have hshortens := c.shortens
  unfold outputOf
  generalize c.shortNames = names at hshortens ⊢
  generalize c.final = final at hshortens ⊢
  cases hshortens with
  | keep _ => exact hfolded
  | @shorten _ names _ _ hrun =>
    obtain ⟨-, rfl, -⟩ := Compaction.scriptWith_run hrun
    have hshort := congrArg (List.map (Compaction.shorten names).stmts) hfolded
    rw [List.map_map, List.map_map] at hshort
    refine Eq.trans ?_ hshort
    rw [Renaming.script, List.map_map]
    refine List.map_congr_left fun b _ => ?_
    cases b <;> rfl

/-- **What stands in a block of the arranged script is written**, or dropped. -/
theorem exists_writtenIn {b : Block} (hb : b ∈ c.arranged.1.blocks) {ys : List Stmt}
    (h : Within ys b.body) :
    ∃ ys', c.Finished ys ys' ∧ (c.WrittenIn b.top ys' ∨ c.DroppedFrom b.top ys') := by
  obtain ⟨hlength, hblocks⟩ := List.forall₂_iff_zip.mp c.finished_blocks
  have hlength' : c.final.blocks.length = c.undotted.1.blocks.length := by
    simpa using congrArg List.length c.final_bodies
  obtain ⟨i, hi, rfl⟩ := List.getElem_of_mem hb
  have hmem : (c.arranged.1.blocks[i], c.undotted.1.blocks[i]) ∈
      c.arranged.1.blocks.zip c.undotted.1.blocks :=
    List.mem_iff_getElem.mpr ⟨i, by simpa [hlength] using hi, by simp⟩
  have hfinal : (c.arranged.1.blocks[i], c.final.blocks[i]) ∈
      c.arranged.1.blocks.zip c.final.blocks :=
    List.mem_iff_getElem.mpr ⟨i, by simpa [hlength', hlength] using hi, by simp⟩
  have hbody : c.final.blocks[i].body = c.outputOf c.undotted.1.blocks[i].body := by
    have hget := List.getElem_of_eq c.final_bodies (i := i) (by simpa [hlength', hlength] using hi)
    simpa using hget
  obtain ⟨ys', hys', hwithin⟩ := hblocks hmem ys h
  refine ⟨ys', hys', ?_⟩
  rcases c.within_outputOf hwithin with hwritten | ⟨hoptimize, hdrops⟩
  · exact .inl ⟨_, _, hfinal, rfl, hbody ▸ hwritten⟩
  · exact .inr ⟨hoptimize, _, _, hmem, rfl, hdrops⟩

/-- A declaration stays one. -/
theorem Finished.declaration {d : Declaration} {span : Span} {trace : List Span} {ys : List Stmt}
    (h : c.Finished [⟨.declare d, span, trace⟩] ys) : ∃ d', ys = [⟨.declare d', span, trace⟩] := by
  obtain ⟨params, params', ys₁, hys₁, ys₂, hys₂, rfl⟩ := h
  obtain ⟨s₁, rfl, hs₁⟩ := mapLeavesStmts_single hys₁
  obtain ⟨s₂, rfl, hs₂⟩ := mapLeavesStmts_single hys₂
  obtain ⟨d₁, -, hs₁⟩ := Except.bind_eq_ok.mp hs₁
  cases hs₁
  obtain ⟨d₂, -, hs₂⟩ := Except.bind_eq_ok.mp hs₂
  cases hs₂
  exact ⟨_, rfl⟩

/-! ### Whole scripts -/

/-- **What becomes of the body of a function** that the source has, when something is done with it
once it is lowered. -/
def Becomes (c : Compilation env o source) (f : FunctionDef) (e : FunctionEntry)
    (T : List Stmt → List Stmt → Prop) (ys : List Stmt) : Prop :=
  Lowering.stmtsBecome env
    (Lowering.declThen (Lowering.Resettled env c.lowered.2.writtenNames e) T)
    (Lowering.stmtThen Lowering.SameKind T) [] f.body ys

/-- **The values that the variables of a function start with are written.** The function `f` of the
source has become the function `e` of the table. -/
structure KeepsInitializers (c : Compilation env o source) (f : FunctionDef) (e : FunctionEntry) :
    Prop where
  origin : e.fn = { f with name := e.fn.name, body := e.fn.body }
  /-- In the place of each declaration stands what `FlatScript.Lowering.Kept` says. -/
  lowered : Lowering.stmtsBecome env (Lowering.Resettled env c.lowered.2.writtenNames e)
    Lowering.SameKind [] f.body e.fn.body
  /-- Where a block calls the function or is the function, the body is written, and in the place of
  each declaration stands what has become of that; or the body is never run there and is dropped.
  The calls of a block are recorded however deep they stand in what is copied into it. -/
  assigned : ∀ b ∈ c.arranged.1.blocks,
    b.top = .function e.name ∨ (b.top.caller, e.name) ∈ c.framed.calls.calls →
    ∃ t T, (t.caller = b.top.caller ∨ t = .function e.name) ∧ c.Way e t T ∧
      ((∃ ys, c.Becomes f e (After T c.Finished) ys ∧ (c.WrittenIn t ys ∨ c.DroppedFrom t ys)) ∨
        ∃ ys, c.Becomes f e T ys ∧ GivesValue c.typed.2 ys)
  /-- If calls lead to the function from a callback, the declarations that it has for the init
  callback are written there, with their values, or stand where they are never run. -/
  declared : c.framed.calls.LeadsTo none e.name → ∀ d span,
    ⟨.declare d, span, []⟩ ∈ e.globals ++ e.locals → ∃ d₂ d', c.Settled e d d₂ ∧
      c.Finished [⟨.declare d₂, span, []⟩] [⟨.declare d', span, []⟩] ∧
      (c.WrittenIn (.callback true) [⟨.declare d', span, []⟩] ∨
        c.DroppedFrom (.callback true) [⟨.declare d', span, []⟩])

end Compilation

/-- **The values that the variables of a function start with are kept**, where lowering keeps them,
up to the script that is written, whatever the source is. A function that does not come from the
source declares nothing. -/
theorem initializers_kept (c : Compilation env o source) {e : FunctionEntry}
    (he : e ∈ c.lowered.2.functions) :
    (∃ f ∈ c.joined.blocks.flatMap Lowering.blockFunctions, c.KeepsInitializers f e) ∨
      e.globals = [] ∧ e.locals = [] ∧ e.frame = [] := by
  refine (Lowering.script_sourced c.lower_eq e he).imp_left ?_
  rintro ⟨f, hf, horigin, hlowered⟩
  refine ⟨f, hf, horigin, hlowered, fun b hb hcall => ?_, fun hled d span hd => ?_⟩
  · obtain ⟨t, ht, T, hway, ys, hys, hends⟩ :
        ∃ t, (t.caller = b.top.caller ∨ t = .function e.name) ∧ c.Arrives e t := by
      rcases hcall with htop | hcall
      · exact ⟨_, .inr rfl, Compilation.arrives_own he hb htop⟩
      · exact Compilation.arrives he hb hcall
    refine ⟨t, T, ht, hway, ?_⟩
    rcases hends with ⟨b', hb', rfl, hwithin⟩ | hvalue
    · obtain ⟨ys', hfinished, hwritten⟩ := Compilation.exists_writtenIn hb' hwithin
      have hT := hway.statementwise.after c.statementwise_finished
      exact .inl ⟨ys', Lowering.stmtsBecome_then hT [] f.body hlowered ⟨ys, hys, hfinished⟩,
        hwritten⟩
    · exact .inr ⟨ys, Lowering.stmtsBecome_then hway.statementwise [] f.body hlowered hys, hvalue⟩
  · obtain ⟨d₂, hsettled, b, hb, htop, hwithin⟩ := Compilation.declares he hled hd
    obtain ⟨ys', hfinished, hwritten⟩ := Compilation.exists_writtenIn hb hwithin
    obtain ⟨d', rfl⟩ := hfinished.declaration
    rw [htop] at hwritten
    exact ⟨d₂, d', hsettled, hfinished, hwritten⟩

/-- A function with a variable, a constant and a global variable, each with a value. -/
def startingText : String :=
  "on init\nend on\non note\nf\nend on\nfunction f\ndeclare x := 1\n" ++
    "declare const n := 5\ndeclare global y := 2\nx := n\nend function\n"

/-- What is written for it. -/
def startingCode : String :=
  "on init\ndeclare $y := 2\ndeclare $_x\ndeclare const $_n := 5\nend on\n" ++
    "on note\n$_x := 1\n$_x := $_n\nend on\n"

theorem startingText_kept : ∃ out, compile ⟨{}, .empty⟩ {} startingText = .ok out ∧
    out.code = startingCode ∧
    ∃ c : Compilation ⟨{}, .empty⟩ (Options.withPragmas {} startingText .empty) startingText,
      ∃ e ∈ c.lowered.2.functions, e.name = "f" ∧
        ∃ f ∈ c.joined.blocks.flatMap Lowering.blockFunctions, c.KeepsInitializers f e := by
  set_option maxRecDepth 4000 in
  have htext : startingText.toList = _ :=
    Text.toList_pieces String.toList_ofList String.toList_ofList
  have hcode : (compile ⟨{}, .empty⟩ {} startingText).toOption.map Compiled.code =
      some startingCode := by
    rw [compile_eq_ofChars _ _ htext (by decide +kernel)]
    decide +kernel
  have hlowered : ((Script.parse startingText .empty).toOption.bind fun s =>
      ((Lowering.script ⟨{}, .empty⟩ s).run {}).toOption).bind (fun l =>
        l.2.functions.head?.map fun e => (e.name, e.globals.isEmpty)) = some ("f", false) := by
    rw [Script.parse_eq_ofChars htext]
    decide +kernel
  have hcombine : (Options.withPragmas {} startingText .empty).combineCallbacks = false := by
    rw [Options.withPragmas_eq_self _ _ (htext ▸ by decide +kernel)]
  cases hrun : compile ⟨{}, .empty⟩ {} startingText with
  | error failure =>
    rw [hrun] at hcode
    cases hcode
  | ok out =>
    rw [hrun] at hcode
    obtain ⟨c, -⟩ := exists_compilation hrun
    have hlower := c.lower_eq
    rw [hcombine, if_neg Bool.false_ne_true] at hlower
    have hparse := c.parse_eq
    dsimp only at hparse
    rw [hparse, Except.toOption, Option.bind_some, hlower, Except.toOption, Option.bind_some]
      at hlowered
    obtain ⟨e, hhead, hname⟩ := Option.map_eq_some_iff.mp hlowered
    obtain ⟨hname, hglobals⟩ := Prod.mk.inj hname
    have he := List.mem_of_head? hhead
    refine ⟨out, rfl, Option.some.inj hcode, c, e, he, hname, ?_⟩
    rcases initializers_kept c he with hkept | ⟨hnone, -⟩
    · exact hkept
    · rw [hnone] at hglobals
      cases hglobals

end FlatScript
