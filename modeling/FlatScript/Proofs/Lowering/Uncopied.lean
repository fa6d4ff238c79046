import FlatScript.Proofs.Lowering.Abreast
import FlatScript.Proofs.Passes
import FlatScript.Proofs.Reading.Branches

/-!
# Lowered statements stand where they were written

Lowering takes statements apart and puts some at other places, but it copies nothing: a statement
that it makes remembers what the statement it is made from did. So in a script that comes from the
parser no statement remembers a call, neither in the callbacks nor in the functions of the table;
and what is kept of a function besides its body are declarations.
-/

namespace FlatScript

/-- **Declarations that stand where they were written.** -/
def PlainDecls (ss : List Stmt) : Prop := ∀ s ∈ ss, ∃ d span, s = ⟨.declare d, span, []⟩

theorem PlainDecls.append {ss ss' : List Stmt} (h : PlainDecls ss) (h' : PlainDecls ss') :
    PlainDecls (ss ++ ss') :=
  List.forall_mem_append.mpr ⟨h, h'⟩

theorem plainDecls_single (d : Declaration) (span : Span) :
    PlainDecls [⟨.declare d, span, []⟩] := by
  intro s hs
  exact ⟨d, span, List.mem_singleton.mp hs⟩

/-- **A function of the table was not copied from anywhere**, and has declarations only besides
its body. -/
structure FunctionEntry.Uncopied (e : FunctionEntry) : Prop where
  body : asWritten uncopied e.fn.body
  globals : PlainDecls e.globals
  locals : PlainDecls e.locals

/-- A single statement that stands where it was written. -/
theorem asWritten_single {r : Rule} {k : StmtKind} {span : Span}
    (h : (Stmt.written k span).Meets r) : asWritten r [⟨k, span, []⟩] :=
  ⟨by simp, h, trivial⟩

theorem uncopied_assign (target : VarRef) (value : Expr) (span : Span) :
    (Stmt.written (.assign target value) span).Meets uncopied :=
  .inr ⟨trivial, uncopied_readable.mute.varRef target, uncopied_readable.mute.expr value⟩

theorem uncopied_call (c : Call) (span : Span) : (Stmt.written (.call c) span).Meets uncopied :=
  ⟨trivial, uncopied_readable.mute.args c.args⟩

namespace Lowering

variable {env : Env}

/-- What is known of the state of lowering: nothing in it was copied. -/
structure Unstamped (s : State) : Prop where
  functions : ∀ e ∈ s.program.functions, e.Uncopied
  current : ∀ f ∈ s.current, PlainDecls f.globals ∧ PlainDecls f.locals

/-- **A step of lowering that copies nothing**, and what it gives. -/
def Leaves {α : Type} (x : Lower α) (Q : α → Prop) : Prop :=
  ∀ s a s', Unstamped s → x.run s = .ok (a, s') → Unstamped s' ∧ Q a

namespace Leaves

variable {α β : Type} {x : Lower α} {f : α → Lower β} {P : α → Prop} {Q : β → Prop}

theorem ret {b : β} (h : Q b) : Leaves (pure b : Lower β) Q := by
  intro s a s' hs hrun
  cases hrun
  exact ⟨hs, h⟩

theorem bind (hx : Leaves x P) (hf : ∀ a, P a → Leaves (f a) Q) : Leaves (x >>= f) Q := by
  intro s b s'' hs hrun
  obtain ⟨a, s', hrunx, hrunf⟩ := StateT.bind_eq_ok.mp hrun
  obtain ⟨hs', hP⟩ := hx s a s' hs hrunx
  exact hf a hP s' b s'' hs' hrunf

/-- A step that does not change the functions, in front of another one. -/
theorem behind (hx : ∀ s a s', x.run s = .ok (a, s') →
      s'.program.functions = s.program.functions ∧ s'.current = s.current)
    (hf : ∀ a, Leaves (f a) Q) : Leaves (x >>= f) Q := by
  refine bind (P := fun _ => True) ?_ fun a _ => hf a
  intro s a s' hs hrun
  obtain ⟨hfunctions, hcurrent⟩ := hx s a s' hrun
  exact ⟨⟨hfunctions ▸ hs.functions, hcurrent ▸ hs.current⟩, trivial⟩

theorem behind_refs {g : Refs → Lower β} (hg : ∀ r, Leaves (g r) Q) :
    Leaves (refs env >>= g) Q := by
  refine behind ?_ hg
  intro s r s' hrun
  rw [refs_run] at hrun
  cases hrun
  exact ⟨rfl, rfl⟩

theorem behind_symbols {m : Symbols → Symbols} {g : Unit → Lower β} (hg : Leaves (g ()) Q) :
    Leaves (modifySymbols m >>= g) Q := by
  refine behind ?_ fun _ => hg
  intro s r s' hrun
  cases hrun
  exact ⟨rfl, rfl⟩

theorem behind_lift {z : Except CompileError α} (hf : ∀ a, Leaves (f a) Q) :
    Leaves ((liftM z : Lower α) >>= f) Q := by
  refine behind ?_ hf
  intro s r s' hrun
  obtain ⟨-, rfl⟩ := StateT.lift_eq_ok.mp hrun
  exact ⟨rfl, rfl⟩

end Leaves

/-! ### Single statements -/

theorem assignment_leaves (target : VarRef) (value : Expr) (span : Span) :
    Leaves (assignment env target value span []) fun s => asWritten uncopied [s] :=
  .behind_refs fun _ => .ret (asWritten_single (uncopied_assign _ _ span))

theorem stepStmt_leaves (var : VarRef) (step : Option Expr) (downto : Bool) (span : Span) :
    Leaves (stepStmt env var step downto span []) fun s => asWritten uncopied [s] := by
  refine .behind_refs fun r => .ret ?_
  cases step with
  | none => exact asWritten_single (uncopied_call _ span)
  | some e => exact asWritten_single (uncopied_assign _ _ span)

/-- The value of a local variable is assigned where the declaration was written. -/
theorem asWritten_splitInit (target : VarRef) (d : Declaration) (span : Span) :
    asWritten uncopied ((splitInit target d).1.map (⟨·, span, []⟩)) := by
  unfold splitInit
  split
  · exact ⟨by simp, trivial⟩
  · split
    · exact asWritten_single (uncopied_assign _ _ span)
    · exact ⟨by simp, trivial⟩

theorem declaration_leaves (families : List String) (d : Declaration) (span : Span) :
    Leaves (declaration env families d span []) (asWritten uncopied) := by
  intro s ss s' hs hrun
  rw [declaration_run] at hrun
  obtain ⟨p, current⟩ := s
  cases current with
  | none =>
    cases hrun
    exact ⟨⟨hs.functions, by simp⟩,
      asWritten_single ⟨trivial, uncopied_readable.mute.declaration _⟩⟩
  | some f =>
    obtain ⟨hglobals, hlocals⟩ := hs.current f rfl
    dsimp only at hrun
    rw [declareIn_run] at hrun
    split at hrun
    · cases hrun
      refine ⟨⟨hs.functions, ?_⟩, by simp, trivial⟩
      rintro _ ⟨⟩
      exact ⟨hglobals.append (plainDecls_single _ _), hlocals⟩
    · split at hrun
      · cases hrun
      · dsimp only at hrun
        split at hrun
        · cases hrun
          refine ⟨⟨hs.functions, ?_⟩, asWritten_splitInit ..⟩
          rintro _ ⟨⟩
          exact ⟨hglobals, hlocals⟩
        · cases hrun
          refine ⟨⟨hs.functions, ?_⟩, asWritten_splitInit ..⟩
          rintro _ ⟨⟩
          exact ⟨hglobals, hlocals.append (plainDecls_single _ _)⟩

/-! ### Functions -/

theorem functionWith_leaves (f : FunctionDef) {body : Lower (List Stmt)}
    (hbody : Leaves body (asWritten uncopied)) :
    Leaves (functionWith env f body) fun _ => True := by
  intro s a s' hs h
  unfold functionWith at h
  dsimp only at h
  split at h
  · cases h
  simp only [StateT.run_bind, StateT.run_get, pure_bind] at h
  split at h
  · cases h
    exact ⟨hs, trivial⟩
  · cases h
  · simp only [StateT.run_bind, StateT.run_get, StateT.run_modify, pure_bind] at h
    obtain ⟨⟨ss, s₁⟩, hrun, h⟩ := Except.bind_eq_ok.mp h
    have hopen : Unstamped ⟨s.program, some (opened env f)⟩ := by
      refine ⟨hs.functions, ?_⟩
      rintro _ ⟨⟩
      exact ⟨by simp [opened, PlainDecls], by simp [opened, PlainDecls]⟩
    obtain ⟨hs₁, hss⟩ := hbody _ _ _ hopen hrun
    obtain ⟨program, current⟩ := s₁
    cases current with
    | none => cases h
    | some e =>
      cases h
      refine ⟨⟨?_, hs.current⟩, trivial⟩
      intro e' he'
      rcases Scheme.mem_functions_enter he' with rfl | he'
      · exact ⟨hss, (hs₁.current e rfl).1, (hs₁.current e rfl).2⟩
      · exact hs₁.functions e' he'

theorem synonym_leaves (property : String) (indices : List Ident) (target : VarRef)
    (span : Span) : Leaves (synonym env property indices target span) fun _ => True := by
  have hassign : ∀ t v, Leaves (do return [← assignment env t v span []]) (asWritten uncopied) :=
    fun t v => (assignment_leaves t v span).bind fun _ hs => .ret hs
  exact (functionWith_leaves _ (hassign _ _)).bind fun _ _ => functionWith_leaves _ (hassign _ _)

/-! ### Statements -/

mutual

theorem stmt_leaves (families : List String) :
    ∀ (s : Stmt), s.trace = [] → s.Meets uncopied →
      Leaves (stmt env families s) (asWritten uncopied)
  | ⟨.forLoop var start stop step downto body, span, _⟩, rfl, ⟨_, _, _, _, _, hb⟩ => by
    simp only [stmt]
    refine (assignment_leaves var start span).bind fun first hfirst => .behind_refs fun r => ?_
    refine (stmts_leaves families body hb).bind fun body' hbody => ?_
    refine (stepStmt_leaves var step downto span).bind fun last hlast => .ret ?_
    exact hfirst.append (asWritten_single
      ⟨trivial, uncopied_readable.mute.expr _, hbody.append hlast⟩)
  | ⟨.ifChain branches otherwise, span, _⟩, rfl, ⟨_, hbs, ho⟩ => by
    simp only [stmt]
    exact (chain_leaves families span (stmts_leaves families otherwise ho) branches hbs).bind
      fun s hs => .ret hs
  | ⟨.family name body, _, _⟩, _, ⟨_, hb⟩ => by
    simp only [stmt]
    exact .behind_symbols (stmts_leaves _ body hb)
  | ⟨.property name functions, span, _⟩, _, ⟨_, hfs⟩ => by
    simp only [stmt]
    refine .behind_lift fun _ => ?_
    exact (accessors_leaves _ functions hfs).bind fun _ _ =>
      .behind_symbols (.ret ⟨by simp, trivial⟩)
  | ⟨.synonym name indices target, span, _⟩, _, _ => by
    simp only [stmt]
    exact (synonym_leaves _ indices target span).bind fun _ _ =>
      .behind_symbols (.ret ⟨by simp, trivial⟩)
  | ⟨.declare d, span, _⟩, rfl, _ => by
    simp only [stmt]
    exact declaration_leaves families d span
  | ⟨.assign target value, span, _⟩, rfl, _ => by
    simp only [stmt]
    exact (assignment_leaves target value span).bind fun s hs => .ret hs
  | ⟨.call c, span, _⟩, rfl, _ => by
    simp only [stmt]
    exact .behind_refs fun r => .ret (asWritten_single (uncopied_call _ span))
  | ⟨.whileLoop cond body, span, _⟩, rfl, ⟨_, _, hb⟩ => by
    simp only [stmt]
    refine .behind_refs fun r => (stmts_leaves families body hb).bind fun body' hbody => .ret ?_
    exact asWritten_single ⟨trivial, uncopied_readable.mute.expr _, hbody⟩
  | ⟨.select subject cs, span, _⟩, rfl, ⟨_, _, hcs⟩ => by
    simp only [stmt]
    refine .behind_refs fun r => (cases_leaves families cs hcs).bind fun cs' hcs' => .ret ?_
    exact asWritten_single ⟨trivial, uncopied_readable.mute.expr _, hcs'⟩

/-- **Lowered statements stand where they were written.** -/
theorem stmts_leaves (families : List String) :
    ∀ (ss : List Stmt), asWritten uncopied ss →
      Leaves (stmts env families ss) (asWritten uncopied)
  | [], _ => by
    simp only [stmts]
    exact .ret ⟨by simp, trivial⟩
  | s :: ss, h => by
    simp only [stmts]
    refine (stmt_leaves families s (h.1 s (by simp)) h.2.1).bind fun first hfirst => ?_
    exact (stmts_leaves families ss ⟨fun s hs => h.1 s (by simp [hs]), h.2.2⟩).bind
      fun rest hrest => .ret (hfirst.append hrest)

theorem chain_leaves (families : List String) (span : Span) {otherwise : Lower (List Stmt)}
    (ho : Leaves otherwise (asWritten uncopied)) :
    ∀ (bs : List Branch), branchesMeet uncopied bs →
      Leaves (chain env families span [] otherwise bs) fun s => asWritten uncopied [s]
  | [], _ => by
    simp only [chain]
    exact ho.bind fun o ho => .ret (asWritten_single ⟨trivial, trivial, ho⟩)
  | [⟨cond, body⟩], ⟨_, hl, hb, _⟩ => by
    simp only [chain]
    refine .behind_refs fun r => (stmts_leaves families body ⟨hl, hb⟩).bind fun body' hbody => ?_
    refine ho.bind fun o ho => .ret (asWritten_single ⟨trivial, ?_, ho⟩)
    exact ⟨uncopied_readable.mute.expr _, hbody.1, hbody.2, trivial⟩
  | ⟨cond, body⟩ :: b :: rest, ⟨_, hl, hb, hrest⟩ => by
    simp only [chain]
    refine .behind_refs fun r => (stmts_leaves families body ⟨hl, hb⟩).bind fun body' hbody => ?_
    refine (chain_leaves families span ho (b :: rest) hrest).bind fun inner hinner => .ret ?_
    refine asWritten_single ⟨trivial, ?_, hinner⟩
    exact ⟨uncopied_readable.mute.expr _, hbody.1, hbody.2, trivial⟩

theorem cases_leaves (families : List String) :
    ∀ (cs : List Case), casesMeet uncopied cs →
      Leaves (cases env families cs) (casesMeet uncopied)
  | [], _ => by
    simp only [cases]
    exact .ret trivial
  | ⟨start, stop, body⟩ :: rest, ⟨_, _, hl, hb, hrest⟩ => by
    simp only [cases]
    refine .behind_refs fun r => (stmts_leaves families body ⟨hl, hb⟩).bind fun body' hbody => ?_
    refine (cases_leaves families rest hrest).bind fun rest' hrest' => .ret ?_
    exact ⟨uncopied_readable.mute.expr _, fun e _ => uncopied_readable.mute.expr e, hbody.1,
      hbody.2, hrest'⟩

theorem accessors_leaves (property : String) :
    ∀ (fs : List FunctionDef), functionsMeet uncopied fs →
      Leaves (accessors env property fs) fun _ => True
  | [], _ => by
    simp only [accessors]
    exact .ret trivial
  | ⟨name, params, result, body, isTaskfunc, isOverride, span⟩ :: rest, ⟨hl, hb, hrest⟩ => by
    simp only [accessors]
    exact (functionWith_leaves _ (stmts_leaves [] body ⟨hl, hb⟩)).bind fun _ _ =>
      accessors_leaves property rest hrest

end

/-! ### Scripts -/

theorem blocks_leaves : ∀ (bs : List Block), (∀ b ∈ bs, asWritten uncopied b.body) →
    Leaves (blocks env bs) fun bs' => ∀ b ∈ bs', asWritten uncopied b.body
  | [], _ => .ret (by simp)
  | .callback c :: rest, h => by
    simp only [blocks]
    obtain ⟨hc, hrest⟩ := List.forall_mem_cons.mp h
    refine .behind_refs fun r => (stmts_leaves [] c.body hc).bind fun body hbody => ?_
    exact (blocks_leaves rest hrest).bind fun rest' hrest' =>
      .ret (List.forall_mem_cons.mpr ⟨hbody, hrest'⟩)
  | .function f :: rest, h => by
    simp only [blocks]
    obtain ⟨hf, hrest⟩ := List.forall_mem_cons.mp h
    exact (functionWith_leaves f (stmts_leaves [] f.body hf)).bind fun _ _ =>
      blocks_leaves rest hrest

end Lowering

/-! ### Scripts -/

/-- **Nothing was copied** in a script and in the table of functions. -/
structure Uncopied (s : Script) (p : Program) : Prop where
  blocks : ∀ b ∈ s.blocks, asWritten uncopied b.body
  functions : ∀ e ∈ p.functions, e.Uncopied

variable {env : Env} {s s' : Script} {p p' : Program}

theorem uncopied_of_lowering (hs : ∀ b ∈ s.blocks, bodyMeets uncopied b.body)
    (h : (Lowering.script env s).run {} = .ok (s', p')) : Uncopied s' p' := by
  unfold Lowering.script at h
  simp only [StateT.run_bind, StateT.run_get, pure_bind] at h
  obtain ⟨⟨⟨bs, state⟩, p₁⟩, hrun, h⟩ := Except.bind_eq_ok.mp h
  cases h
  obtain ⟨hblocks, -⟩ := StateT.lift_eq_ok.mp hrun
  have hsource : ∀ b ∈ Lowering.initFirst s.blocks, asWritten uncopied b.body := by
    intro b hb
    rcases Lowering.Scheme.mem_initFirst hb with hb | rfl
    · exact hs b hb
    · exact ⟨by simp [Lowering.emptyInit, Block.body], trivial⟩
  obtain ⟨hstate, hbs⟩ := Lowering.blocks_leaves _ hsource _ _ _ ⟨by simp, by simp⟩ hblocks
  exact ⟨hbs, hstate.functions⟩

/-! ### Sigils -/

section Leaves

variable {ε : Type} {f : LeafMap ε} {params : List String}

/-- A statement whose leaves change remembers the same calls. -/
theorem Stmt.trace_mapLeaves {x x' : Stmt} (h : x.mapLeaves f params = .ok x') :
    x'.trace = x.trace := by
  obtain ⟨kind, span, trace⟩ := x
  cases kind with
  | property _ _ | synonym _ _ _ | declare _ | call _ | family _ _ =>
    simp only [Stmt.mapLeaves] at h
    obtain ⟨_, _, h⟩ := Except.bind_eq_ok.mp h
    cases h
    rfl
  | assign _ _ | whileLoop _ _ | ifChain _ _ | select _ _ =>
    simp only [Stmt.mapLeaves] at h
    obtain ⟨_, _, h⟩ := Except.bind_eq_ok.mp h
    obtain ⟨_, _, h⟩ := Except.bind_eq_ok.mp h
    cases h
    rfl
  | forLoop _ _ _ _ _ _ =>
    simp only [Stmt.mapLeaves] at h
    obtain ⟨_, _, h⟩ := Except.bind_eq_ok.mp h
    obtain ⟨_, _, h⟩ := Except.bind_eq_ok.mp h
    obtain ⟨_, _, h⟩ := Except.bind_eq_ok.mp h
    obtain ⟨_, _, h⟩ := Except.bind_eq_ok.mp h
    obtain ⟨_, _, h⟩ := Except.bind_eq_ok.mp h
    cases h
    rfl

theorem forall₂_mapLeavesStmts {ss ss' : List Stmt} (h : mapLeavesStmts f params ss = .ok ss') :
    List.Forall₂ (fun x x' => x.mapLeaves f params = .ok x') ss ss' := by
  induction ss generalizing ss' with
  | nil =>
    cases h
    exact .nil
  | cons x ss ih =>
    simp only [mapLeavesStmts] at h
    obtain ⟨x', hx, h⟩ := Except.bind_eq_ok.mp h
    obtain ⟨ss', hss, h⟩ := Except.bind_eq_ok.mp h
    cases h
    exact .cons hx (ih hss)

/-- Leaves may change while statements remember the same calls. -/
theorem LeafMap.carries_remembers (f : LeafMap ε) (trace : List Span) :
    f.Carries (remembers trace) (remembers trace) where
  expr _ _ _ := (remembers_mute trace).expr _
  target _ _ _ := (remembers_mute trace).varRef _
  call _ _ _ _ := ⟨trivial, (remembers_mute trace).args _⟩
  assign _ _ _ := trivial
  whole _ h _ _ := h.elim
  accessors _ _ _ := trivial
  reshape _ _ := trivial
  list h hmap x' hx' := by
    obtain ⟨x, hx, hleaf⟩ := exists_mem_of_forall₂ (forall₂_mapLeavesStmts hmap) hx'
    rw [Stmt.trace_mapLeaves hleaf]
    exact h x hx

theorem asWritten_mapLeaves {ss ss' : List Stmt} (hss : asWritten uncopied ss)
    (h : mapLeavesStmts f params ss = .ok ss') : asWritten uncopied ss' :=
  (f.carries_remembers []).body trivial hss h

theorem PlainDecls.mapLeaves {ss ss' : List Stmt} (hss : PlainDecls ss)
    (h : mapLeavesStmts f params ss = .ok ss') : PlainDecls ss' := by
  intro x' hx'
  obtain ⟨x, hx, hleaf⟩ := exists_mem_of_forall₂ (forall₂_mapLeavesStmts h) hx'
  obtain ⟨d, span, rfl⟩ := hss x hx
  simp only [Stmt.mapLeaves] at hleaf
  obtain ⟨d', -, hleaf⟩ := Except.bind_eq_ok.mp hleaf
  cases hleaf
  exact ⟨d', span, rfl⟩

end Leaves

/-- Finding sigils copies nothing. -/
theorem Uncopied.sigils (hs : Uncopied s p) (h : (Sigils.script env s).run p = .ok (s', p')) :
    Uncopied s' p' := by
  obtain ⟨hblocks, functions, rfl, hfunctions⟩ := Sigils.script_run h
  refine ⟨fun b hb => ?_, fun e he => ?_⟩
  · obtain ⟨b₀, hb₀, hmap⟩ := exists_mem_of_forall₂ hblocks hb
    cases hmap with
    | callback _ hbody => exact asWritten_mapLeaves (hs.blocks _ hb₀) hbody
    | function hf =>
      obtain ⟨body, hbody, hf⟩ := Except.bind_eq_ok.mp hf
      cases hf
      exact asWritten_mapLeaves (hs.blocks _ hb₀) hbody
  · obtain ⟨e₀, he₀, hentry⟩ := exists_mem_of_forall₂ hfunctions he
    obtain ⟨body, globals, locals, hbody, hglobals, hlocals, rfl⟩ := Sigils.entry_eq_ok hentry
    have hold := hs.functions e₀ he₀
    exact ⟨asWritten_mapLeaves hold.body hbody, hold.globals.mapLeaves hglobals,
      hold.locals.mapLeaves hlocals⟩

end FlatScript
