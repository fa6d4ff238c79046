import FlatScript.Proofs.Characters
import FlatScript.Proofs.Inlining.Echo
import FlatScript.Proofs.Inlining.Whole
import FlatScript.Proofs.Lowering.Uncopied

/-!
# The calls that a statement was copied through

A statement of an expanded callback remembers calls that it was copied through. A copy of a body
remembers the call it was made for, but that call may itself stand in a copy, and what the calling
statement remembers is not handed on: of a chain of calls only the innermost one is kept.

`FlatScript.Inlining.tracedScript` is the expansion that does hand it on, so that a statement comes
out with all the calls it was copied through, innermost first. The two differ in nothing else:

* `FlatScript.callbacks_traced`: the expanded callbacks are those of the expansion with complete
  traces, where every trace is cut after its first call.
-/

namespace FlatScript

/-! ### Changing traces -/

mutual

/-- A statement with the traces in it changed. -/
def Stmt.retrace (f : List Span → List Span) : Stmt → Stmt
  | ⟨.property name functions, span, trace⟩ =>
    ⟨.property name (functionsRetrace f functions), span, f trace⟩
  | ⟨.whileLoop cond body, span, trace⟩ =>
    ⟨.whileLoop cond (stmtsRetrace f body), span, f trace⟩
  | ⟨.forLoop var start stop step downto body, span, trace⟩ =>
    ⟨.forLoop var start stop step downto (stmtsRetrace f body), span, f trace⟩
  | ⟨.family name body, span, trace⟩ => ⟨.family name (stmtsRetrace f body), span, f trace⟩
  | ⟨.ifChain branches otherwise, span, trace⟩ =>
    ⟨.ifChain (branchesRetrace f branches) (stmtsRetrace f otherwise), span, f trace⟩
  | ⟨.select subject cases, span, trace⟩ =>
    ⟨.select subject (casesRetrace f cases), span, f trace⟩
  | ⟨.synonym name indices target, span, trace⟩ =>
    ⟨.synonym name indices target, span, f trace⟩
  | ⟨.declare d, span, trace⟩ => ⟨.declare d, span, f trace⟩
  | ⟨.assign target value, span, trace⟩ => ⟨.assign target value, span, f trace⟩
  | ⟨.call c, span, trace⟩ => ⟨.call c, span, f trace⟩

/-- **Statements with their traces changed.** -/
def stmtsRetrace (f : List Span → List Span) : List Stmt → List Stmt
  | [] => []
  | s :: ss => s.retrace f :: stmtsRetrace f ss

/-- Branches with the traces in them changed. -/
def branchesRetrace (f : List Span → List Span) : List Branch → List Branch
  | [] => []
  | ⟨cond, body⟩ :: rest => ⟨cond, stmtsRetrace f body⟩ :: branchesRetrace f rest

/-- Cases with the traces in them changed. -/
def casesRetrace (f : List Span → List Span) : List Case → List Case
  | [] => []
  | ⟨start, stop, body⟩ :: rest => ⟨start, stop, stmtsRetrace f body⟩ :: casesRetrace f rest

/-- Functions with the traces in them changed. -/
def functionsRetrace (f : List Span → List Span) : List FunctionDef → List FunctionDef
  | [] => []
  | ⟨name, params, result, body, isTaskfunc, isOverride, span⟩ :: rest =>
    ⟨name, params, result, stmtsRetrace f body, isTaskfunc, isOverride, span⟩ ::
      functionsRetrace f rest

end

/-- A block with the traces in it changed. -/
def Block.retrace (f : List Span → List Span) : Block → Block
  | .callback c => .callback { c with body := stmtsRetrace f c.body }
  | .function g => .function { g with body := stmtsRetrace f g.body }

/-- A script with the traces in it changed. -/
def Script.retrace (f : List Span → List Span) (s : Script) : Script :=
  ⟨s.blocks.map (Block.retrace f)⟩

/-! ### Complete traces -/

namespace Inlining

/-- **Statements that are copied through further calls.** Declarations are not copied, they
move. -/
def deepen (sites : List Span) (body : List Stmt) : List Stmt :=
  body.map fun s => match s.kind with
    | .declare _ => s
    | _ => s.retrace (· ++ sites)

/-- Statements, expanded with complete traces, with copies nested at most `n` deep: what is
copied to a place was copied through all the calls that the statement there was. -/
def tracedAt (env : Env) : Nat → Expander
  | 0, at', body =>
    stmts env (fun _ _ => throw (.internal "functions nested too deeply")) at'
      (deepen at'.trace body)
  | n + 1, at', body => stmts env (tracedAt env n) at' (deepen at'.trace body)

/-- The bodies of a script, expanded with complete traces. -/
def tracedExpand (env : Env) : Expander := fun at' body => do
  tracedAt env (depthBound (← get)) at' body

/-- **A script, expanded with complete traces.** -/
def tracedScript (env : Env) (s : Script) : Compile Script := scriptBy (tracedExpand env) s

end Inlining

/-! ### Traces that are alike -/

section Retrace

variable {T : List Span → List Span → Prop} {f : List Span → List Span} {tr : List Span}

mutual

/-- Statements that remember the same calls are the same with other traces, when these are
related. -/
theorem Stmt.retraced_of_remembers (hT : T tr (f tr)) :
    ∀ (s : Stmt), s.trace = tr → s.Meets (remembers tr) → s.Retraced T (s.retrace f)
  | ⟨.property _ fs, _, _⟩, rfl, ⟨_, hfs⟩ =>
    .property hT (functionsRetraced_of_remembers hT fs hfs)
  | ⟨.synonym _ _ _, _, _⟩, rfl, _ => .synonym hT
  | ⟨.declare _, _, _⟩, rfl, _ => .declare hT
  | ⟨.assign _ _, _, _⟩, rfl, _ => .assign hT
  | ⟨.call _, _, _⟩, rfl, _ => .call hT
  | ⟨.whileLoop _ body, _, _⟩, rfl, ⟨_, _, hb⟩ =>
    .whileLoop hT (stmtsRetraced_of_remembers hT body hb)
  | ⟨.forLoop _ _ _ _ _ body, _, _⟩, rfl, ⟨_, _, _, _, _, hb⟩ =>
    .forLoop hT (stmtsRetraced_of_remembers hT body hb)
  | ⟨.family _ body, _, _⟩, rfl, ⟨_, hb⟩ => .family hT (stmtsRetraced_of_remembers hT body hb)
  | ⟨.ifChain bs otherwise, _, _⟩, rfl, ⟨_, hbs, ho⟩ =>
    .ifChain hT (branchesRetraced_of_remembers hT bs hbs)
      (stmtsRetraced_of_remembers hT otherwise ho)
  | ⟨.select _ cs, _, _⟩, rfl, ⟨_, _, hcs⟩ => .select hT (casesRetraced_of_remembers hT cs hcs)

theorem stmtsRetraced_of_remembers (hT : T tr (f tr)) :
    ∀ (ss : List Stmt), bodyMeets (remembers tr) ss → StmtsRetraced T ss (stmtsRetrace f ss)
  | [], _ => .nil
  | s :: ss, h => .cons (s.retraced_of_remembers hT (h.1 s (by simp)) h.2.1)
    (stmtsRetraced_of_remembers hT ss ⟨fun s hs => h.1 s (by simp [hs]), h.2.2⟩)

theorem branchesRetraced_of_remembers (hT : T tr (f tr)) :
    ∀ (bs : List Branch), branchesMeet (remembers tr) bs →
      BranchesRetraced T bs (branchesRetrace f bs)
  | [], _ => .nil
  | ⟨_, body⟩ :: rest, ⟨_, hl, hb, hrest⟩ =>
    .cons (stmtsRetraced_of_remembers hT body ⟨hl, hb⟩)
      (branchesRetraced_of_remembers hT rest hrest)

theorem casesRetraced_of_remembers (hT : T tr (f tr)) :
    ∀ (cs : List Case), casesMeet (remembers tr) cs → CasesRetraced T cs (casesRetrace f cs)
  | [], _ => .nil
  | ⟨_, _, body⟩ :: rest, ⟨_, _, hl, hb, hrest⟩ =>
    .cons (stmtsRetraced_of_remembers hT body ⟨hl, hb⟩) (casesRetraced_of_remembers hT rest hrest)

theorem functionsRetraced_of_remembers (hT : T tr (f tr)) :
    ∀ (fs : List FunctionDef), functionsMeet (remembers tr) fs →
      FunctionsRetraced T fs (functionsRetrace f fs)
  | [], _ => .nil
  | ⟨_, _, _, body, _, _, _⟩ :: rest, ⟨hl, hb, hrest⟩ =>
    .cons (stmtsRetraced_of_remembers hT body ⟨hl, hb⟩)
      (functionsRetraced_of_remembers hT rest hrest)

end

mutual

/-- Statements are those with other traces, when every trace comes from the other one. -/
theorem Stmt.Retraced.eq_retrace :
    ∀ {s s' : Stmt}, s.Retraced (fun a b => a = f b) s' → s = s'.retrace f
  | _, _, .property rfl hfs => by rw [Stmt.retrace, ← hfs.eq_retrace]
  | _, _, .synonym rfl | _, _, .declare rfl | _, _, .assign rfl | _, _, .call rfl => rfl
  | _, _, .whileLoop rfl hb => by rw [Stmt.retrace, ← hb.eq_retrace]
  | _, _, .forLoop rfl hb => by rw [Stmt.retrace, ← hb.eq_retrace]
  | _, _, .family rfl hb => by rw [Stmt.retrace, ← hb.eq_retrace]
  | _, _, .ifChain rfl hbs ho => by rw [Stmt.retrace, ← hbs.eq_retrace, ← ho.eq_retrace]
  | _, _, .select rfl hcs => by rw [Stmt.retrace, ← hcs.eq_retrace]

theorem StmtsRetraced.eq_retrace :
    ∀ {ss ss' : List Stmt}, StmtsRetraced (fun a b => a = f b) ss ss' → ss = stmtsRetrace f ss'
  | _, _, .nil => rfl
  | _, _, .cons hs hss => by rw [stmtsRetrace, ← hs.eq_retrace, ← hss.eq_retrace]

theorem BranchesRetraced.eq_retrace :
    ∀ {bs bs' : List Branch}, BranchesRetraced (fun a b => a = f b) bs bs' →
      bs = branchesRetrace f bs'
  | _, _, .nil => rfl
  | _, _, .cons hb hbs => by rw [branchesRetrace, ← hb.eq_retrace, ← hbs.eq_retrace]

theorem CasesRetraced.eq_retrace :
    ∀ {cs cs' : List Case}, CasesRetraced (fun a b => a = f b) cs cs' → cs = casesRetrace f cs'
  | _, _, .nil => rfl
  | _, _, .cons hb hcs => by rw [casesRetrace, ← hb.eq_retrace, ← hcs.eq_retrace]

theorem FunctionsRetraced.eq_retrace :
    ∀ {fs fs' : List FunctionDef}, FunctionsRetraced (fun a b => a = f b) fs fs' →
      fs = functionsRetrace f fs'
  | _, _, .nil => rfl
  | _, _, .cons hb hfs => by rw [functionsRetrace, ← hb.eq_retrace, ← hfs.eq_retrace]

end

mutual

/-- What is copied to one more call remembers it behind the others. -/
theorem Stmt.remembers_copiedTo (site : Span) :
    ∀ (s : Stmt), s.trace = tr → s.Meets (remembers tr) →
      (s.copiedTo site).trace = tr ++ [site] ∧ (s.copiedTo site).Meets (remembers (tr ++ [site]))
  | ⟨.property _ fs, _, _⟩, rfl, ⟨_, hfs⟩ =>
    ⟨rfl, trivial, functionsRemember_copiedTo site fs hfs⟩
  | ⟨.synonym _ _ target, _, _⟩, rfl, _ => ⟨rfl, trivial, (remembers_mute _).varRef target⟩
  | ⟨.declare d, _, _⟩, rfl, _ => ⟨rfl, trivial, (remembers_mute _).declaration d⟩
  | ⟨.assign target value, _, _⟩, rfl, _ =>
    ⟨rfl, .inr ⟨trivial, (remembers_mute _).varRef target, (remembers_mute _).expr value⟩⟩
  | ⟨.call c, _, _⟩, rfl, _ => ⟨rfl, trivial, (remembers_mute _).args c.args⟩
  | ⟨.whileLoop cond body, _, _⟩, rfl, ⟨_, _, hb⟩ =>
    ⟨rfl, trivial, (remembers_mute _).expr cond, stmtsRemember_copiedTo site body hb⟩
  | ⟨.forLoop var start stop _ _ body, _, _⟩, rfl, ⟨_, _, _, _, _, hb⟩ =>
    ⟨rfl, trivial, (remembers_mute _).varRef var, (remembers_mute _).expr start,
      (remembers_mute _).expr stop, fun e _ => (remembers_mute _).expr e,
      stmtsRemember_copiedTo site body hb⟩
  | ⟨.family _ body, _, _⟩, rfl, ⟨_, hb⟩ => ⟨rfl, trivial, stmtsRemember_copiedTo site body hb⟩
  | ⟨.ifChain bs otherwise, _, _⟩, rfl, ⟨_, hbs, ho⟩ =>
    ⟨rfl, trivial, branchesRemember_copiedTo site bs hbs, stmtsRemember_copiedTo site otherwise ho⟩
  | ⟨.select subject cs, _, _⟩, rfl, ⟨_, _, hcs⟩ =>
    ⟨rfl, trivial, (remembers_mute _).expr subject, casesRemember_copiedTo site cs hcs⟩

theorem stmtsRemember_copiedTo (site : Span) :
    ∀ (ss : List Stmt), bodyMeets (remembers tr) ss →
      bodyMeets (remembers (tr ++ [site])) (stmtsCopiedTo site ss)
  | [], _ => ⟨by simp [remembers, stmtsCopiedTo], trivial⟩
  | s :: ss, h => by
    have hs := s.remembers_copiedTo site (h.1 s (by simp)) h.2.1
    have hss := stmtsRemember_copiedTo site ss ⟨fun s hs => h.1 s (by simp [hs]), h.2.2⟩
    exact ⟨List.forall_mem_cons.mpr ⟨hs.1, hss.1⟩, hs.2, hss.2⟩

theorem branchesRemember_copiedTo (site : Span) :
    ∀ (bs : List Branch), branchesMeet (remembers tr) bs →
      branchesMeet (remembers (tr ++ [site])) (branchesCopiedTo site bs)
  | [], _ => trivial
  | ⟨cond, body⟩ :: rest, ⟨_, hl, hb, hrest⟩ => by
    have hbody := stmtsRemember_copiedTo site body ⟨hl, hb⟩
    exact ⟨(remembers_mute _).expr cond, hbody.1, hbody.2,
      branchesRemember_copiedTo site rest hrest⟩

theorem casesRemember_copiedTo (site : Span) :
    ∀ (cs : List Case), casesMeet (remembers tr) cs →
      casesMeet (remembers (tr ++ [site])) (casesCopiedTo site cs)
  | [], _ => trivial
  | ⟨start, stop, body⟩ :: rest, ⟨_, _, hl, hb, hrest⟩ => by
    have hbody := stmtsRemember_copiedTo site body ⟨hl, hb⟩
    exact ⟨(remembers_mute _).expr start, fun e _ => (remembers_mute _).expr e, hbody.1, hbody.2,
      casesRemember_copiedTo site rest hrest⟩

theorem functionsRemember_copiedTo (site : Span) :
    ∀ (fs : List FunctionDef), functionsMeet (remembers tr) fs →
      functionsMeet (remembers (tr ++ [site])) (functionsCopiedTo site fs)
  | [], _ => trivial
  | ⟨_, _, _, body, _, _, _⟩ :: rest, ⟨hl, hb, hrest⟩ => by
    have hbody := stmtsRemember_copiedTo site body ⟨hl, hb⟩
    exact ⟨hbody.1, hbody.2, functionsRemember_copiedTo site rest hrest⟩

end

end Retrace

/-! ### Expansion beside expansion with complete traces -/

namespace Inlining

/-- A trace is cut after the innermost call. -/
def CutTo (trace full : List Span) : Prop := trace = full.take 1

/-- Statements that remember no call, or one, are cut from what they become in a copy. -/
theorem retraced_deepen {tr sites : List Span} (hcut : CutTo tr (tr ++ sites)) {ss : List Stmt}
    (h : bodyMeets (remembers tr) ss) : StmtsRetraced CutTo ss (deepen sites ss) := by
  have hself : CutTo tr tr := by
    unfold CutTo at hcut ⊢
    rw [hcut, List.take_take, Nat.min_self]
  induction ss with
  | nil => exact .nil
  | cons s ss ih =>
    obtain ⟨hl, hs, hss⟩ := h
    have htrace : s.trace = tr := hl s (by simp)
    refine .cons ?_ (ih ⟨fun s hs => hl s (by simp [hs]), hss⟩)
    dsimp only
    split
    · next d hd =>
      -- A declaration keeps its trace.
      obtain ⟨kind, span, trace⟩ := s
      cases hd
      cases htrace
      exact .declare hself
    · exact s.retraced_of_remembers hcut htrace hs

theorem retraced_deepen_decls {ss : List Stmt} (h : PlainDecls ss) (sites : List Span) :
    StmtsRetraced CutTo ss (deepen sites ss) := by
  induction ss with
  | nil => exact .nil
  | cons s ss ih =>
    obtain ⟨⟨d, span, rfl⟩, hss⟩ := List.forall_mem_cons.mp h
    exact .cons (.declare rfl) (ih hss)

/-- **Complete traces beside those that are cut**, from a program in which nothing was copied. -/
def cutting (env : Env) : Mirror env where
  traces := CutTo
  around stack stack' := stack' = stack
  stop _ := False
  known := FunctionEntry.Uncopied
  ready body := ∀ sites, StmtsRetraced CutTo body (deepen sites body)
  push name h := by rw [h]
  fresh h hnot hmem := absurd (h ▸ hmem) hnot
  used h := ⟨h.body, h.globals, h.locals⟩
  drained h := ⟨h.body, by simp [PlainDecls], by simp [PlainDecls]⟩
  readyNil _ := .nil
  readyDecls h := retraced_deepen_decls (h.globals.append h.locals)
  readyBody {e s span body} h hbody := by
    have hcopied : bodyMeets (remembers [span]) (stmtsCopiedTo span e.fn.body) :=
      stmtsRemember_copiedTo span e.fn.body h.body
    intro sites
    have hcut : CutTo [span] ([span] ++ sites) := rfl
    exact retraced_deepen hcut
      (((Substitution.leafMap env s).carries_remembers [span]).body trivial hcopied hbody)

variable {env : Env} {p q : Program} {at₁ at₂ : Place}

theorem expandAt_echoes (n : Nat) {body : List Stmt} (hat : (cutting env).Facing at₁ at₂)
    (hbody : StmtsRetraced CutTo body (deepen at₂.trace body)) (hpq : (cutting env).Agrees p q) :
    (cutting env).Echoes p q (expandAt env n at₁ body) (tracedAt env n at₂ body)
      (StmtsRetraced CutTo) := by
  induction n generalizing at₁ at₂ body p q with
  | zero => exact Mirror.stmts_echoes (fun _ _ _ _ _ _ _ _ => .fail) hat hbody p q hpq
  | succ n ih =>
    refine Mirror.stmts_echoes ?_ hat hbody p q hpq
    intro at₁ at₂ body p q hat hready hpq
    exact ih hat (hready _) hpq

/-- A body that is not a copy, expanded with complete traces beside those that are cut. -/
theorem expand_echoes (t : Top) (names : List String) {body : List Stmt}
    (hbody : asWritten uncopied body) (hpq : (cutting env).Agrees p q) :
    (cutting env).Echoes p q (expand env ⟨t, names, []⟩ body)
      (tracedExpand env ⟨t, names, []⟩ body) (StmtsRetraced CutTo) := by
  refine .get_bind ?_
  have hdepth : depthBound q = depthBound p := by
    rw [depthBound, depthBound, hpq.functions.length_eq]
  rw [hdepth]
  -- Nothing was copied so far, so there is nothing to hand on either.
  have hcut : CutTo [] ([] ++ []) := rfl
  exact expandAt_echoes _ ⟨rfl, rfl, rfl⟩ (retraced_deepen hcut hbody) hpq

/-! ### Scripts -/

theorem blocks_echoes {bs : List Block} (hbs : ∀ b ∈ bs, asWritten uncopied b.body)
    (hpq : (cutting env).Agrees p q) :
    (cutting env).Echoes p q (bs.mapM (block (expand env))) (bs.mapM (block (tracedExpand env)))
      fun bs' full => bs' = full.map (Block.retrace (List.take 1)) := by
  induction bs generalizing p q with
  | nil => exact .ret hpq rfl
  | cons b bs ih =>
    have ⟨hb, hrest⟩ := List.forall_mem_cons.mp hbs
    cases b with
    | function f =>
      simp only [List.mapM_cons, block]
      exact .fail
    | callback c =>
      simp only [List.mapM_cons, block, bind_assoc, pure_bind]
      refine (expand_echoes _ [] hb hpq).bind fun body full p₁ q₁ hpq hbody => ?_
      refine (ih hrest hpq).bind fun bs' full' _ _ hpq hbs' => .ret hpq ?_
      rw [hbs', hbody.eq_retrace, List.map_cons, Block.retrace]

theorem standaloneBodies_echoes : ∀ (n i : Nat) {p q : Program}, (cutting env).Agrees p q →
    (cutting env).Echoes p q (standaloneBodies (expand env) i n)
      (standaloneBodies (tracedExpand env) i n) fun _ _ => True
  | 0, _, _, _, hpq => .ret hpq trivial
  | n + 1, i, p, q, hpq => by
    simp only [standaloneBodies]
    refine .get_bind ?_
    have hfound := optionRel_getElem? hpq.functions i
    cases hp : p.functions[i]? with
    | none =>
      rw [hp] at hfound
      cases hq : q.functions[i]? with
      | none => exact .fail
      | some e' => rw [hq] at hfound; cases hfound
    | some e =>
      rw [hp] at hfound
      cases hq : q.functions[i]? with
      | none => rw [hq] at hfound; cases hfound
      | some e' =>
        rw [hq] at hfound
        obtain ⟨he⟩ := hfound
        dsimp only
        rw [he.2.fn, he.2.name]
        split
        · refine (expand_echoes _ _ he.1.body hpq).bind fun body full p₁ q₁ hpq _ => ?_
          exact (standaloneBodies_echoes n (i + 1) hpq).bind fun _ _ _ _ hpq _ => .ret hpq trivial
        · exact standaloneBodies_echoes n (i + 1) hpq

/-- **Expanded callbacks** are those of the expansion with complete traces, with every trace cut
after the innermost call. -/
theorem script_traced {s s' : Script} {p p' : Program} (h : Uncopied s p)
    (hexpand : (script env s).run p = .ok (s', p')) :
    ∃ full q, (tracedScript env s).run p = .ok (full, q) ∧ s' = full.retrace (List.take 1) := by
  have hagree : (cutting env).Agrees p p :=
    ⟨rfl, List.forall₂_same.mpr fun e he => ⟨h.functions e he, rfl, rfl, rfl⟩⟩
  have hparts : (cutting env).Echoes p p (parts (expand env) s) (parts (tracedExpand env) s)
      fun r full => r.1 ++ r.2.2 = (full.1 ++ full.2.2).map (Block.retrace (List.take 1)) := by
    unfold parts
    refine (blocks_echoes (fun b hb => h.blocks b (List.mem_of_mem_take hb)) hagree).bind
      fun first first' p₁ q₁ hpq hfirst => .get_bind ?_
    rw [hpq.functions.length_eq]
    refine (standaloneBodies_echoes _ 0 hpq).bind fun _ _ p₂ q₂ hpq _ => ?_
    refine (blocks_echoes (fun b hb => h.blocks b (List.mem_of_mem_drop hb)) hpq).bind
      fun rest rest' _ _ hpq hrest => .ret hpq ?_
    rw [hfirst, hrest, List.map_append]
  unfold script at hexpand
  rw [scriptBy_eq_parts] at hexpand
  obtain ⟨r, p₁, hrun, hexpand⟩ := StateT.bind_eq_ok.mp hexpand
  rcases hparts r p₁ hrun with ⟨full, q₁, hfull, -, hr⟩ | ⟨_, _, hstop⟩
  · simp only [StateT.run_bind, StateT.run_modify, pure_bind, StateT.run_pure] at hexpand
    cases hexpand
    refine ⟨⟨full.1 ++ full.2.2⟩,
      { q₁ with functions := q₁.functions.map (withBody full.2.1) }, ?_, by rw [hr, Script.retrace]⟩
    unfold tracedScript
    rw [scriptBy_eq_parts, StateT.run_bind, hfull]
    rfl
  · exact hstop.elim

end Inlining

/-- **What the statements of expanded callbacks remember**: the trace of a statement is its list of
all the calls that it was copied through, innermost first, cut after the first one. So it is empty
for statements that were written in the callback, and the innermost call for all others, however
deep. -/
theorem callbacks_traced {env : Env} {source : String} {s₀ s₁ s₂ s₃ : Script} {p₁ p₂ p₃ : Program}
    (combine : Bool) (hparse : Script.parse source env.lines = .ok s₀)
    (hlower : (Lowering.script env (if combine then s₀.combineCallbacks else s₀)).run {} =
      .ok (s₁, p₁))
    (hsigils : (Sigils.script env s₁).run p₁ = .ok (s₂, p₂))
    (hexpand : (Inlining.script env s₂).run p₂ = .ok (s₃, p₃)) :
    ∃ full q, (Inlining.tracedScript env s₂).run p₂ = .ok (full, q) ∧
      s₃ = full.retrace (List.take 1) := by
  have hsource := Script.bodyMeets_of_parse uncopied_readable hparse combine
  exact Inlining.script_traced ((uncopied_of_lowering hsource hlower).sigils hsigils) hexpand

/-- A callback that calls a function, which calls another one. -/
def nestedCallsText : String :=
  "on note\nf(1)\nend on\nfunction f(a)\nmessage(a)\ng(a)\nend function\n" ++
    "function g(b)\nmessage(b)\nend function\n"

/-- The functions of the engine that are needed for it. -/
def nestedCallsEnv : Env := ⟨{ functions := [("message", ⟨["text"], none⟩)] }, .empty⟩

/-- What the statements of the callbacks remember. -/
def Script.traces (s : Script) : List (List Span) :=
  s.blocks.flatMap fun b => b.body.map Stmt.trace

/-- The statement that was copied through both calls remembers the inner one only. -/
theorem nestedCallsText_traced : ∃ s₀ s₁ s₂ s₃ p₁ p₂ p₃,
    Script.parse nestedCallsText nestedCallsEnv.lines = .ok s₀ ∧
      (Lowering.script nestedCallsEnv s₀).run {} = .ok (s₁, p₁) ∧
      (Sigils.script nestedCallsEnv s₁).run p₁ = .ok (s₂, p₂) ∧
      (Inlining.script nestedCallsEnv s₂).run p₂ = .ok (s₃, p₃) ∧
      s₃.traces = [[⟨2, 1, 4⟩], [⟨6, 1, 4⟩]] ∧
      ∃ full q, (Inlining.tracedScript nestedCallsEnv s₂).run p₂ = .ok (full, q) ∧
        full.traces = [[⟨2, 1, 4⟩], [⟨6, 1, 4⟩, ⟨2, 1, 4⟩]] ∧ s₃ = full.retrace (List.take 1) := by
  set_option maxRecDepth 4000 in
  have htext : nestedCallsText.toList = _ :=
    Text.toList_pieces String.toList_ofList String.toList_ofList
  have htraces : ((Script.parse nestedCallsText nestedCallsEnv.lines).toOption.bind fun s₀ =>
      ((Lowering.script nestedCallsEnv s₀).run {}).toOption.bind fun r₁ =>
        ((Sigils.script nestedCallsEnv r₁.1).run r₁.2).toOption.bind fun r₂ =>
          ((Inlining.script nestedCallsEnv r₂.1).run r₂.2).toOption.bind fun r₃ =>
            ((Inlining.tracedScript nestedCallsEnv r₂.1).run r₂.2).toOption.map fun r =>
              (r₃.1.traces, r.1.traces)) =
      some ([[⟨2, 1, 4⟩], [⟨6, 1, 4⟩]], [[⟨2, 1, 4⟩], [⟨6, 1, 4⟩, ⟨2, 1, 4⟩]]) := by
    rw [Script.parse_eq_ofChars htext]
    decide +kernel
  obtain ⟨s₀, hparse, htraces⟩ := Option.bind_eq_some_iff.mp htraces
  obtain ⟨⟨s₁, p₁⟩, hlower, htraces⟩ := Option.bind_eq_some_iff.mp htraces
  obtain ⟨⟨s₂, p₂⟩, hsigils, htraces⟩ := Option.bind_eq_some_iff.mp htraces
  obtain ⟨⟨s₃, p₃⟩, hexpand, htraces⟩ := Option.bind_eq_some_iff.mp htraces
  obtain ⟨⟨full, q⟩, hfull, htraces⟩ := Option.map_eq_some_iff.mp htraces
  have hparse := Except.toOption_eq_some.mp hparse
  have hlower := Except.toOption_eq_some.mp hlower
  have hsigils := Except.toOption_eq_some.mp hsigils
  have hexpand := Except.toOption_eq_some.mp hexpand
  have hfull := Except.toOption_eq_some.mp hfull
  obtain ⟨full', q', hfull', hcut⟩ := callbacks_traced false hparse hlower hsigils hexpand
  rw [hfull] at hfull'
  cases hfull'
  exact ⟨s₀, s₁, s₂, s₃, p₁, p₂, p₃, hparse, hlower, hsigils, hexpand, congrArg Prod.fst htraces,
    full, q, hfull, congrArg Prod.snd htraces, hcut⟩

end FlatScript
