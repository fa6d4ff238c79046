import FlatScript.Proofs.Passes
import FlatScript.Proofs.Resolution

/-!
# What a second run leaves alone

Sigils are found twice in a compilation. The second run meets references of both runs: names
that the first one has found a sigil for, names that it has left without one, and those that
had a sigil before. Each of them was taken for something (`FlatScript.Sigils.Found`), and a
reference that is taken for something stays as it is.

* `FlatScript.LeafMap.Settles`: one change of leaves keeps what another one gives. Statements,
  functions and scripts are kept with their leaves.
* `FlatScript.Sigils.script_settled`: **a script that has its sigils keeps them, and so does the
  table of functions**.
-/

namespace FlatScript

variable {ε : Type} {f g : LeafMap ε}

/-- **What one change of leaves gives, another one keeps.** -/
structure LeafMap.Settles (f g : LeafMap ε) : Prop where
  expr : ∀ {scope e e'}, f.expr scope e = .ok e' → g.expr scope e' = .ok e'
  target : ∀ {scope v v'}, f.target scope v = .ok v' → g.target scope v' = .ok v'
  call : ∀ {scope c c'}, f.call scope c = .ok c' → g.call scope c' = .ok c'

/-- A step on a value that may be missing is kept where the value is. -/
theorem settles_option {α : Type} {step step' : α → Except ε α}
    (hstep : ∀ {a a'}, step a = .ok a' → step' a' = .ok a') {o o' : Option α}
    (h : o.mapM step = .ok o') : o'.mapM step' = .ok o' := by
  rw [Except.mapM_option_eq_ok] at h ⊢
  cases h with
  | none => exact .none
  | some ha => exact .some (hstep ha)

/-- A list of steps is kept where every one of them is. -/
theorem settles_list {α : Type} {step step' : α → Except ε α}
    (hstep : ∀ {a a'}, step a = .ok a' → step' a' = .ok a') {as as' : List α}
    (h : as.mapM step = .ok as') : as'.mapM step' = .ok as' := by
  rw [Except.mapM_eq_ok] at h ⊢
  induction h with
  | nil => exact .nil
  | cons ha _ ih => exact .cons (hstep ha) ih

namespace LeafMap.Settles

variable {scope : Scope}

theorem initializer (hf : f.Settles g) {i i' : Initializer}
    (h : f.initializer scope i = .ok i') : g.initializer scope i' = .ok i' := by
  cases i with
  | single e =>
    obtain ⟨e', he', h⟩ := Except.bind_eq_ok.mp h
    cases h
    rw [LeafMap.initializer, hf.expr he']
    rfl
  | list es =>
    obtain ⟨es', hes', h⟩ := Except.bind_eq_ok.mp h
    cases h
    rw [LeafMap.initializer, settles_list hf.expr hes']
    rfl

theorem declaration (hf : f.Settles g) {d d' : Declaration}
    (h : f.declaration scope d = .ok d') : g.declaration scope d' = .ok d' := by
  obtain ⟨size, hsize, h⟩ := Except.bind_eq_ok.mp h
  obtain ⟨params, hparams, h⟩ := Except.bind_eq_ok.mp h
  obtain ⟨init, hinit, h⟩ := Except.bind_eq_ok.mp h
  cases h
  rw [LeafMap.declaration, settles_option hf.expr hsize, settles_list hf.expr hparams,
    settles_option hf.initializer hinit]
  rfl

mutual

/-- A statement is kept with its leaves. -/
theorem stmt (hf : f.Settles g) {params : List String} :
    ∀ (s : Stmt) {s' : Stmt}, s.mapLeaves f params = .ok s' → s'.mapLeaves g params = .ok s'
  | ⟨.property name fs, span, trace⟩, _, h => by
    simp only [Stmt.mapLeaves] at h
    obtain ⟨fs', hfs', h⟩ := Except.bind_eq_ok.mp h
    cases h
    rw [Stmt.mapLeaves, functions hf fs hfs']
    rfl
  | ⟨.synonym name indices target, span, trace⟩, _, h => by
    simp only [Stmt.mapLeaves] at h
    obtain ⟨t', ht', h⟩ := Except.bind_eq_ok.mp h
    cases h
    rw [Stmt.mapLeaves, hf.target ht']
    rfl
  | ⟨.declare d, span, trace⟩, _, h => by
    simp only [Stmt.mapLeaves] at h
    obtain ⟨d', hd', h⟩ := Except.bind_eq_ok.mp h
    cases h
    rw [Stmt.mapLeaves, hf.declaration hd']
    rfl
  | ⟨.assign target value, span, trace⟩, _, h => by
    simp only [Stmt.mapLeaves] at h
    obtain ⟨t', ht', h⟩ := Except.bind_eq_ok.mp h
    obtain ⟨v', hv', h⟩ := Except.bind_eq_ok.mp h
    cases h
    rw [Stmt.mapLeaves, hf.target ht', hf.expr hv']
    rfl
  | ⟨.call c, span, trace⟩, _, h => by
    simp only [Stmt.mapLeaves] at h
    obtain ⟨c', hc', h⟩ := Except.bind_eq_ok.mp h
    cases h
    rw [Stmt.mapLeaves, hf.call hc']
    rfl
  | ⟨.whileLoop cond body, span, trace⟩, _, h => by
    simp only [Stmt.mapLeaves] at h
    obtain ⟨c', hc', h⟩ := Except.bind_eq_ok.mp h
    obtain ⟨b', hb', h⟩ := Except.bind_eq_ok.mp h
    cases h
    rw [Stmt.mapLeaves, hf.expr hc', stmts hf body hb']
    rfl
  | ⟨.forLoop var start stop step downto body, span, trace⟩, _, h => by
    simp only [Stmt.mapLeaves] at h
    obtain ⟨v', hv', h⟩ := Except.bind_eq_ok.mp h
    obtain ⟨start', hstart, h⟩ := Except.bind_eq_ok.mp h
    obtain ⟨stop', hstop, h⟩ := Except.bind_eq_ok.mp h
    obtain ⟨step', hstep, h⟩ := Except.bind_eq_ok.mp h
    obtain ⟨b', hb', h⟩ := Except.bind_eq_ok.mp h
    cases h
    simp only [Stmt.mapLeaves, hf.target hv', hf.expr hstart, hf.expr hstop,
      settles_option hf.expr hstep, stmts hf body hb']
    rfl
  | ⟨.family name body, span, trace⟩, _, h => by
    simp only [Stmt.mapLeaves] at h
    obtain ⟨b', hb', h⟩ := Except.bind_eq_ok.mp h
    cases h
    rw [Stmt.mapLeaves, stmts hf body hb']
    rfl
  | ⟨.ifChain bs otherwise, span, trace⟩, _, h => by
    simp only [Stmt.mapLeaves] at h
    obtain ⟨bs', hbs', h⟩ := Except.bind_eq_ok.mp h
    obtain ⟨o', ho', h⟩ := Except.bind_eq_ok.mp h
    cases h
    rw [Stmt.mapLeaves, branches hf bs hbs', stmts hf otherwise ho']
    rfl
  | ⟨.select subject cs, span, trace⟩, _, h => by
    simp only [Stmt.mapLeaves] at h
    obtain ⟨s', hs', h⟩ := Except.bind_eq_ok.mp h
    obtain ⟨cs', hcs', h⟩ := Except.bind_eq_ok.mp h
    cases h
    rw [Stmt.mapLeaves, hf.expr hs', cases hf cs hcs']
    rfl
termination_by structural s => s

/-- **Statements are kept with their leaves.** -/
theorem stmts (hf : f.Settles g) {params : List String} :
    ∀ (ss : List Stmt) {ss' : List Stmt}, mapLeavesStmts f params ss = .ok ss' →
      mapLeavesStmts g params ss' = .ok ss'
  | [], _, h => by
    cases h
    rfl
  | s :: ss, _, h => by
    simp only [mapLeavesStmts] at h
    obtain ⟨s', hs', h⟩ := Except.bind_eq_ok.mp h
    obtain ⟨ss', hss', h⟩ := Except.bind_eq_ok.mp h
    cases h
    rw [mapLeavesStmts, stmt hf s hs', stmts hf ss hss']
    rfl
termination_by structural ss => ss

theorem branches (hf : f.Settles g) {scope : Scope} :
    ∀ (bs : List Branch) {bs' : List Branch}, mapLeavesBranches f scope bs = .ok bs' →
      mapLeavesBranches g scope bs' = .ok bs'
  | [], _, h => by
    cases h
    rfl
  | ⟨cond, body⟩ :: rest, _, h => by
    simp only [mapLeavesBranches] at h
    obtain ⟨c', hc', h⟩ := Except.bind_eq_ok.mp h
    obtain ⟨b', hb', h⟩ := Except.bind_eq_ok.mp h
    obtain ⟨rest', hrest', h⟩ := Except.bind_eq_ok.mp h
    cases h
    simp only [mapLeavesBranches, hf.expr hc', stmts hf body hb', branches hf rest hrest']
    rfl
termination_by structural bs => bs

theorem cases (hf : f.Settles g) {scope : Scope} :
    ∀ (cs : List Case) {cs' : List Case}, mapLeavesCases f scope cs = .ok cs' →
      mapLeavesCases g scope cs' = .ok cs'
  | [], _, h => by
    cases h
    rfl
  | ⟨start, stop, body⟩ :: rest, _, h => by
    simp only [mapLeavesCases] at h
    obtain ⟨start', hstart, h⟩ := Except.bind_eq_ok.mp h
    obtain ⟨stop', hstop, h⟩ := Except.bind_eq_ok.mp h
    obtain ⟨b', hb', h⟩ := Except.bind_eq_ok.mp h
    obtain ⟨rest', hrest', h⟩ := Except.bind_eq_ok.mp h
    cases h
    simp only [mapLeavesCases, hf.expr hstart, settles_option hf.expr hstop, stmts hf body hb',
      cases hf rest hrest']
    rfl
termination_by structural cs => cs

theorem functions (hf : f.Settles g) :
    ∀ (fs : List FunctionDef) {fs' : List FunctionDef}, mapLeavesFunctions f fs = .ok fs' →
      mapLeavesFunctions g fs' = .ok fs'
  | [], _, h => by
    cases h
    rfl
  | ⟨name, params, result, body, isTaskfunc, isOverride, span⟩ :: rest, _, h => by
    simp only [mapLeavesFunctions] at h
    obtain ⟨b', hb', h⟩ := Except.bind_eq_ok.mp h
    obtain ⟨rest', hrest', h⟩ := Except.bind_eq_ok.mp h
    cases h
    simp only [mapLeavesFunctions, stmts hf body hb', functions hf rest hrest']
    rfl
termination_by structural fs => fs

end

/-- **A script is kept with its leaves**, and with the controls of its callbacks. -/
theorem script (hf : f.Settles g) {control control' : Ident → Except ε Ident}
    (hcontrol : ∀ {i i'}, control i = .ok i' → control' i' = .ok i') {s s' : Script}
    (h : s.mapLeaves f control = .ok s') : s'.mapLeaves g control' = .ok s' := by
  unfold Script.mapLeaves at h ⊢
  obtain ⟨blocks, hblocks, h⟩ := Except.bind_eq_ok.mp h
  cases h
  refine Except.bind_eq_ok.mpr ⟨blocks, settles_list (fun {b b'} hb => ?_) hblocks, rfl⟩
  cases b with
  | callback c =>
    obtain ⟨bound, hbound, hb⟩ := Except.bind_eq_ok.mp hb
    obtain ⟨body, hbody, hb⟩ := Except.bind_eq_ok.mp hb
    cases hb
    simp only [settles_option hcontrol hbound, hf.stmts c.body hbody]
    rfl
  | function fn =>
    obtain ⟨fn', hfn, hb⟩ := Except.bind_eq_ok.mp hb
    cases hb
    obtain ⟨body, hbody, hfn⟩ := Except.bind_eq_ok.mp hfn
    cases hfn
    simp only [FunctionDef.mapLeaves, FunctionDef.paramNames] at hbody ⊢
    simp only [hf.stmts fn.body hbody]
    rfl

end LeafMap.Settles

namespace Sigils

variable {env : Env} {p p' : Program} {params : List String} {scope : Scope}

/-- **A reference that is taken for something stays as it is.** -/
theorem Found.resolve_eq {b : Builtins} {i : Ident} (h : Found b p params i) (subscripted : Bool) :
    resolve b p params i subscripted = .ok i := by
  unfold resolve
  cases h with
  | noVariable hsigil h => simp only [hsigil, h, if_pos]
  | «variable» hsigil h =>
    obtain ⟨used, hused⟩ := Option.isSome_iff_exists.mp hsigil
    simp only [hused, h, Bool.true_or, if_pos]
  | parameter hsigil h =>
    obtain ⟨used, hused⟩ := Option.isSome_iff_exists.mp hsigil
    simp only [hused, h, Bool.or_true, if_pos]

/-- What a reference is taken for depends only on names. -/
theorem Found.of_sameNames {b : Builtins} {i : Ident} (h : Found b p params i)
    (hp : SameNames p p') : Found b p' params i := by
  have huser := Program.isUserFunction_congr hp.functions i.name
  cases h with
  | noVariable hsigil h =>
    refine .noVariable hsigil ?_
    rwa [isSigilFree, huser, hp.symbols]
  | «variable» hsigil h =>
    refine .variable hsigil ?_
    rwa [isDeclared, hp.symbols]
  | parameter hsigil h => exact .parameter hsigil h

theorem ident_settled (hp : SameNames p p') {i j : Ident} {subscripted : Bool}
    (h : ident env p scope i subscripted = .ok j) (subscripted' : Bool) :
    ident env p' scope j subscripted' = .ok j := by
  rw [ident, ((found_of_ident h).of_sameNames hp).resolve_eq]
  rfl

mutual

theorem expr_settled (hp : SameNames p p') : ∀ (e : Expr) {e' : Expr},
    expr env p scope e = .ok e' → expr env p' scope e' = .ok e'
  | .binary _ left right _, _, h => by
    simp only [expr] at h
    obtain ⟨left', hleft, h⟩ := Except.bind_eq_ok.mp h
    obtain ⟨right', hright, h⟩ := Except.bind_eq_ok.mp h
    cases h
    rw [expr, expr_settled hp left hleft, expr_settled hp right hright]
    rfl
  | .unary _ operand _, _, h => by
    simp only [expr] at h
    obtain ⟨operand', hoperand, h⟩ := Except.bind_eq_ok.mp h
    cases h
    rw [expr, expr_settled hp operand hoperand]
    rfl
  | .var _ subscripts _, _, h => by
    simp only [expr] at h
    obtain ⟨subscripts', hsubscripts, h⟩ := Except.bind_eq_ok.mp h
    obtain ⟨j, hj, h⟩ := Except.bind_eq_ok.mp h
    cases h
    rw [expr, exprs_settled hp subscripts hsubscripts]
    simp only [bind, Except.bind, ident_settled hp hj]
    rfl
  | .call _ args _ _ _, _, h => by
    simp only [expr] at h
    obtain ⟨args', hargs, h⟩ := Except.bind_eq_ok.mp h
    cases h
    rw [expr, arguments_settled hp args hargs]
    rfl
  | .int _ _, _, h | .real _ _, _, h | .str _ _, _, h | .bool _ _, _, h | .raw _ _, _, h => by
    cases h
    rfl
termination_by structural e => e

theorem exprs_settled (hp : SameNames p p') : ∀ (es : List Expr) {es' : List Expr},
    exprs env p scope es = .ok es' → exprs env p' scope es' = .ok es'
  | [], _, h => by
    cases h
    rfl
  | e :: es, _, h => by
    simp only [exprs] at h
    obtain ⟨e', he, h⟩ := Except.bind_eq_ok.mp h
    obtain ⟨es', hes, h⟩ := Except.bind_eq_ok.mp h
    cases h
    rw [exprs, expr_settled hp e he, exprs_settled hp es hes]
    rfl
termination_by structural es => es

/-- A first argument that has to stay is not looked at in either run. -/
theorem arguments_settled (hp : SameNames p p') {keepFirst : Bool} :
    ∀ (es : List Expr) {es' : List Expr}, arguments env p scope keepFirst es = .ok es' →
      arguments env p' scope keepFirst es' = .ok es'
  | [], _, h => by
    cases h
    rfl
  | e :: es, _, h => by
    simp only [arguments] at h
    split at h
    · next hkeep =>
      obtain ⟨e', he, h⟩ := Except.bind_eq_ok.mp h
      obtain ⟨es', hes, h⟩ := Except.bind_eq_ok.mp h
      cases h
      rw [arguments, if_pos hkeep, exprs_settled hp es hes]
      rfl
    · next hkeep =>
      obtain ⟨e', he, h⟩ := Except.bind_eq_ok.mp h
      obtain ⟨es', hes, h⟩ := Except.bind_eq_ok.mp h
      cases h
      rw [arguments, if_neg hkeep, expr_settled hp e he, exprs_settled hp es hes]
      rfl
termination_by structural es => es

end

/-- **Leaves that have their sigils keep them.** -/
theorem leafMap_settles (hp : SameNames p p') : (leafMap env p).Settles (leafMap env p') where
  expr h := expr_settled hp _ h
  target {scope v v'} h := by
    obtain ⟨subscripts, hsubscripts, h⟩ := Except.bind_eq_ok.mp h
    obtain ⟨j, hj, h⟩ := Except.bind_eq_ok.mp h
    cases h
    simp only [leafMap, varRef, exprs_settled hp _ hsubscripts, bind, Except.bind,
      ident_settled hp hj]
    rfl
  call {scope c c'} h := by
    obtain ⟨args, hargs, h⟩ := Except.bind_eq_ok.mp h
    cases h
    simp only [leafMap, call, arguments_settled hp _ hargs]
    rfl

/-- A function of the table that has its sigils keeps them. -/
theorem entry_settled (hp : SameNames p p') {e e' : FunctionEntry} (h : entry env p e = .ok e') :
    entry env p' e' = .ok e' := by
  have hsettles : (leafMap env p).Settles (leafMap env p') := leafMap_settles hp
  obtain ⟨body, globals, locals, hbody, hglobals, hlocals, rfl⟩ := entry_eq_ok h
  simp only [entry, FunctionDef.paramNames] at hbody hglobals hlocals ⊢
  simp only [hsettles.stmts _ hbody, hsettles.stmts _ hglobals, hsettles.stmts _ hlocals]
  rfl

/-- **A script that has its sigils keeps them, and so does the table of functions**: the second
run ends with the script and the program that the first one has left. -/
theorem script_settled {s s' : Script} (h : (script env s).run p = .ok (s', p')) :
    (script env s').run p' = .ok (s', p') := by
  rw [script_run_eq] at h ⊢
  obtain ⟨blocks, hscript, h⟩ := Except.bind_eq_ok.mp h
  obtain ⟨functions, hmap, h⟩ := Except.bind_eq_ok.mp h
  cases h
  -- The second run looks names up in the program that the first one has left.
  have hp : SameNames p { p with functions } := ⟨rfl, names_eq (Except.mapM_eq_ok.mp hmap)⟩
  have hleaves : (leafMap env p).Settles (leafMap env { p with functions }) := leafMap_settles hp
  have hscript' := hleaves.script (fun hi => ident_settled hp hi false) hscript
  have hmap' := settles_list (entry_settled hp) hmap
  exact Except.bind_eq_ok.mpr ⟨s', hscript', Except.bind_eq_ok.mpr ⟨functions, hmap', rfl⟩⟩

/-! ### A sample -/

/-- The variables `$level` and `%notes`, and a function that sets the first one to its
parameter. -/
def sampleTable : Program where
  symbols := { vars := ["$level", "%notes"] }
  functions :=
    [{ fn := ⟨.fixed "f" .zero, [⟨.fixed "a" .zero, .value⟩], none,
        [.written (.assign (Frame.fixedVar "level" .zero) (Frame.fixedVar "a" .zero).toExpr) .zero],
        false, false, .zero⟩ }]

/-- A script with `notes[level] := 1` and `f(level)`, all without sigils. -/
def bareScript : Script :=
  ⟨[.callback ⟨"note", none,
      [.written (.assign ⟨.fixed "notes" .zero, [(Frame.fixedVar "level" .zero).toExpr], .zero⟩
          (.int 1 .zero)) .zero,
        .written (.call ⟨.fixed "f" .zero, [(Frame.fixedVar "level" .zero).toExpr], true, false,
          .zero⟩) .zero], .zero⟩]⟩

theorem bareScript_settled :
    ∃ s' p', (script ⟨{}, .empty⟩ bareScript).run sampleTable = .ok (s', p') ∧
      (script ⟨{}, .empty⟩ s').run p' = .ok (s', p') :=
  ⟨_, _, rfl, script_settled (s := bareScript) (p := sampleTable) rfl⟩

end Sigils

end FlatScript
