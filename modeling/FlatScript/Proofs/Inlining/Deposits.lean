import FlatScript.Proofs.Inlining.Statementwise

/-!
# What is left behind

Two events that are watched during expansion. A call is recorded in a block, and a copy of the
function is in the block, unless it is called with `call` or only gives its value. And a function
gives its declarations up, and they are in an init callback.
-/

namespace FlatScript

variable {p p' : Program} {name : String}

/-! ### The declarations of a function -/

/-- A function keeps its declarations or gives them up. -/
theorem Program.Grows.decls? (h : p.Grows p') {ds : List Stmt} (hds : p.decls? name = some ds) :
    p'.decls? name = some ds ∨ p'.decls? name = some [] := by
  obtain ⟨e, he, rfl⟩ := Option.map_eq_some_iff.mp hds
  obtain ⟨e', he', hgrows⟩ := h.exists_after he
  unfold Program.decls?
  rw [he', Option.map_some]
  rcases hgrows.decls with ⟨hglobals, hlocals⟩ | ⟨hglobals, hlocals⟩
  · exact .inl (by rw [hglobals, hlocals])
  · exact .inr (by rw [hglobals, hlocals]; rfl)

theorem Program.decls?_drained (p : Program) (n name : String) :
    (p.drained n).decls? name =
      if name = n then (p.decls? name).map fun _ => [] else p.decls? name := by
  refine (Program.decls?_map fun e => by split <;> rfl).trans ?_
  unfold Program.decls?
  cases hfound : p.function? name with
  | none => simp
  | some e =>
    rw [← (Program.mem_functions_of_function? hfound).2]
    by_cases hn : e.name = n <;> simp [hn]

namespace Inlining

variable {env : Env} {p₀ : Program} {t : Top}

theorem calls_entered (p : Program) (t : Top) (name : String) (usingCall : Bool) :
    (entered p t name usingCall).calls.calls = p.calls.calls ++ [(t.caller, name)] := by
  have hadd : (p.calls.addCall t.caller name).calls = p.calls.calls ++ [(t.caller, name)] := by
    cases t.caller <;> rfl
  unfold entered Program.updateFunction CallGraph.markExplicit
  dsimp only
  split <;> split <;> exact hadd

theorem decls?_entered (p : Program) (t : Top) (n : String) (usingCall : Bool) :
    (entered p t n usingCall).decls? name = p.decls? name := by
  have hused : ∀ q : Program, (q.updateFunction n ({ · with used := true })).decls? name =
      q.decls? name := fun q => by
    refine (Program.decls?_map fun e => ?_).trans ?_
    · split <;> rfl
    · unfold Program.decls?
      congr 1
      funext e
      split <;> rfl
  unfold entered
  dsimp only
  split <;> split
  · exact hused _
  · exact hused _
  · rfl
  · rfl

/-! ### Copies of a function -/

/-- **Statements only give a value**, to an expression in the place of a call: they are an assignment
to the result of a function. -/
def GivesValue (p₀ : Program) (ys : List Stmt) : Prop :=
  ∃ e ∈ p₀.functions, ∃ v, resultOf? e.fn ys = some v

/-- A single assignment has no bodies. -/
theorem of_resultOf? {f : FunctionDef} {ys : List Stmt} {v : Expr} (h : resultOf? f ys = some v) :
    ∃ s : Stmt, ys = [s] ∧ s.bodies = [] := by
  unfold resultOf? at h
  split at h
  · exact ⟨_, rfl, rfl⟩
  · cases h

/-- **A function is called in the blocks of a caller.** A copy of it is left behind, unless it is
called with `call`. -/
def callWatch (env : Env) (p₀ : Program) (caller : Caller) (name : String) : Watch env p₀ where
  happened p := (caller, name) ∈ p.calls.calls
  excused p := p.calls.isExplicit name = true
  shown t ss := t.caller = caller ∧ ∃ ys, IsCopy env p₀ t name ys ∧ (Within ys ss ∨ GivesValue p₀ ys)
  inValue t := t.caller = caller ∧ ∃ ys, IsCopy env p₀ t name ys ∧ (ys = [] ∨ GivesValue p₀ ys)
  later h hsubset := by
    rw [CallGraph.isExplicit, List.contains_iff_mem] at h ⊢
    exact hsubset h
  within := by
    rintro t ys ss ⟨hcaller, zs, hcopy, hzs⟩ hys
    exact ⟨hcaller, zs, hcopy, hzs.imp_left fun h => h.trans hys⟩
  anywhere := by
    rintro t ⟨hcaller, ys, hcopy, hys⟩ ss
    refine ⟨hcaller, ys, hcopy, hys.imp_left ?_⟩
    rintro rfl
    exact .here [] ss
  valued := by
    rintro t ys v e he hvalue ⟨hcaller, zs, hcopy, hzs | hzs⟩
    · obtain ⟨s, rfl, hbodies⟩ := of_resultOf? hvalue
      refine ⟨hcaller, zs, hcopy, (hzs.of_leaf hbodies).imp_right ?_⟩
      rintro rfl
      exact ⟨e, he, v, hvalue⟩
    · exact ⟨hcaller, zs, hcopy, .inr hzs⟩
  unchanged hcalls _ h := hcalls ▸ h
  entered := by
    intro p t n usingCall h
    rw [calls_entered, List.mem_append, List.mem_singleton] at h
    refine h.imp_right fun hcall => ?_
    obtain ⟨rfl, rfl⟩ := Prod.mk.inj hcall
    exact ⟨fun _ hmark => hmark, fun ys hcopy => ⟨rfl, ys, hcopy, .inl (.refl ys)⟩⟩
  drained _ _ _ _ h := .inl h

/-! ### Declarations of a function -/

/-- The declarations that are expanded are declarations. -/
theorem Expands.declaration {stack : List String} {d : Declaration} {span : Span} {trace : List Span}
    {ys : List Stmt} (h : Expands env p₀ t stack [⟨.declare d, span, trace⟩] ys) :
    ∃ d' n p p', ys = [⟨.declare d', span, trace⟩] ∧ p₀.Grows p ∧
      (declaration env (below env n) ⟨t, stack, trace⟩ d).run p = .ok (d', p') := by
  obtain ⟨n, trace', p, p', hp, h⟩ := h
  have h := stmts_single_run h
  simp only [stmt] at h
  obtain ⟨d', p₁, hd, h⟩ := StateT.bind_eq_ok.mp h
  cases h
  exact ⟨d', n, p, p', rfl, hp, hd⟩

/-- **A declaration in an expanded list** stands in the list, expanded. -/
theorem Expands.declared {stack : List String} {d : Declaration} {span : Span} {trace : List Span}
    {ss ys : List Stmt} (h : Expands env p₀ t stack ss ys) (hd : ⟨.declare d, span, trace⟩ ∈ ss) :
    ∃ d' n p p', Within [⟨.declare d', span, trace⟩] ys ∧ p₀.Grows p ∧
      (Inlining.declaration env (below env n) ⟨t, stack, trace⟩ d).run p = .ok (d', p') := by
  obtain ⟨before, after, rfl⟩ := List.append_of_mem hd
  obtain ⟨ys₁, rest, rfl, -, hrest⟩ := (statementwise_expands ..).append h
  have hsingle : Expands env p₀ t stack ([⟨.declare d, span, trace⟩] ++ after) rest := hrest
  obtain ⟨ys₂, ys₃, rfl, hone, -⟩ := (statementwise_expands ..).append hsingle
  obtain ⟨d', n, p, p', rfl, hgrows, hrun⟩ := hone.declaration
  exact ⟨d', n, p, p', .of_mem (by simp), hgrows, hrun⟩

theorem Expands.ne_nil {stack : List String} {ds ys : List Stmt} (h : Expands env p₀ t stack ds ys)
    (hplain : PlainDecls ds) (hds : ds ≠ []) : stmtsDeclared ys ≠ [] := by
  obtain ⟨s, ds, rfl⟩ := List.exists_cons_of_ne_nil hds
  obtain ⟨d, span, rfl⟩ := hplain s List.mem_cons_self
  have hsplit : Expands env p₀ t stack ([⟨.declare d, span, []⟩] ++ ds) ys := h
  obtain ⟨first, rest, rfl, hfirst, -⟩ := (statementwise_expands env p₀ t stack).append hsplit
  obtain ⟨d', n, p, p', rfl, -⟩ := hfirst.declaration
  rw [stmtsDeclared_append]
  exact List.cons_ne_nil _ _

/-- **A function gives its declarations up.** They are left behind in an init callback. -/
def declWatch (env : Env) (p₀ : Program) (name : String) (ds : List Stmt) (hplain : PlainDecls ds)
    (hds : ds ≠ []) (hname : p₀.decls? name = some ds) : Watch env p₀ where
  happened p := p.decls? name = some []
  excused _ := False
  shown t ss := t.isInit = true ∧ ∃ stack ys, Expands env p₀ t stack ds ys ∧ Within ys ss
  inValue _ := False
  later h _ := h
  within := by
    rintro t ys ss ⟨hinit, stack, zs, hzs, hwithin⟩ hys
    exact ⟨hinit, stack, zs, hzs, hwithin.trans hys⟩
  anywhere h := h.elim
  valued := by
    rintro t ys v e - hvalue ⟨hinit, stack, zs, hzs, hwithin⟩
    have hnone := stmtsDeclared_of_resultOf? hvalue
    obtain ⟨s, rfl, hbodies⟩ := of_resultOf? hvalue
    -- A single assignment declares nothing.
    rcases hwithin.of_leaf hbodies with rfl | rfl
    · exact hzs.ne_nil hplain hds rfl
    · exact hzs.ne_nil hplain hds hnone
  unchanged _ hdecls h := hdecls name ▸ h
  entered := by
    intro p t n usingCall h
    rw [decls?_entered] at h
    exact .inl h
  drained := by
    intro p t stack ys e hp hinit hdecls hexpands h
    rw [Program.decls?_drained] at h
    split at h
    · next heq =>
      subst heq
      rcases hp.decls? hname with hsame | hnone
      · rw [hsame, Option.some.injEq] at hdecls
        exact .inr ⟨hinit, stack, ys, hdecls ▸ hexpands, .refl ys⟩
      · exact .inl hnone
    · exact .inl h

end Inlining

end FlatScript
