import FlatScript.Proofs.Rule

/-!
# Rules and the leaves of statements

A step that changes only the leaves of statements carries a rule over to another one when it
does so for the leaves. `FlatScript.LeafMap.Carries` says what has to be known of the leaves,
and the theorems of this file extend it to statements, functions and bodies.
-/

namespace FlatScript

variable {ε : Type}

/-- **A change of leaves carries one rule over to another**, in functions with parameters that
are allowed. -/
structure LeafMap.Carries (f : LeafMap ε) (r r' : Rule)
    (allowed : List String → Prop := fun _ => True) : Prop where
  expr : ∀ {scope e e'}, allowed scope.params → e.Meets r → f.expr scope e = .ok e' → e'.Meets r'
  target : ∀ {scope v v'}, allowed scope.params → v.Meets r → f.target scope v = .ok v' →
    v'.Meets r'
  call : ∀ {scope c c'}, allowed scope.params → r.stmt (.call c) →
    argsMeet r (r.skips c.name.name) c.args → f.call scope c = .ok c' →
    r'.stmt (.call c') ∧ argsMeet r' (r'.skips c'.name.name) c'.args
  assign : ∀ {scope t v t' v'}, r.stmt (.assign t v) → f.target scope t = .ok t' →
    f.expr scope v = .ok v' → r'.stmt (.assign t' v')
  whole : ∀ {scope t v t' v'}, allowed scope.params → r.whole t v → f.target scope t = .ok t' →
    f.expr scope v = .ok v' → r'.whole t' v'
  accessors : ∀ {name fs}, r.stmt (.property name fs) → ∀ g ∈ fs, allowed g.paramNames
  reshape : ∀ {k k'}, k.Reshaped k' → r.stmt k → r'.stmt k'
  list : ∀ {params ss ss'}, r.list ss → mapLeavesStmts f params ss = .ok ss' → r'.list ss'

namespace LeafMap.Carries

variable {f : LeafMap ε} {r r' : Rule} {allowed : List String → Prop} {scope : Scope}

theorem exprs (hf : f.Carries r r' allowed) (ha : allowed scope.params) {es es' : List Expr}
    (hes : exprsMeet r es) (h : List.Forall₂ (fun e e' => f.expr scope e = .ok e') es es') :
    exprsMeet r' es' := by
  induction h with
  | nil => trivial
  | cons he _ ih => exact ⟨hf.expr ha hes.1 he, ih hes.2⟩

theorem option (hf : f.Carries r r' allowed) (ha : allowed scope.params) {o o' : Option Expr}
    (ho : ∀ e ∈ o, e.Meets r) (h : o.mapM (f.expr scope) = .ok o') :
    o'.isSome = o.isSome ∧ ∀ e ∈ o', e.Meets r' := by
  have hrel := Except.mapM_option_eq_ok.mp h
  refine ⟨optionRel_isSome hrel, ?_⟩
  cases hrel with
  | none => simp
  | some he => simpa using hf.expr ha (ho _ rfl) he

theorem initializer (hf : f.Carries r r' allowed) (ha : allowed scope.params)
    {i i' : Initializer} (hi : i.Meets r)
    (h : f.initializer scope i = .ok i') : i.Reshaped i' ∧ i'.Meets r' := by
  cases i with
  | single e =>
    obtain ⟨e', he', h⟩ := Except.bind_eq_ok.mp h
    cases h
    exact ⟨trivial, hf.expr ha hi he'⟩
  | list es =>
    obtain ⟨es', hes', h⟩ := Except.bind_eq_ok.mp h
    cases h
    have hall := Except.mapM_eq_ok.mp hes'
    exact ⟨hall.length_eq.symm, hf.exprs ha hi hall⟩

/-- A declaration keeps its name and its form. -/
theorem declaration (hf : f.Carries r r' allowed) (ha : allowed scope.params)
    {d d' : Declaration} (hd : d.Meets r)
    (h : f.declaration scope d = .ok d') : d.Reshaped d' ∧ d'.Meets r' := by
  obtain ⟨size, hsize, h⟩ := Except.bind_eq_ok.mp h
  obtain ⟨params, hparams, h⟩ := Except.bind_eq_ok.mp h
  obtain ⟨init, hinit, h⟩ := Except.bind_eq_ok.mp h
  cases h
  have hsize' := hf.option ha hd.1 hsize
  have hparams' := Except.mapM_eq_ok.mp hparams
  have hinit' : Option.Rel (fun i i' => i.Reshaped i' ∧ i'.Meets r') d.init init := by
    have hmeets := hd.2.2
    have hrel := Except.mapM_option_eq_ok.mp hinit
    generalize d.init = o at hmeets hrel
    cases hrel with
    | none => exact .none
    | some hi => exact .some (hf.initializer ha (hmeets _ rfl) hi)
  refine ⟨⟨rfl, rfl, hsize'.1, hparams'.length_eq.symm, ?_⟩, hsize'.2, hf.exprs ha hd.2.1 hparams', ?_⟩
  · exact optionRel_imp hinit' fun _ _ h => h.1
  · exact forall_mem_of_optionRel hinit' fun _ _ h => h.2

mutual

/-- A statement with its leaves changed meets the other rule. -/
theorem stmt (hf : f.Carries r r' allowed) {params : List String} (ha : allowed params) :
    ∀ (s : Stmt) {s' : Stmt}, s.Meets r → s.mapLeaves f params = .ok s' → s'.Meets r'
  | ⟨.property name fs, span, trace⟩, _, ⟨hk, hfs⟩, h => by
    simp only [Stmt.mapLeaves] at h
    obtain ⟨fs', hfs', h⟩ := Except.bind_eq_ok.mp h
    cases h
    obtain ⟨hshape, hmeets⟩ := functions hf fs (hf.accessors hk) hfs hfs'
    exact ⟨hf.reshape (.property hshape) hk, hmeets⟩
  | ⟨.synonym name indices target, span, trace⟩, _, ⟨hk, ht⟩, h => by
    simp only [Stmt.mapLeaves] at h
    obtain ⟨t', ht', h⟩ := Except.bind_eq_ok.mp h
    cases h
    exact ⟨hf.reshape .synonym hk, hf.target ha ht ht'⟩
  | ⟨.declare d, span, trace⟩, _, ⟨hk, hd⟩, h => by
    simp only [Stmt.mapLeaves] at h
    obtain ⟨d', hd', h⟩ := Except.bind_eq_ok.mp h
    cases h
    obtain ⟨hshape, hmeets⟩ := hf.declaration ha hd hd'
    exact ⟨hf.reshape (.declare hshape) hk, hmeets⟩
  | ⟨.assign target value, span, trace⟩, _, hk, h => by
    simp only [Stmt.mapLeaves] at h
    obtain ⟨t', ht', h⟩ := Except.bind_eq_ok.mp h
    obtain ⟨v', hv', h⟩ := Except.bind_eq_ok.mp h
    cases h
    rcases hk with hk | ⟨hk, ht, hv⟩
    · exact .inl (hf.whole ha hk ht' hv')
    · exact .inr ⟨hf.assign hk ht' hv', hf.target ha ht ht', hf.expr ha hv hv'⟩
  | ⟨.call c, span, trace⟩, _, ⟨hk, hargs⟩, h => by
    simp only [Stmt.mapLeaves] at h
    obtain ⟨c', hc', h⟩ := Except.bind_eq_ok.mp h
    cases h
    exact hf.call ha hk hargs hc'
  | ⟨.whileLoop cond body, span, trace⟩, _, ⟨hk, hc, hl, hb⟩, h => by
    simp only [Stmt.mapLeaves] at h
    obtain ⟨c', hc', h⟩ := Except.bind_eq_ok.mp h
    obtain ⟨b', hb', h⟩ := Except.bind_eq_ok.mp h
    cases h
    exact ⟨hf.reshape .whileLoop hk, hf.expr ha hc hc', hf.list hl hb', stmts hf ha body hb hb'⟩
  | ⟨.forLoop var start stop step downto body, span, trace⟩, _, ⟨hk, hv, h₁, h₂, h₃, hl, hb⟩, h => by
    simp only [Stmt.mapLeaves] at h
    obtain ⟨v', hv', h⟩ := Except.bind_eq_ok.mp h
    obtain ⟨start', hstart, h⟩ := Except.bind_eq_ok.mp h
    obtain ⟨stop', hstop, h⟩ := Except.bind_eq_ok.mp h
    obtain ⟨step', hstep, h⟩ := Except.bind_eq_ok.mp h
    obtain ⟨b', hb', h⟩ := Except.bind_eq_ok.mp h
    cases h
    have hstep' := hf.option ha h₃ hstep
    exact ⟨hf.reshape (.forLoop hstep'.1) hk, hf.target ha hv hv', hf.expr ha h₁ hstart,
      hf.expr ha h₂ hstop, hstep'.2, hf.list hl hb', stmts hf ha body hb hb'⟩
  | ⟨.family name body, span, trace⟩, _, ⟨hk, hl, hb⟩, h => by
    simp only [Stmt.mapLeaves] at h
    obtain ⟨b', hb', h⟩ := Except.bind_eq_ok.mp h
    cases h
    exact ⟨hf.reshape .family hk, hf.list hl hb', stmts hf ha body hb hb'⟩
  | ⟨.ifChain bs otherwise, span, trace⟩, _, ⟨hk, hbs, hl, ho⟩, h => by
    simp only [Stmt.mapLeaves] at h
    obtain ⟨bs', hbs', h⟩ := Except.bind_eq_ok.mp h
    obtain ⟨o', ho', h⟩ := Except.bind_eq_ok.mp h
    cases h
    obtain ⟨hlen, hmeets⟩ := branches hf ha bs hbs hbs'
    exact ⟨hf.reshape (.ifChain hlen) hk, hmeets, hf.list hl ho', stmts hf ha otherwise ho ho'⟩
  | ⟨.select subject cs, span, trace⟩, _, ⟨hk, hs, hcs⟩, h => by
    simp only [Stmt.mapLeaves] at h
    obtain ⟨s', hs', h⟩ := Except.bind_eq_ok.mp h
    obtain ⟨cs', hcs', h⟩ := Except.bind_eq_ok.mp h
    cases h
    obtain ⟨hshape, hmeets⟩ := cases hf ha cs hcs hcs'
    exact ⟨hf.reshape (.select hshape) hk, hf.expr ha hs hs', hmeets⟩
termination_by structural s => s

/-- **Statements with their leaves changed meet the other rule.** -/
theorem stmts (hf : f.Carries r r' allowed) {params : List String} (ha : allowed params) :
    ∀ (ss : List Stmt) {ss' : List Stmt}, stmtsMeet r ss → mapLeavesStmts f params ss = .ok ss' →
      stmtsMeet r' ss'
  | [], _, _, h => by
    cases h
    trivial
  | s :: ss, _, ⟨hs, hss⟩, h => by
    simp only [mapLeavesStmts] at h
    obtain ⟨s', hs', h⟩ := Except.bind_eq_ok.mp h
    obtain ⟨ss', hss', h⟩ := Except.bind_eq_ok.mp h
    cases h
    exact ⟨stmt hf ha s hs hs', stmts hf ha ss hss hss'⟩
termination_by structural ss => ss

theorem branches (hf : f.Carries r r' allowed) {scope : Scope} (ha : allowed scope.params) :
    ∀ (bs : List Branch) {bs' : List Branch}, branchesMeet r bs →
      mapLeavesBranches f scope bs = .ok bs' → bs'.length = bs.length ∧ branchesMeet r' bs'
  | [], _, _, h => by
    cases h
    exact ⟨rfl, trivial⟩
  | ⟨cond, body⟩ :: rest, _, ⟨hc, hl, hb, hr⟩, h => by
    simp only [mapLeavesBranches] at h
    obtain ⟨c', hc', h⟩ := Except.bind_eq_ok.mp h
    obtain ⟨b', hb', h⟩ := Except.bind_eq_ok.mp h
    obtain ⟨rest', hrest', h⟩ := Except.bind_eq_ok.mp h
    cases h
    obtain ⟨hlen, hmeets⟩ := branches hf ha rest hr hrest'
    exact ⟨by simp [hlen], hf.expr ha hc hc', hf.list hl hb', stmts hf ha body hb hb', hmeets⟩
termination_by structural bs => bs

theorem cases (hf : f.Carries r r' allowed) {scope : Scope} (ha : allowed scope.params) :
    ∀ (cs : List Case) {cs' : List Case}, casesMeet r cs → mapLeavesCases f scope cs = .ok cs' →
      List.Forall₂ (fun c c' => c'.stop.isSome = c.stop.isSome) cs cs' ∧ casesMeet r' cs'
  | [], _, _, h => by
    cases h
    exact ⟨.nil, trivial⟩
  | ⟨start, stop, body⟩ :: rest, _, ⟨h₁, h₂, hl, hb, hr⟩, h => by
    simp only [mapLeavesCases] at h
    obtain ⟨start', hstart, h⟩ := Except.bind_eq_ok.mp h
    obtain ⟨stop', hstop, h⟩ := Except.bind_eq_ok.mp h
    obtain ⟨b', hb', h⟩ := Except.bind_eq_ok.mp h
    obtain ⟨rest', hrest', h⟩ := Except.bind_eq_ok.mp h
    cases h
    obtain ⟨hshape, hmeets⟩ := cases hf ha rest hr hrest'
    have hstop' := hf.option ha h₂ hstop
    exact ⟨.cons hstop'.1 hshape, hf.expr ha h₁ hstart, hstop'.2, hf.list hl hb',
      stmts hf ha body hb hb', hmeets⟩
termination_by structural cs => cs

theorem functions (hf : f.Carries r r' allowed) :
    ∀ (fs : List FunctionDef) {fs' : List FunctionDef}, (∀ g ∈ fs, allowed g.paramNames) →
      functionsMeet r fs →
      mapLeavesFunctions f fs = .ok fs' →
      List.Forall₂ (fun g g' => g' = { g with body := g'.body }) fs fs' ∧ functionsMeet r' fs'
  | [], _, _, _, h => by
    cases h
    exact ⟨.nil, trivial⟩
  | ⟨name, params, result, body, isTaskfunc, isOverride, span⟩ :: rest, _, ha, ⟨hl, hb, hr⟩, h => by
    simp only [mapLeavesFunctions] at h
    obtain ⟨b', hb', h⟩ := Except.bind_eq_ok.mp h
    obtain ⟨rest', hrest', h⟩ := Except.bind_eq_ok.mp h
    cases h
    obtain ⟨hshape, hmeets⟩ := functions hf rest (fun g hg => ha g (by simp [hg])) hr hrest'
    exact ⟨.cons rfl hshape, hf.list hl hb', stmts hf (ha _ List.mem_cons_self) body hb hb', hmeets⟩
termination_by structural fs => fs

end

theorem body (hf : f.Carries r r' allowed) {params : List String} (ha : allowed params)
    {ss ss' : List Stmt} (hss : bodyMeets r ss) (h : mapLeavesStmts f params ss = .ok ss') :
    bodyMeets r' ss' :=
  ⟨hf.list hss.1 h, hf.stmts ha ss hss.2 h⟩

end LeafMap.Carries

end FlatScript
