import FlatScript.Proofs.Lowering.Scheme

/-!
# The walk over lowering

For every scheme, what lowering does to statements, functions and scripts.
-/

namespace FlatScript.Lowering.Scheme

variable {env : Env} {L : Scheme env} {s s' : State}

/-- **What is known of the table of functions**: of each of them, that they have different
names, and that no call has been recorded yet, if none was before. -/
structure Table (L : Scheme env) (functions : List FunctionEntry) (calls : CallGraph) : Prop where
  entry : ∀ e ∈ functions, L.entry e
  nodup : (functions.map FunctionEntry.name).Nodup
  noCalls : L.fresh → calls.calls = []
  noMarks : L.fresh → calls.explicit = []

theorem Table.empty (L : Scheme env) : L.Table [] {} :=
  ⟨by simp, by simp, fun _ => rfl, fun _ => rfl⟩

/-- What is known of the state of lowering. -/
def Inv (L : Scheme env) (s : State) : Prop :=
  L.Table s.program.functions s.program.calls ∧ L.good s.current

/-- **What a run of lowering leaves behind**: the state is as before, the function around is
the same one, and the statements meet the rule. -/
structure After (L : Scheme env) (s s' : State) (ss : List Stmt) : Prop where
  inv : L.Inv s'
  grows : Extends s.current s'.current
  meets : stmtsMeet (L.dst s'.current) ss

/-- A step that lowers statements. -/
def Lowers (L : Scheme env) (x : Lower (List Stmt)) : Prop :=
  ∀ s r s', L.Inv s → x.run s = .ok (r, s') → L.After s s' r

/-! ### Single statements -/

theorem meets_varRef {c : Option FunctionEntry} {w : List String} {v : VarRef} (hc : L.good c)
    (hv : v.Meets L.src) : (varRef (refsOf env w c) v).Meets (L.dst c) := by
  have h := L.expr (w := w) hc hv
  simp only [VarRef.toExpr, Lowering.expr] at h
  exact h

theorem assignment_run {target : VarRef} {value : Expr} {span : Span} {trace : List Span}
    {r : Stmt} (hs : L.Inv s) (ht : target.Meets L.src) (hv : value.Meets L.src)
    (h : (assignment env target value span trace).run s = .ok (r, s')) :
    s = s' ∧ r.Meets (L.dst s.current) := by
  obtain ⟨_, _, hrefs, h⟩ := StateT.bind_eq_ok.mp h
  rw [refs_run] at hrefs
  cases hrefs
  cases h
  exact ⟨rfl, .inr ⟨L.assign, meets_varRef hs.2 ht, L.expr hs.2 hv⟩⟩

/-- The condition of a counting loop meets the rule of the source. -/
theorem meets_loopCondition {var : VarRef} {stop : Expr} {downto : Bool} (hv : var.Meets L.src)
    (hstop : stop.Meets L.src) : (loopCondition var stop downto).Meets L.src := by
  have hbound : (loopBound stop downto).2.Meets L.src := by
    unfold loopBound
    split
    · exact hstop
    · split
      · split
        · rcases hstop with hatom | ⟨-, hleft, -⟩
          · exact absurd hatom L.atom
          · exact hleft
        · exact hstop
      · exact hstop
  exact .inr ⟨L.binary, hv, hbound⟩

/-- The step of a counting loop. -/
theorem stepStmt_run {var : VarRef} {step : Option Expr} {downto : Bool} {span : Span}
    {trace : List Span} {r : Stmt} (hs : L.Inv s) (hv : var.Meets L.src)
    (hstep : ∀ e ∈ step, e.Meets L.src)
    (h : (stepStmt env var step downto span trace).run s = .ok (r, s')) :
    s = s' ∧ r.Meets (L.dst s.current) := by
  obtain ⟨_, _, hrefs, h⟩ := StateT.bind_eq_ok.mp h
  rw [refs_run] at hrefs
  cases hrefs
  cases step with
  | none =>
    cases h
    refine ⟨rfl, ?_⟩
    have hword : ∀ b : Bool, (if b then "dec" else "inc") = "inc" ∨
        (if b then "dec" else "inc") = "dec" := by decide
    exact L.call hs.2 (L.step (hword downto)) (argsMeet_of_exprsMeet ⟨hv, trivial⟩)
  | some e =>
    cases h
    refine ⟨rfl, .inr ⟨L.assign, meets_varRef hs.2 hv, L.expr hs.2 ?_⟩⟩
    exact .inr ⟨L.binary, hv, hstep e rfl⟩

/-! ### Declarations -/

theorem meets_lowered {c : Option FunctionEntry} {w fs : List String} {d : Declaration}
    (hc : L.good c) (hd : d.Meets L.src) :
    (lowered (refsOf env w c) fs d).Meets (L.dst c) :=
  meets_lowered_of (fun _ he => L.expr hc he) hd

/-- A declaration in the body of a function. -/
theorem declareIn_run {program : Program} {f : FunctionEntry} {fs : List String}
    {d : Declaration} {span : Span} {trace : List Span} {r : List Stmt}
    (hs : L.Inv ⟨program, some f⟩) (hfs : L.families fs) (hk : L.src.stmt (.declare d))
    (hd : d.Meets L.src)
    (h : (declareIn env f (lowered (refsOf env program.writtenNames (some f)) fs d) span
      trace).run ⟨program, some f⟩ = .ok (r, s')) :
    L.After ⟨program, some f⟩ s' r := by
  unfold declareIn at h
  dsimp only at h
  split at h
  · cases h
    exact ⟨⟨hs.1, L.promoted hs.2 hfs hk hd⟩, ⟨rfl, Nat.le_refl _⟩, trivial⟩
  split at h
  · cases h
  split at h
  · next htask =>
    rw [Bool.and_eq_true] at htask
    cases h
    obtain ⟨hgood, hmeets⟩ := L.framed (w := program.writtenNames) (d := d) hs.2 hfs hk hd htask.1
    exact ⟨⟨hs.1, hgood⟩, ⟨rfl, by simp [addFrameLocal]⟩, hmeets⟩
  · cases h
    obtain ⟨hgood, hmeets⟩ := L.renamed (w := program.writtenNames) (d := d) hs.2 hfs hk hd ⟨_, rfl⟩
    exact ⟨⟨hs.1, hgood⟩, ⟨rfl, Nat.le_refl _⟩, hmeets⟩

/-- **A declaration, lowered.** -/
theorem declaration_lowers {fs : List String} {d : Declaration} {span : Span} {trace : List Span}
    (hfs : L.families fs) (hk : L.src.stmt (.declare d)) (hd : d.Meets L.src) :
    L.Lowers (declaration env fs d span trace) := by
  intro s r s' hs h
  obtain ⟨program, current⟩ := s
  unfold declaration at h
  obtain ⟨_, _, hrefs, h⟩ := StateT.bind_eq_ok.mp h
  rw [refs_run] at hrefs
  cases hrefs
  cases current with
  | none =>
    cases h
    exact ⟨hs, trivial, ⟨L.declared hfs hk hd, meets_lowered hs.2 hd⟩, trivial⟩
  | some f =>
    simp only [StateT.run_bind, StateT.run_get, pure_bind] at h
    exact declareIn_run hs hfs hk hd h

/-! ### Functions -/

/-- The functions of the table, after one has been entered. -/
theorem mem_functions_enter {p : Program} {e e' : FunctionEntry}
    (h : e' ∈ (enter p e).functions) : e' = e ∨ e' ∈ p.functions := by
  change e' ∈ (p.putFunction e).functions at h
  unfold Program.putFunction at h
  split at h
  · simp only [Program.updateFunction, List.mem_map] at h
    obtain ⟨x, hx, rfl⟩ := h
    split
    · exact .inl rfl
    · exact .inr hx
  · rcases List.mem_append.mp h with h | h
    · exact .inr h
    · exact .inl (List.mem_singleton.mp h)

theorem nodup_enter {p : Program} {e : FunctionEntry}
    (h : (p.functions.map FunctionEntry.name).Nodup) :
    ((enter p e).functions.map FunctionEntry.name).Nodup := by
  change ((p.putFunction e).functions.map FunctionEntry.name).Nodup
  unfold Program.putFunction
  split
  · -- The function that gives way has the same name.
    have hnames : ∀ x : FunctionEntry,
        (if x.name == e.name then e else x).name = x.name := by
      intro x
      split
      · next hx => exact (beq_iff_eq.mp hx).symm
      · rfl
    simpa only [Program.updateFunction, List.map_map, Function.comp_def, hnames] using h
  · next hnew =>
    have hnew' : e.name ∉ p.functions.map FunctionEntry.name := by
      simpa [Program.isUserFunction] using hnew
    simpa [List.nodup_append] using ⟨h, fun x hx => fun heq =>
      hnew' (heq ▸ List.mem_map_of_mem hx)⟩

/-- **A function is entered**, and the function around stays as it is. -/
theorem functionWith_run {f : FunctionDef} {body : Lower (List Stmt)} (hf : L.header f)
    (hbody : L.Lowers body) (hs : L.Inv s)
    (h : (functionWith env f body).run s = .ok ((), s')) :
    L.Inv s' ∧ s'.current = s.current := by
  unfold functionWith at h
  dsimp only at h
  split at h
  · cases h
  simp only [StateT.run_bind, StateT.run_get, pure_bind] at h
  split at h
  · cases h
    exact ⟨hs, rfl⟩
  · cases h
  · simp only [StateT.run_bind, StateT.run_get, StateT.run_modify, pure_bind] at h
    obtain ⟨⟨ss, s₁⟩, hrun, h⟩ := Except.bind_eq_ok.mp h
    have hopen : L.Inv ⟨s.program, some (opened env f)⟩ := ⟨hs.1, L.openFunction hf⟩
    have hafter := hbody _ _ _ hopen hrun
    obtain ⟨program, current⟩ := s₁
    cases current with
    | none => cases h
    | some e =>
      cases h
      have htable := hafter.inv.1
      refine ⟨⟨⟨?_, nodup_enter htable.nodup, htable.noCalls, htable.noMarks⟩, hs.2⟩, rfl⟩
      intro e' he'
      rcases mem_functions_enter he' with rfl | he'
      · exact L.closeFunction hafter.inv.2 hafter.meets
      · exact htable.entry e' he'

theorem synonym_run {property : String} {indices : List Ident} {target : VarRef} {span : Span}
    (hget : L.header (synonymGetter property indices span))
    (hset : L.header (synonymSetter property indices span)) (ht : target.Meets L.src)
    (hs : L.Inv s) (h : (Lowering.synonym env property indices target span).run s = .ok ((), s')) :
    L.Inv s' ∧ s'.current = s.current := by
  have hassign : ∀ t v, t.Meets L.src → v.Meets L.src →
      L.Lowers (do return [← assignment env t v span []]) := by
    intro t v ht hv s r s' hs h
    obtain ⟨stmt, s₁, hrun, h⟩ := StateT.bind_eq_ok.mp h
    obtain ⟨rfl, hmeets⟩ := assignment_run hs ht hv hrun
    cases h
    exact ⟨hs, .refl _, hmeets, trivial⟩
  obtain ⟨⟨⟩, s₁, hrun, h⟩ := StateT.bind_eq_ok.mp h
  obtain ⟨hs₁, hc₁⟩ := functionWith_run hget (hassign _ _ L.result ht) hs hrun
  obtain ⟨hs₂, hc₂⟩ := functionWith_run hset (hassign _ _ ht L.valueToSet) hs₁ h
  exact ⟨hs₂, hc₂.trans hc₁⟩

/-! ### Statements -/

theorem After.mono {s s' s'' : State} {ss : List Stmt} (h : L.After s s' ss)
    (h' : Extends s'.current s''.current) : stmtsMeet (L.dst s''.current) ss :=
  stmtsMeet_mono (L.mono h') h.meets

mutual

/-- A statement, lowered. -/
theorem stmt_lowers {fs : List String} (hfs : L.families fs) :
    ∀ (x : Stmt), x.Meets L.src → L.Lowers (stmt env fs x)
  | ⟨.forLoop var start stop step downto body, span, trace⟩, ⟨_, hv, h₁, h₂, h₃, _, hb⟩ => by
    intro s r s' hs h
    simp only [stmt] at h
    obtain ⟨first, _, hrun, h⟩ := StateT.bind_eq_ok.mp h
    obtain ⟨rfl, hfirst⟩ := assignment_run hs hv h₁ hrun
    obtain ⟨_, _, hrefs, h⟩ := StateT.bind_eq_ok.mp h
    rw [refs_run] at hrefs
    cases hrefs
    obtain ⟨body', s₁, hbody, h⟩ := StateT.bind_eq_ok.mp h
    have hafter := stmts_lowers hfs body hb _ _ _ hs hbody
    obtain ⟨last, _, hrun', h⟩ := StateT.bind_eq_ok.mp h
    obtain ⟨rfl, hlast⟩ := stepStmt_run hafter.inv hv h₃ hrun'
    cases h
    -- The loop becomes one with a condition, behind an assignment and with a step at its end.
    have hloop : (loopCondition var stop downto).Meets L.src := meets_loopCondition hv h₂
    have hcond := L.expr (w := s.program.writtenNames) hs.2 hloop
    refine ⟨hafter.inv, hafter.grows, hfirst.mono (L.mono hafter.grows), ?_, trivial⟩
    exact ⟨L.whileLoop, hcond.mono (L.mono hafter.grows), L.list,
      stmtsMeet_append.mpr ⟨hafter.meets, hlast, trivial⟩⟩
  | ⟨.ifChain bs otherwise, span, trace⟩, ⟨hk, hbs, _, ho⟩ => by
    intro s r s' hs h
    simp only [stmt] at h
    obtain ⟨x, s₁, hchain, h⟩ := StateT.bind_eq_ok.mp h
    cases h
    exact chain_run hfs (stmts_lowers hfs otherwise ho) bs hbs (fun h => ⟨otherwise, h ▸ hk⟩) hs hchain
  | ⟨.family name body, span, trace⟩, ⟨hk, _, hb⟩ => by
    intro s r s' hs h
    simp only [stmt] at h
    obtain ⟨_, _, hsym, h⟩ := StateT.bind_eq_ok.mp h
    cases hsym
    have hafter := stmts_lowers (L.family hfs hk) body hb _ _ _ (by exact hs) h
    exact ⟨hafter.inv, hafter.grows, hafter.meets⟩
  | ⟨.property name functions, span, trace⟩, ⟨hk, hf⟩ => by
    intro s r s' hs h
    simp only [stmt] at h
    obtain ⟨_, _, hcheck, h⟩ := StateT.bind_eq_ok.mp h
    obtain ⟨-, rfl⟩ := StateT.lift_eq_ok.mp hcheck
    obtain ⟨⟨⟩, s₁, hacc, h⟩ := StateT.bind_eq_ok.mp h
    obtain ⟨hs₁, hc₁⟩ := accessors_run functions hf (L.accessors hfs hk) hs hacc
    cases h
    exact ⟨hs₁, hc₁ ▸ .refl _, trivial⟩
  | ⟨.synonym name indices target, span, trace⟩, ⟨hk, ht⟩ => by
    intro s r s' hs h
    simp only [stmt] at h
    obtain ⟨⟨⟩, s₁, hsyn, h⟩ := StateT.bind_eq_ok.mp h
    obtain ⟨hs₁, hc₁⟩ := synonym_run (L.synonym hfs hk).1 (L.synonym hfs hk).2 ht hs hsyn
    cases h
    exact ⟨hs₁, hc₁ ▸ .refl _, trivial⟩
  | ⟨.declare d, span, trace⟩, ⟨hk, hd⟩ => by
    simp only [stmt]
    exact declaration_lowers hfs hk hd
  | ⟨.assign target value, span, trace⟩, .inl h => absurd h L.whole
  | ⟨.assign target value, span, trace⟩, .inr ⟨_, ht, hv⟩ => by
    intro s r s' hs h
    simp only [stmt] at h
    obtain ⟨x, _, hassign, h⟩ := StateT.bind_eq_ok.mp h
    obtain ⟨rfl, hmeets⟩ := assignment_run hs ht hv hassign
    cases h
    exact ⟨hs, .refl _, hmeets, trivial⟩
  | ⟨.call c, span, trace⟩, ⟨hk, hargs⟩ => by
    intro s r s' hs h
    simp only [stmt] at h
    obtain ⟨_, _, hrefs, h⟩ := StateT.bind_eq_ok.mp h
    rw [refs_run] at hrefs
    cases hrefs
    cases h
    exact ⟨hs, .refl _, L.call hs.2 hk hargs, trivial⟩
  | ⟨.whileLoop cond body, span, trace⟩, ⟨_, hc, _, hb⟩ => by
    intro s r s' hs h
    simp only [stmt] at h
    obtain ⟨_, _, hrefs, h⟩ := StateT.bind_eq_ok.mp h
    rw [refs_run] at hrefs
    cases hrefs
    obtain ⟨body', s₁, hbody, h⟩ := StateT.bind_eq_ok.mp h
    have hafter := stmts_lowers hfs body hb _ _ _ hs hbody
    cases h
    have hcond := L.expr (w := s.program.writtenNames) hs.2 hc
    exact ⟨hafter.inv, hafter.grows,
      ⟨L.whileLoop, hcond.mono (L.mono hafter.grows), L.list, hafter.meets⟩, trivial⟩
  | ⟨.select subject cs, span, trace⟩, ⟨hk, hsub, hcs⟩ => by
    intro s r s' hs h
    simp only [stmt] at h
    obtain ⟨_, _, hrefs, h⟩ := StateT.bind_eq_ok.mp h
    rw [refs_run] at hrefs
    cases hrefs
    obtain ⟨cs', s₁, hcases, h⟩ := StateT.bind_eq_ok.mp h
    obtain ⟨hs₁, hgrows, hshape, hmeets⟩ := cases_run hfs cs hcs hs hcases
    cases h
    have hsubject := L.expr (w := s.program.writtenNames) hs.2 hsub
    exact ⟨hs₁, hgrows, ⟨L.select hshape hk, hsubject.mono (L.mono hgrows), hmeets⟩, trivial⟩

/-- **Statements, lowered.** -/
theorem stmts_lowers {fs : List String} (hfs : L.families fs) :
    ∀ (ss : List Stmt), stmtsMeet L.src ss → L.Lowers (stmts env fs ss)
  | [], _ => by
    intro s r s' hs h
    cases h
    exact ⟨hs, .refl _, trivial⟩
  | x :: ss, ⟨hx, hss⟩ => by
    intro s r s' hs h
    simp only [stmts] at h
    obtain ⟨first, s₁, hfirst, h⟩ := StateT.bind_eq_ok.mp h
    obtain ⟨rest, s₂, hrest, h⟩ := StateT.bind_eq_ok.mp h
    cases h
    have h₁ := stmt_lowers hfs x hx _ _ _ hs hfirst
    have h₂ := stmts_lowers hfs ss hss _ _ _ h₁.inv hrest
    exact ⟨h₂.inv, h₁.grows.trans h₂.grows,
      stmtsMeet_append.mpr ⟨h₁.mono h₂.grows, h₂.meets⟩⟩

/-- Branches, nested into one another. -/
theorem chain_run {fs : List String} (hfs : L.families fs) {span : Span} {trace : List Span}
    {otherwise : Lower (List Stmt)} (ho : L.Lowers otherwise) :
    ∀ (bs : List Branch), branchesMeet L.src bs →
      (bs = [] → ∃ o, L.src.stmt (.ifChain [] o)) → ∀ {s s' : State} {r : Stmt}, L.Inv s →
      (chain env fs span trace otherwise bs).run s = .ok (r, s') → L.After s s' [r]
  | [], _, hk, s, s', r, hs, h => by
    simp only [chain] at h
    obtain ⟨o', s₁, hother, h⟩ := StateT.bind_eq_ok.mp h
    cases h
    have hafter := ho _ _ _ hs hother
    obtain ⟨o, hk⟩ := hk rfl
    exact ⟨hafter.inv, hafter.grows, ⟨L.ifNone hk, trivial, L.list, hafter.meets⟩, trivial⟩
  | [⟨cond, body⟩], ⟨hc, _, hb, _⟩, _, s, s', r, hs, h => by
    simp only [chain] at h
    obtain ⟨_, _, hrefs, h⟩ := StateT.bind_eq_ok.mp h
    rw [refs_run] at hrefs
    cases hrefs
    obtain ⟨body', s₁, hbody, h⟩ := StateT.bind_eq_ok.mp h
    obtain ⟨o', s₂, hother, h⟩ := StateT.bind_eq_ok.mp h
    cases h
    have h₁ := stmts_lowers hfs body hb _ _ _ hs hbody
    have h₂ := ho _ _ _ h₁.inv hother
    -- What was lowered first still meets its rule when the function has grown.
    have hcond := L.expr (w := s.program.writtenNames) hs.2 hc
    exact ⟨h₂.inv, h₁.grows.trans h₂.grows, ⟨L.ifOne,
      ⟨hcond.mono (L.mono (h₁.grows.trans h₂.grows)), L.list, h₁.mono h₂.grows, trivial⟩, L.list,
      h₂.meets⟩, trivial⟩
  | ⟨cond, body⟩ :: b :: rest, ⟨hc, _, hb, hrest⟩, _, s, s', r, hs, h => by
    simp only [chain] at h
    obtain ⟨_, _, hrefs, h⟩ := StateT.bind_eq_ok.mp h
    rw [refs_run] at hrefs
    cases hrefs
    obtain ⟨body', s₁, hbody, h⟩ := StateT.bind_eq_ok.mp h
    obtain ⟨inner, s₂, hinner, h⟩ := StateT.bind_eq_ok.mp h
    cases h
    have h₁ := stmts_lowers hfs body hb _ _ _ hs hbody
    have h₂ := chain_run hfs ho (b :: rest) hrest (by simp) h₁.inv hinner
    have hcond := L.expr (w := s.program.writtenNames) hs.2 hc
    exact ⟨h₂.inv, h₁.grows.trans h₂.grows, ⟨L.ifOne,
      ⟨hcond.mono (L.mono (h₁.grows.trans h₂.grows)), L.list, h₁.mono h₂.grows, trivial⟩, L.list,
      h₂.meets⟩, trivial⟩

theorem cases_run {fs : List String} (hfs : L.families fs) :
    ∀ (cs : List Case), casesMeet L.src cs → ∀ {s s' : State} {r : List Case}, L.Inv s →
      (cases env fs cs).run s = .ok (r, s') →
      L.Inv s' ∧ Extends s.current s'.current ∧
        List.Forall₂ (fun c c' => c'.stop.isSome = c.stop.isSome) cs r ∧
        casesMeet (L.dst s'.current) r
  | [], _, s, s', r, hs, h => by
    cases h
    exact ⟨hs, .refl _, .nil, trivial⟩
  | ⟨start, stop, body⟩ :: rest, ⟨h₁, h₂, _, hb, hrest⟩, s, s', r, hs, h => by
    simp only [cases] at h
    obtain ⟨_, _, hrefs, h⟩ := StateT.bind_eq_ok.mp h
    rw [refs_run] at hrefs
    cases hrefs
    obtain ⟨body', s₁, hbody, h⟩ := StateT.bind_eq_ok.mp h
    obtain ⟨rest', s₂, hrest', h⟩ := StateT.bind_eq_ok.mp h
    cases h
    have hbody' := stmts_lowers hfs body hb _ _ _ hs hbody
    obtain ⟨hs₂, hgrows, hshape, hmeets⟩ := cases_run hfs rest hrest hbody'.inv hrest'
    have hall := hbody'.grows.trans hgrows
    refine ⟨hs₂, hall, .cons (by simp) hshape, (L.expr hs.2 h₁).mono (L.mono hall), ?_, L.list,
      hbody'.mono hgrows, hmeets⟩
    intro e he
    obtain ⟨e₀, he₀, rfl⟩ := Option.map_eq_some_iff.mp he
    exact (L.expr hs.2 (h₂ e₀ he₀)).mono (L.mono hall)

theorem accessors_run {property : String} :
    ∀ (functions : List FunctionDef), functionsMeet L.src functions →
      (∀ f ∈ functions, L.header (accessor property { f with body := [] })) →
      ∀ {s s' : State}, L.Inv s → (Lowering.accessors env property functions).run s = .ok ((), s') →
      L.Inv s' ∧ s'.current = s.current
  | [], _, _, s, s', hs, h => by
    cases h
    exact ⟨hs, rfl⟩
  | ⟨name, params, result, body, isTaskfunc, isOverride, span⟩ :: rest, ⟨_, hb, hrest⟩, hheader,
      s, s', hs, h => by
    simp only [Lowering.accessors] at h
    obtain ⟨⟨⟩, s₁, hfun, h⟩ := StateT.bind_eq_ok.mp h
    have hheader' :=
      hheader ⟨name, params, result, body, isTaskfunc, isOverride, span⟩ List.mem_cons_self
    obtain ⟨hs₁, hc₁⟩ := functionWith_run hheader' (stmts_lowers L.noFamilies body hb) hs hfun
    obtain ⟨hs₂, hc₂⟩ := accessors_run rest hrest (fun f hf => hheader f (by simp [hf])) hs₁ h
    exact ⟨hs₂, hc₂.trans hc₁⟩

end

/-! ### Scripts -/

/-- What is asked of a block of the source. -/
def Source (L : Scheme env) : Block → Prop
  | .callback c => stmtsMeet L.src c.body
  | .function f => L.header f ∧ stmtsMeet L.src f.body

/-- The block is a callback whose body meets the rule outside of functions. -/
def Result (L : Scheme env) (b : Block) : Prop :=
  ∃ c, b = .callback c ∧ bodyMeets (L.dst none) c.body

theorem blocks_run : ∀ (bs : List Block), (∀ b ∈ bs, L.Source b) → ∀ {s s' : State}
    {r : List Block}, s.current = none → L.Inv s → (blocks env bs).run s = .ok (r, s') →
    L.Inv s' ∧ ∀ b ∈ r, L.Result b
  | [], _, s, s', r, _, hs, h => by
    cases h
    exact ⟨hs, by simp⟩
  | .callback c :: bs, hbs, s, s', r, hc, hs, h => by
    simp only [blocks] at h
    obtain ⟨_, _, hrefs, h⟩ := StateT.bind_eq_ok.mp h
    rw [refs_run] at hrefs
    cases hrefs
    obtain ⟨body, s₁, hbody, h⟩ := StateT.bind_eq_ok.mp h
    obtain ⟨rest, s₂, hrest, h⟩ := StateT.bind_eq_ok.mp h
    cases h
    have hafter := stmts_lowers L.noFamilies c.body (hbs (.callback c) (by simp)) _ _ _ hs hbody
    have hc₁ : s₁.current = none := by
      have hgrows := hafter.grows
      rw [hc] at hgrows
      cases hcur : s₁.current with
      | none => rfl
      | some f => rw [hcur] at hgrows; exact hgrows.elim
    obtain ⟨hs₂, hr⟩ := blocks_run bs (fun b hb => hbs b (by simp [hb])) hc₁ hafter.inv hrest
    refine ⟨hs₂, ?_⟩
    intro b hb
    rcases List.mem_cons.mp hb with rfl | hb
    · exact ⟨_, rfl, L.list, hc₁ ▸ hafter.meets⟩
    · exact hr b hb
  | .function f :: bs, hbs, s, s', r, hc, hs, h => by
    simp only [blocks] at h
    obtain ⟨⟨⟩, s₁, hfun, h⟩ := StateT.bind_eq_ok.mp h
    obtain ⟨hheader, hbody⟩ := hbs (.function f) (by simp)
    obtain ⟨hs₁, hc₁⟩ :=
      functionWith_run hheader (stmts_lowers L.noFamilies f.body hbody) hs hfun
    exact blocks_run bs (fun b hb => hbs b (by simp [hb])) (hc₁.trans hc) hs₁ h

theorem mem_initFirst {b : Block} {bs : List Block} (h : b ∈ initFirst bs) :
    b ∈ bs ∨ b = .callback emptyInit := by
  unfold initFirst at h
  split at h
  · next init hinit =>
    rcases List.mem_cons.mp h with rfl | h
    · exact .inl (List.mem_of_find?_eq_some hinit)
    · exact .inl (List.mem_of_mem_eraseP h)
  · rcases List.mem_cons.mp h with rfl | h
    · exact .inr rfl
    · exact .inl h

/-- **A script, lowered.** -/
theorem script_run {x x' : Script} {p p' : Program} (hx : ∀ b ∈ x.blocks, L.Source b)
    (hp : L.Table p.functions p.calls) (h : (script env x).run p = .ok (x', p')) :
    L.Table p'.functions p'.calls ∧ ∀ b ∈ x'.blocks, L.Result b := by
  unfold script at h
  simp only [StateT.run_bind, StateT.run_get, pure_bind] at h
  obtain ⟨⟨⟨bs, s'⟩, p₁⟩, hrun, h⟩ := Except.bind_eq_ok.mp h
  cases h
  obtain ⟨hblocks, -⟩ := StateT.lift_eq_ok.mp hrun
  have hsource : ∀ b ∈ initFirst x.blocks, L.Source b := by
    intro b hb
    rcases mem_initFirst hb with hb | rfl
    · exact hx b hb
    · trivial
  obtain ⟨hs', hbs⟩ := blocks_run _ hsource rfl ⟨hp, L.outside⟩ hblocks
  exact ⟨hs'.1, hbs⟩

end FlatScript.Lowering.Scheme
