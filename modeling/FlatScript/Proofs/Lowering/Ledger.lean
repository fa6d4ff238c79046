import FlatScript.Proofs.Declared
import FlatScript.Proofs.Lowering.Walk
import FlatScript.Proofs.Reachability

/-!
# Ledgers of lowering

Few kinds of steps change the table of functions and the declared variables: a declaration in one
of the four places that it can have, and the entering of a function. A `FlatScript.Lowering.Ledger`
is a relation between the states before and after that these steps obey; whoever writes one down
knows it of every script, by `FlatScript.Lowering.Ledger.script_run`.

The relation may speak of the source, but only of its `FlatScript.Lowering.Footprint`: which
functions are entered under which names, and which names are declared where.
-/

namespace FlatScript.Lowering

/-! ### Footprints -/

/-- **What a piece of the source enters and declares.** Functions come with the names that are
declared in their bodies, in the order in which they are entered. -/
structure Footprint where
  /-- The functions, by the names that they are entered under. -/
  entered : List (String × List String) := []
  /-- The names, without sigils, that are declared outside of these functions. -/
  declares : List String := []

namespace Footprint

instance : Append Footprint :=
  ⟨fun x y => ⟨x.entered ++ y.entered, x.declares ++ y.declares⟩⟩

/-- The footprint of a function with the given one in its body. -/
def close (x : Footprint) (name : String) : Footprint := ⟨x.entered ++ [(name, x.declares)], []⟩

theorem append_eq (x y : Footprint) :
    x ++ y = ⟨x.entered ++ y.entered, x.declares ++ y.declares⟩ := rfl

theorem append_assoc (x y z : Footprint) : x ++ y ++ z = x ++ (y ++ z) := by
  simp [append_eq]

@[simp] theorem append_empty (x : Footprint) : x ++ {} = x := by
  simp [append_eq]

end Footprint

/-- The name that a function is entered under. -/
def tableName (env : Env) (f : FunctionDef) : String := (f.name.qualifyDeclared env.lines).name

mutual

/-- The footprint of a statement. -/
def stmtFootprint (env : Env) (families : List String) : Stmt → Footprint
  | ⟨.property name functions, _, _⟩ =>
    accessorsFootprint env (declaredName env families name).name functions
  | ⟨.synonym name indices _, span, _⟩ =>
    let property := (declaredName env families name).name
    Footprint.close {} (tableName env (synonymGetter property indices span)) ++
      Footprint.close {} (tableName env (synonymSetter property indices span))
  | ⟨.declare d, _, _⟩ => ⟨[], [(declaredName env families d.name).name]⟩
  | ⟨.family name body, _, _⟩ => stmtsFootprint env (openFamily env families name) body
  | ⟨.whileLoop _ body, _, _⟩ | ⟨.forLoop _ _ _ _ _ body, _, _⟩ => stmtsFootprint env families body
  | ⟨.ifChain branches otherwise, _, _⟩ =>
    branchesFootprint env families branches ++ stmtsFootprint env families otherwise
  | ⟨.select _ cases, _, _⟩ => casesFootprint env families cases
  | ⟨.assign _ _, _, _⟩ | ⟨.call _, _, _⟩ => {}

/-- The footprint of statements. -/
def stmtsFootprint (env : Env) (families : List String) : List Stmt → Footprint
  | [] => {}
  | s :: ss => stmtFootprint env families s ++ stmtsFootprint env families ss

/-- The footprint of branches. -/
def branchesFootprint (env : Env) (families : List String) : List Branch → Footprint
  | [] => {}
  | ⟨_, body⟩ :: rest => stmtsFootprint env families body ++ branchesFootprint env families rest

/-- The footprint of cases. -/
def casesFootprint (env : Env) (families : List String) : List Case → Footprint
  | [] => {}
  | ⟨_, _, body⟩ :: rest => stmtsFootprint env families body ++ casesFootprint env families rest

/-- The footprint of the functions of a property. -/
def accessorsFootprint (env : Env) (property : String) : List FunctionDef → Footprint
  | [] => {}
  | ⟨name, params, result, body, isTaskfunc, isOverride, span⟩ :: rest =>
    (stmtsFootprint env [] body).close
        (tableName env (accessor property ⟨name, params, result, [], isTaskfunc, isOverride, span⟩)) ++
      accessorsFootprint env property rest

end

/-- **The footprint of blocks.** -/
def blocksFootprint (env : Env) : List Block → Footprint
  | [] => {}
  | .callback c :: rest => stmtsFootprint env [] c.body ++ blocksFootprint env rest
  | .function f :: rest =>
    (stmtsFootprint env [] f.body).close (tableName env f) ++ blocksFootprint env rest

/-! ### Ledgers -/

/-- The program with a variable declared. -/
def withVariable (p : Program) (name : String) (isUi : Bool) : Program :=
  { p with symbols := p.symbols.addVariable name isUi }

/-- The name under which a local variable is stored. -/
def storageName (p : Program) (d : Declaration) : String :=
  freshName p.symbols ((d.name.sigil.getD .integer).text ++ "_" ++ d.name.name)

/-- **A relation that lowering obeys**, between the states before and after, when a piece of the
source with the given footprint leaves statements that declare the given names. -/
structure Ledger (env : Env) where
  rel : State → State → Footprint → List Ident → Prop
  refl : ∀ s x, rel s s x []
  trans : ∀ {s s₁ s₂ x x' out out'}, rel s s₁ x out → rel s₁ s₂ x' out' →
    rel s s₂ (x ++ x') (out ++ out')
  /-- A family or a property becomes known. -/
  symbols : ∀ {p symbols c}, symbols.vars = p.symbols.vars →
    p.symbols.properties ⊆ symbols.properties → rel ⟨p, c⟩ ⟨{ p with symbols }, c⟩ {} []
  /-- A declaration in a callback. -/
  declared : ∀ {p isUi} {d : Declaration}, d.name.sigil.isSome = true →
    rel ⟨p, none⟩ ⟨withVariable p d.name.full isUi, none⟩ ⟨[], [d.name.name]⟩ [d.name]
  /-- A declaration of a global variable in a function. -/
  promoted : ∀ {p f isUi span trace} {d : Declaration}, d.name.sigil.isSome = true →
    rel ⟨p, some f⟩ ⟨withVariable p d.name.full isUi,
      some { f with globals := f.globals ++ [⟨.declare d, span, trace⟩] }⟩ ⟨[], [d.name.name]⟩ []
  /-- A declaration of a cell of the frame. -/
  framed : ∀ {p f localNames d span trace},
    rel ⟨p, some f⟩ ⟨p, some (addFrameLocal { f with localNames } d span trace).2⟩
      ⟨[], [d.name.name]⟩ []
  /-- A declaration of a local variable that gets a name of its own. -/
  renamed : ∀ {p f localNames d isUi span trace},
    rel ⟨p, some f⟩ ⟨withVariable p (storageName p d) isUi,
      some (addRenamedLocal { f with localNames } (storageName p d) d span trace).2⟩
      ⟨[], [d.name.name]⟩ []
  /-- A function is entered once its body has been lowered. -/
  function : ∀ {s f p e body x}, e.fn = (opened env f).fn →
    rel ⟨s.program, some (opened env f)⟩ ⟨p, some e⟩ x [] →
    rel s ⟨enter p { e with fn := { e.fn with body } }, s.current⟩ (x.close (tableName env f)) []

namespace Ledger

variable {env : Env} {L : Ledger env} {s s' s₁ s₂ : State} {x x' : Footprint} {out out' : List Ident}

/-- **A run that obeys the ledger.** The function around stays the same one, and what is declared
in it is taken out. -/
structure Step (L : Ledger env) (s s' : State) (x : Footprint) (out : List Ident) : Prop where
  rel : L.rel s s' x out
  fn : s'.current.map FunctionEntry.fn = s.current.map FunctionEntry.fn
  inside : s.current.isSome = true → out = []

theorem Step.refl (s : State) (x : Footprint) : L.Step s s x [] := ⟨L.refl s x, rfl, fun _ => rfl⟩

theorem Step.isSome (h : L.Step s s' x out) : s'.current.isSome = s.current.isSome := by
  have hfn := congrArg Option.isSome h.fn
  simpa using hfn

theorem Step.trans (h : L.Step s s₁ x out) (h' : L.Step s₁ s₂ x' out') :
    L.Step s s₂ (x ++ x') (out ++ out') where
  rel := L.trans h.rel h'.rel
  fn := h'.fn.trans h.fn
  inside hsome := by
    rw [h.inside hsome, h'.inside (h.isSome ▸ hsome)]
    rfl

/-- The statements may be put together in another way. -/
theorem Step.congr (h : L.Step s s' x out) (hout : out' = out) : L.Step s s' x out' := hout ▸ h

/-- Families and properties may become known. -/
theorem Step.symbols {symbols : Symbols} (h : L.Step s s' x out)
    (hvars : symbols.vars = s'.program.symbols.vars)
    (hproperties : s'.program.symbols.properties ⊆ symbols.properties) :
    L.Step s ⟨{ s'.program with symbols }, s'.current⟩ x out := by
  have hlast : L.Step s' ⟨{ s'.program with symbols }, s'.current⟩ {} [] :=
    ⟨L.symbols hvars hproperties, rfl, fun _ => rfl⟩
  simpa using h.trans hlast

/-- A step of lowering that obeys the ledger. -/
def Obeys (L : Ledger env) (y : Lower (List Stmt)) (x : Footprint) : Prop :=
  ∀ s r s', y.run s = .ok (r, s') → L.Step s s' x (stmtsDeclared r)

/-! ### Declarations -/

/-- What a variable starts with is assigned without a declaration. -/
theorem stmtsDeclared_splitInit (target : VarRef) (d : Declaration) (span : Span)
    (trace : List Span) : stmtsDeclared ((splitInit target d).1.map (⟨·, span, trace⟩)) = [] := by
  unfold splitInit
  split
  · rfl
  · split <;> rfl

/-- **A declaration in the body of a function.** -/
theorem declareIn_step {f : FunctionEntry} {program : Program} {d : Declaration}
    {span : Span} {trace : List Span} {r : List Stmt} (hd : d.name.sigil.isSome = true)
    (h : (declareIn env f d span trace).run ⟨program, some f⟩ = .ok (r, s')) :
    L.Step ⟨program, some f⟩ s' ⟨[], [d.name.name]⟩ (stmtsDeclared r) := by
  unfold declareIn at h
  dsimp only at h
  split at h
  · cases h
    have hglobal : (d.withoutModifier "global").name.sigil.isSome = true := hd
    exact ⟨L.promoted hglobal, rfl, fun _ => rfl⟩
  split at h
  · cases h
  split at h
  · cases h
    exact Step.congr ⟨L.framed, rfl, fun _ => rfl⟩ (stmtsDeclared_splitInit ..)
  · cases h
    exact Step.congr ⟨L.renamed, rfl, fun _ => rfl⟩ (stmtsDeclared_splitInit ..)

theorem declaration_obeys {families : List String} {d : Declaration} {span : Span}
    {trace : List Span} : L.Obeys (declaration env families d span trace)
      ⟨[], [(declaredName env families d.name).name]⟩ := by
  intro s r s' h
  obtain ⟨program, current⟩ := s
  unfold declaration at h
  obtain ⟨_, _, hrefs, h⟩ := StateT.bind_eq_ok.mp h
  rw [refs_run] at hrefs
  cases hrefs
  cases current with
  | none =>
    cases h
    exact ⟨L.declared rfl, rfl, fun h => nomatch h⟩
  | some f =>
    simp only [StateT.run_bind, StateT.run_get, pure_bind] at h
    exact declareIn_step rfl h

/-! ### Functions -/

/-- **A function is entered**, and the function around stays as it is. -/
theorem functionWith_step {f : FunctionDef} {body : Lower (List Stmt)} (hbody : L.Obeys body x)
    (h : (functionWith env f body).run s = .ok ((), s')) :
    L.Step s s' (x.close (tableName env f)) [] := by
  unfold functionWith at h
  dsimp only at h
  split at h
  · cases h
  simp only [StateT.run_bind, StateT.run_get, pure_bind] at h
  split at h
  · cases h
    exact .refl _ _
  · cases h
  · simp only [StateT.run_bind, StateT.run_get, StateT.run_modify, pure_bind] at h
    obtain ⟨⟨ss, program, current⟩, hrun, h⟩ := Except.bind_eq_ok.mp h
    cases current with
    | none => cases h
    | some e =>
      cases h
      have hstep := hbody ⟨s.program, some (opened env f)⟩ ss _ hrun
      have hrel := hstep.rel
      rw [hstep.inside rfl] at hrel
      exact ⟨L.function (Option.some.inj hstep.fn) hrel, rfl, fun _ => rfl⟩

theorem assignment_obeys {target : VarRef} {value : Expr} {span : Span} {trace : List Span} :
    L.Obeys (do return [← assignment env target value span trace]) x := by
  intro s r s' h
  cases h
  exact .refl _ _

theorem synonym_step {property : String} {indices : List Ident} {target : VarRef} {span : Span}
    (h : (synonym env property indices target span).run s = .ok ((), s')) :
    L.Step s s' (Footprint.close {} (tableName env (synonymGetter property indices span)) ++
      Footprint.close {} (tableName env (synonymSetter property indices span))) [] := by
  obtain ⟨⟨⟩, s₁, hget, h⟩ := StateT.bind_eq_ok.mp h
  exact (functionWith_step assignment_obeys hget).trans (functionWith_step assignment_obeys h)

/-! ### Statements -/

theorem stepStmt_run {var : VarRef} {step : Option Expr} {downto : Bool} {span : Span}
    {trace : List Span} {r : Stmt} (h : (stepStmt env var step downto span trace).run s = .ok (r, s')) :
    s = s' ∧ r.declared = [] := by
  obtain ⟨_, _, hrefs, h⟩ := StateT.bind_eq_ok.mp h
  rw [refs_run] at hrefs
  cases hrefs
  cases step <;> cases h <;> exact ⟨rfl, rfl⟩

mutual

theorem stmt_obeys (families : List String) :
    ∀ y : Stmt, L.Obeys (stmt env families y) (stmtFootprint env families y)
  | ⟨.forLoop var start stop step downto body, span, trace⟩ => by
    intro s r s' h
    simp only [stmt] at h
    obtain ⟨first, _, hrun, h⟩ := StateT.bind_eq_ok.mp h
    cases hrun
    obtain ⟨_, _, hrefs, h⟩ := StateT.bind_eq_ok.mp h
    rw [refs_run] at hrefs
    cases hrefs
    obtain ⟨body', s₁, hbody, h⟩ := StateT.bind_eq_ok.mp h
    -- Only the body changes the state; the first assignment and the step leave it alone.
    have hafter := stmts_obeys families body _ _ _ hbody
    obtain ⟨last, _, hrun', h⟩ := StateT.bind_eq_ok.mp h
    obtain ⟨rfl, hlast⟩ := stepStmt_run hrun'
    cases h
    exact hafter.congr (by simp [stmtsDeclared, Stmt.declared, hlast])
  | ⟨.ifChain branches otherwise, span, trace⟩ => by
    intro s r s' h
    simp only [stmt] at h
    obtain ⟨y, s₁, hchain, h⟩ := StateT.bind_eq_ok.mp h
    cases h
    exact chain_step families (stmts_obeys families otherwise) branches hchain
  | ⟨.family name body, span, trace⟩ => by
    intro s r s' h
    simp only [stmt] at h
    obtain ⟨_, _, hsym, h⟩ := StateT.bind_eq_ok.mp h
    cases hsym
    have hafter := stmts_obeys (openFamily env families name) body _ _ _ h
    have hfamily : ∀ name, L.Step s ⟨{ s.program with
        symbols := s.program.symbols.addFamily name }, s.current⟩ {} [] :=
      fun _ => (Step.refl s {}).symbols rfl (List.Subset.refl _)
    exact (hfamily _).trans hafter
  | ⟨.property name functions, span, trace⟩ => by
    intro s r s' h
    simp only [stmt] at h
    obtain ⟨_, _, hcheck, h⟩ := StateT.bind_eq_ok.mp h
    obtain ⟨-, rfl⟩ := StateT.lift_eq_ok.mp hcheck
    obtain ⟨⟨⟩, s₁, hacc, h⟩ := StateT.bind_eq_ok.mp h
    have hafter := accessors_step functions hacc
    cases h
    exact hafter.symbols rfl fun _ hname => Name.mem_insertNew.mpr (.inl hname)
  | ⟨.synonym name indices target, span, trace⟩ => by
    intro s r s' h
    simp only [stmt] at h
    obtain ⟨⟨⟩, s₁, hsyn, h⟩ := StateT.bind_eq_ok.mp h
    have hafter := synonym_step (L := L) hsyn
    cases h
    exact hafter.symbols rfl fun _ hname => Name.mem_insertNew.mpr (.inl hname)
  | ⟨.declare d, span, trace⟩ => by
    simp only [stmt]
    exact declaration_obeys
  | ⟨.assign target value, span, trace⟩ => by
    simp only [stmt]
    exact assignment_obeys
  | ⟨.call c, span, trace⟩ => by
    intro s r s' h
    cases h
    exact .refl _ _
  | ⟨.whileLoop cond body, span, trace⟩ => by
    intro s r s' h
    simp only [stmt] at h
    obtain ⟨_, _, hrefs, h⟩ := StateT.bind_eq_ok.mp h
    rw [refs_run] at hrefs
    cases hrefs
    obtain ⟨body', s₁, hbody, h⟩ := StateT.bind_eq_ok.mp h
    cases h
    exact (stmts_obeys families body _ _ _ hbody).congr (by simp [stmtsDeclared, Stmt.declared])
  | ⟨.select subject cs, span, trace⟩ => by
    intro s r s' h
    simp only [stmt] at h
    obtain ⟨_, _, hrefs, h⟩ := StateT.bind_eq_ok.mp h
    rw [refs_run] at hrefs
    cases hrefs
    obtain ⟨cs', s₁, hcases, h⟩ := StateT.bind_eq_ok.mp h
    cases h
    exact (cases_step families cs hcases).congr (by simp [stmtsDeclared, Stmt.declared])

/-- **Statements obey every ledger.** -/
theorem stmts_obeys (families : List String) :
    ∀ ss : List Stmt, L.Obeys (stmts env families ss) (stmtsFootprint env families ss)
  | [] => by
    intro s r s' h
    cases h
    exact .refl _ _
  | y :: ss => by
    intro s r s' h
    simp only [stmts] at h
    obtain ⟨first, s₁, hfirst, h⟩ := StateT.bind_eq_ok.mp h
    obtain ⟨rest, s₂, hrest, h⟩ := StateT.bind_eq_ok.mp h
    cases h
    exact ((stmt_obeys families y _ _ _ hfirst).trans
      (stmts_obeys families ss _ _ _ hrest)).congr (stmtsDeclared_append ..)

theorem chain_step (families : List String) {span : Span} {trace : List Span}
    {otherwise : Lower (List Stmt)} {last : Footprint} (ho : L.Obeys otherwise last) :
    ∀ (bs : List Branch) {s s' : State} {r : Stmt},
      (chain env families span trace otherwise bs).run s = .ok (r, s') →
      L.Step s s' (branchesFootprint env families bs ++ last) (stmtsDeclared [r])
  | [], s, s', r, h => by
    simp only [chain] at h
    obtain ⟨o', s₁, hother, h⟩ := StateT.bind_eq_ok.mp h
    cases h
    exact (ho _ _ _ hother).congr (by simp [stmtsDeclared, Stmt.declared, branchesDeclared])
  | [⟨cond, body⟩], s, s', r, h => by
    simp only [chain] at h
    obtain ⟨_, _, hrefs, h⟩ := StateT.bind_eq_ok.mp h
    rw [refs_run] at hrefs
    cases hrefs
    obtain ⟨body', s₁, hbody, h⟩ := StateT.bind_eq_ok.mp h
    obtain ⟨o', s₂, hother, h⟩ := StateT.bind_eq_ok.mp h
    cases h
    have hafter := (stmts_obeys families body _ _ _ hbody).trans (ho _ _ _ hother)
    simpa [stmtsDeclared, Stmt.declared, branchesDeclared, branchesFootprint] using hafter
  | ⟨cond, body⟩ :: b :: rest, s, s', r, h => by
    simp only [chain] at h
    obtain ⟨_, _, hrefs, h⟩ := StateT.bind_eq_ok.mp h
    rw [refs_run] at hrefs
    cases hrefs
    obtain ⟨body', s₁, hbody, h⟩ := StateT.bind_eq_ok.mp h
    obtain ⟨inner, s₂, hinner, h⟩ := StateT.bind_eq_ok.mp h
    cases h
    have hafter := (stmts_obeys families body _ _ _ hbody).trans
      (chain_step families ho (b :: rest) hinner)
    rw [← Footprint.append_assoc] at hafter
    exact hafter.congr (by simp [stmtsDeclared, Stmt.declared, branchesDeclared])

theorem cases_step (families : List String) :
    ∀ (cs : List Case) {s s' : State} {r : List Case},
      (cases env families cs).run s = .ok (r, s') →
      L.Step s s' (casesFootprint env families cs) (casesDeclared r)
  | [], s, s', r, h => by
    cases h
    exact .refl _ _
  | ⟨start, stop, body⟩ :: rest, s, s', r, h => by
    simp only [cases] at h
    obtain ⟨_, _, hrefs, h⟩ := StateT.bind_eq_ok.mp h
    rw [refs_run] at hrefs
    cases hrefs
    obtain ⟨body', s₁, hbody, h⟩ := StateT.bind_eq_ok.mp h
    obtain ⟨rest', s₂, hrest, h⟩ := StateT.bind_eq_ok.mp h
    cases h
    exact (stmts_obeys families body _ _ _ hbody).trans (cases_step families rest hrest)

theorem accessors_step {property : String} :
    ∀ (functions : List FunctionDef) {s s' : State},
      (accessors env property functions).run s = .ok ((), s') →
      L.Step s s' (accessorsFootprint env property functions) []
  | [], s, s', h => by
    cases h
    exact .refl _ _
  | ⟨name, params, result, body, isTaskfunc, isOverride, span⟩ :: rest, s, s', h => by
    simp only [accessors] at h
    obtain ⟨⟨⟩, s₁, hfun, h⟩ := StateT.bind_eq_ok.mp h
    exact (functionWith_step (stmts_obeys [] body) hfun).trans (accessors_step rest h)

end

/-! ### Scripts -/

theorem blocks_step :
    ∀ (bs : List Block) {s s' : State} {r : List Block}, (blocks env bs).run s = .ok (r, s') →
      s.current = none → L.Step s s' (blocksFootprint env bs) (Script.declared ⟨r⟩)
  | [], s, s', r, h, _ => by
    cases h
    exact .refl _ _
  | .callback c :: bs, s, s', r, h, hc => by
    simp only [blocks] at h
    obtain ⟨_, _, hrefs, h⟩ := StateT.bind_eq_ok.mp h
    rw [refs_run] at hrefs
    cases hrefs
    obtain ⟨body, s₁, hbody, h⟩ := StateT.bind_eq_ok.mp h
    obtain ⟨rest, s₂, hrest, h⟩ := StateT.bind_eq_ok.mp h
    cases h
    have hafter := stmts_obeys (L := L) [] c.body _ _ _ hbody
    have hc₁ : s₁.current = none := by simpa [hc] using hafter.fn
    exact hafter.trans (blocks_step bs hrest hc₁)
  | .function f :: bs, s, s', r, h, hc => by
    simp only [blocks] at h
    obtain ⟨⟨⟩, s₁, hfun, h⟩ := StateT.bind_eq_ok.mp h
    have hafter := functionWith_step (L := L) (stmts_obeys [] f.body) hfun
    have hc₁ : s₁.current = none := by simpa [hc] using hafter.fn
    exact hafter.trans (blocks_step bs h hc₁)

/-- **Lowering obeys every ledger.** -/
theorem script_run (L : Ledger env) {y y' : Script} {p : Program}
    (h : (script env y).run {} = .ok (y', p)) :
    ∃ writtenNames, L.rel ⟨{ writtenNames }, none⟩ ⟨p, none⟩
      (blocksFootprint env (initFirst y.blocks)) y'.declared := by
  unfold script at h
  simp only [StateT.run_bind, StateT.run_get, pure_bind] at h
  obtain ⟨⟨⟨bs, s'⟩, p₁⟩, hrun, h⟩ := Except.bind_eq_ok.mp h
  cases h
  obtain ⟨hblocks, -⟩ := StateT.lift_eq_ok.mp hrun
  have hafter := blocks_step (L := L) _ hblocks rfl
  have hc : s'.current = none := by simpa using hafter.fn
  obtain ⟨program, current⟩ := s'
  cases hc
  exact ⟨_, hafter.rel⟩

end Ledger

/-! ### Written names -/

theorem enter_writtenNames (p : Program) (e : FunctionEntry) :
    (enter p e).writtenNames = p.writtenNames := by
  unfold enter Program.putFunction
  split <;> rfl

/-- The ledger of what is known of the functions of the script beforehand. -/
def namesKept (env : Env) : Ledger env where
  rel s s' _ _ := s'.program.writtenNames = s.program.writtenNames
  refl _ _ := rfl
  trans h h' := h'.trans h
  symbols _ _ := rfl
  declared _ := rfl
  promoted _ := rfl
  framed := rfl
  renamed := rfl
  function _ h := (enter_writtenNames _ _).trans h

end FlatScript.Lowering
