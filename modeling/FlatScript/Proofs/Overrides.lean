import FlatScript.Proofs.Lowering.Abreast

/-!
# Overriding definitions

A definition that overrides takes the place of the one with its name, and the definitions with its
name that are met later are passed over. So it should not matter where it stands among them. It does
not, if the definitions that give way leave no trace of themselves.
-/

namespace FlatScript.Lowering

variable {env : Env} {w : List String} {f o : FunctionDef} {e e' : FunctionEntry} {p p' : Program}
  {s s' : State}

/-! ### Lookups -/

/-- The ledger of functions that are not entered again. -/
def lookups (env : Env) : Ledger env where
  rel s s' x _ := ∀ name, (∀ f ∈ x.entered, f.1 ≠ name) →
    s'.program.function? name = s.program.function? name
  refl _ _ _ _ := rfl
  trans h h' name hname := by
    have hboth := List.forall_mem_append.mp hname
    exact (h' name hboth.2).trans (h name hboth.1)
  symbols _ _ _ _ := rfl
  declared _ _ _ := rfl
  promoted _ _ _ := rfl
  framed _ _ := rfl
  renamed _ _ := rfl
  function {s f p e body x} hfn h name hname := by
    have hboth := List.forall_mem_append.mp hname
    have hne : name ≠ e.name := by
      rintro rfl
      refine hboth.2 _ (List.mem_singleton_self _) ?_
      rw [FunctionEntry.name, hfn]
      rfl
    rw [function?_enter]
    exact (if_neg hne).trans (h name hboth.1)

/-! ### Definitions on their own -/

/-- **A function as lowering leaves it**, in a script with given names. -/
def IsLowered (env : Env) (w : List String) (f : FunctionDef) (e : FunctionEntry) : Prop :=
  ∃ p body p₁ e₁, (∀ name, name ∈ p.writtenNames ↔ name ∈ w) ∧
    (stmts env [] f.body).run ⟨p, some (opened env f)⟩ = .ok (body, ⟨p₁, some e₁⟩) ∧
    e = { e₁ with fn := { e₁.fn with body } }

/-- A contrast in which nothing but the names of local variables is compared. -/
def apart (p p' : Program) : Contrast :=
  ⟨fun _ => False, (· ∈ p'.symbols.vars), (· ∈ p.symbols.vars)⟩

/-- A function that starts out in two programs. -/
theorem abreast_opened (env : Env) (f : FunctionDef)
    (hw : ∀ name, name ∈ p'.writtenNames ↔ name ∈ p.writtenNames) :
    Abreast (apart p p') [] ⟨p, some (opened env f)⟩ ⟨p', some (opened env f)⟩ :=
  ⟨hw, fun _ h => h.elim, fun _ _ => or_comm, Renumbered.opened env f⟩

theorem known_of_entered_eq_nil {x : Footprint} {c : Contrast} (h : x.entered = []) : x.Known c := by
  intro f hf
  rw [h] at hf
  cases hf

/-- **A function is the same up to numbers**, whatever is declared when it is lowered. -/
theorem IsLowered.renumbered (hf : (stmtsFootprint env [] f.body).entered = [])
    (h : IsLowered env w f e) (h' : IsLowered env w f e') : ∃ pairs, Renumbered pairs e e' := by
  obtain ⟨p, body, p₁, e₁, hw, hrun, rfl⟩ := h
  obtain ⟨p', body', p₁', e₁', hw', hrun', rfl⟩ := h'
  have hopen := abreast_opened env f fun name => (hw' name).trans (hw name).symm
  obtain ⟨_, _, pairs, hrun'', hafter, hbody⟩ :=
    stmts_follows f.body hopen (known_of_entered_eq_nil hf) _ _ hrun
  rw [hrun'] at hrun''
  cases hrun''
  exact ⟨_, Renumbered.close hafter.around hbody⟩

theorem IsLowered.isStorage (hf : (stmtsFootprint env [] f.body).entered = [])
    (h : IsLowered env w f e) : ∀ i ∈ e.storage, isStorage i.key = true := by
  obtain ⟨pairs, hsame⟩ := h.renumbered hf h
  exact fun i hi => hsame.isStorage (.inl hi)

/-- Apart from its body, a function is entered as it was written. -/
theorem IsLowered.fn (h : IsLowered env w f e) :
    e.fn = { (opened env f).fn with body := e.fn.body } := by
  obtain ⟨p, body, p₁, e₁, hw, hrun, rfl⟩ := h
  have hfn := (Ledger.stmts_obeys (L := namesKept env) [] f.body _ _ _ hrun).fn
  rw [Option.some.inj hfn]

/-- A function that defines no functions leaves the table as it is. -/
theorem function?_of_entered_eq_nil {body : List Stmt}
    (hf : (stmtsFootprint env [] f.body).entered = [])
    (hrun : (stmts env [] f.body).run s = .ok (body, s')) (name : String) :
    s'.program.function? name = s.program.function? name := by
  have hrel := (Ledger.stmts_obeys (L := lookups env) [] f.body _ _ _ hrun).rel name
  rw [hf] at hrel
  exact hrel (by simp)

/-- **A definition is lowered in any program if it is on its own.** It is entered into the table,
and declares what it declares on its own. -/
theorem function_of_alone {s₀ : State} (hf : (stmtsFootprint env [] f.body).entered = [])
    (halone : (function env f).run ⟨{ writtenNames := w }, none⟩ = .ok ((), s₀))
    (hw : ∀ name, name ∈ p.writtenNames ↔ name ∈ w)
    (hfree : entryFor p { f with name := f.name.qualifyDeclared env.lines } = .free)
    (hold : ∀ old, p.function? (tableName env f) = some old →
      ∀ i ∈ old.storage, isStorage i.key = true) :
    ∃ p' e, (function env f).run ⟨p, none⟩ = .ok ((), ⟨p', none⟩) ∧ IsLowered env w f e ∧
      p'.writtenNames = p.writtenNames ∧
      (∀ name, p'.function? name = if name = tableName env f then some e else p.function? name) ∧
      ∀ v, isStorage v = false →
        (v ∈ p'.symbols.vars ↔ v ∈ s₀.program.symbols.vars ∨ v ∈ p.symbols.vars) := by
  rw [function, functionWith_run] at halone
  split at halone
  · cases halone
  next hparams =>
  obtain ⟨⟨body₀, p₀, current₀⟩, hrun₀, hlast₀⟩ := Except.bind_eq_ok.mp halone
  cases current₀ with
  | none => cases hlast₀
  | some e₀ =>
  cases hlast₀
  -- The same body in the other program.
  have hopen : Abreast (apart { writtenNames := w } p) []
      ⟨{ writtenNames := w }, some (opened env f)⟩ ⟨p, some (opened env f)⟩ :=
    abreast_opened env f hw
  obtain ⟨body, ⟨p₁, current⟩, pairs, hrun, hafter, hbody⟩ :=
    stmts_follows f.body hopen (known_of_entered_eq_nil hf) _ _ hrun₀
  cases current with
  | none => exact hafter.around.elim
  | some e =>
  have hlookups : ∀ name, p₁.function? name = p.function? name :=
    function?_of_entered_eq_nil hf hrun
  have hlookups₀ : ∀ name, p₀.function? name = none := function?_of_entered_eq_nil hf hrun₀
  have hnames := Ledger.stmts_obeys (L := namesKept env) [] f.body _ _ _ hrun
  have hname : e.name = tableName env f := by
    rw [FunctionEntry.name, Option.some.inj hnames.fn]
    rfl
  refine ⟨enter p₁ { e with fn := { e.fn with body } }, { e with fn := { e.fn with body } }, ?_,
    ⟨p, body, p₁, e, hw, hrun, rfl⟩, ?_, fun name => ?_, fun v hv => ?_⟩
  · rw [function, functionWith_run, if_neg hparams, hfree]
    exact Except.bind_eq_ok.mpr ⟨_, hrun, rfl⟩
  · rw [enter_writtenNames]
    exact hnames.rel
  · rw [function?_enter, hlookups]
    exact congrArg (fun n => if name = n then _ else _) hname
  · rw [mem_enter_vars_kept ?_ hv, mem_enter_vars_kept ?_ hv]
    · have hvars : v ∈ p₀.symbols.vars ∨ v ∈ p.symbols.vars ↔ v ∈ p₁.symbols.vars ∨ v ∈ [] :=
        hafter.vars v hv
      rw [hvars, or_iff_left List.not_mem_nil]
    · intro old hfound
      rw [hlookups₀] at hfound
      cases hfound
    · intro old hfound
      rw [hlookups] at hfound
      exact hold old (hname ▸ hfound)

/-! ### Definitions of one name -/

/-- **A definition that leaves no trace** when another one overrides it: on its own it is lowered,
it enters no functions of properties, and it declares no variables but local ones. -/
structure Traceless (env : Env) (w : List String) (f : FunctionDef) : Prop where
  base : f.isOverride = false
  nested : (stmtsFootprint env [] f.body).entered = []
  lowered : ∃ s, (function env f).run ⟨{ writtenNames := w }, none⟩ = .ok ((), s) ∧
    ∀ v ∈ s.program.symbols.vars, isStorage v = true

/-- Which definitions of a name have been met. -/
inductive Met where
  /-- None. -/
  | nothing
  /-- One that can be overridden. -/
  | base
  /-- The one that overrides. -/
  | override
deriving DecidableEq

/-- **A definition of the name of `o` takes its turn.** -/
inductive Turn (env : Env) (w : List String) (o : FunctionDef) : Met → FunctionDef → Met → Prop
  /-- It is met first, and overridden later. -/
  | base {f : FunctionDef} (hname : tableName env f = tableName env o) (hf : Traceless env w f) :
    Turn env w o .nothing f .base
  /-- It overrides. -/
  | override {m : Met} (hm : m ≠ .override) : Turn env w o m o .override
  /-- It is overridden already. -/
  | skipped {f : FunctionDef} (hname : tableName env f = tableName env o)
    (hf : Traceless env w f) : Turn env w o .override f .override

/-- **Blocks in which `o` overrides**, when some definitions of its name have been met. At most one
of them stands in front of `o`, and all leave no trace. -/
inductive Overridden (env : Env) (w : List String) (o : FunctionDef) : Met → List Block → Prop
  | done : Overridden env w o .override []
  /-- A block that defines no function of the name. -/
  | other {m : Met} {b : Block} {bs : List Block}
    (hb : ∀ f, b = .function f → tableName env f ≠ tableName env o)
    (hnested : ∀ f ∈ (stmtsFootprint env [] b.body).entered, f.1 ≠ tableName env o)
    (rest : Overridden env w o m bs) : Overridden env w o m (b :: bs)
  /-- A definition of the name. -/
  | definition {m m' : Met} {f : FunctionDef} {bs : List Block} (turn : Turn env w o m f m')
    (rest : Overridden env w o m' bs) : Overridden env w o m (.function f :: bs)

/-- What the table has under the name of `o`. -/
def Met.Holds (env : Env) (w : List String) (o : FunctionDef) (p : Program) : Met → Prop
  | .nothing => p.function? (tableName env o) = none
  | .base => ∃ e, p.function? (tableName env o) = some e ∧
      ∀ i ∈ e.storage, isStorage i.key = true
  | .override => ∃ e, p.function? (tableName env o) = some e ∧ IsLowered env w o e

/-- A definition that overrides, on its own. -/
structure Overrides (env : Env) (w : List String) (o : FunctionDef) (s₀ : State) : Prop where
  override : o.isOverride = true
  nested : (stmtsFootprint env [] o.body).entered = []
  lowered : (function env o).run ⟨{ writtenNames := w }, none⟩ = .ok ((), s₀)

variable {s₀ : State} {m m' m₁ : Met}

/-- A definition that overrides gives way to none. -/
theorem entryFor_override (h : f.isOverride = true) {i : Ident} :
    entryFor p { f with name := i } = .free := by
  unfold entryFor
  rw [h]
  split <;> rfl

/-- **What a definition does in its turn**: it is entered or passed over, and the variables that are
declared or still to be declared stay the same. -/
structure Turned (env : Env) (w : List String) (o : FunctionDef) (s₀ : State) (m m' : Met)
    (p p' : Program) : Prop where
  holds : m'.Holds env w o p'
  written : p'.writtenNames = p.writtenNames
  table : ∀ name, name ≠ tableName env o → p'.function? name = p.function? name
  vars : ∀ v, isStorage v = false →
    (v ∈ p'.symbols.vars ∨ m' ≠ .override ∧ v ∈ s₀.program.symbols.vars ↔
      v ∈ p.symbols.vars ∨ m ≠ .override ∧ v ∈ s₀.program.symbols.vars)

/-- The first definition is entered, and brings no variables but local ones. -/
theorem Traceless.enters (hf : Traceless env w f) (hname : tableName env f = tableName env o)
    (hw : ∀ name, name ∈ p.writtenNames ↔ name ∈ w) (hp : Met.nothing.Holds env w o p) :
    ∃ p', (function env f).run ⟨p, none⟩ = .ok ((), ⟨p', none⟩) ∧
      Turned env w o s₀ .nothing .base p p' := by
  obtain ⟨s₁, hlowered, hstorage⟩ := hf.lowered
  have hnone : p.function? (f.name.qualifyDeclared env.lines).name = none := by
    have hnone : p.function? (tableName env o) = none := hp
    rwa [← hname] at hnone
  obtain ⟨p', e, hrun, he, hwritten, htable, hvars⟩ := function_of_alone hf.nested hlowered hw
    (by simp only [entryFor, hnone]) (fun old hold => by rw [tableName, hnone] at hold; cases hold)
  refine ⟨p', hrun, ⟨e, ?_, he.isStorage hf.nested⟩, hwritten, fun name hne => ?_, fun v hv => ?_⟩
  · rw [htable, if_pos hname.symm]
  · rw [htable, if_neg (hname ▸ hne)]
  · have hnew : v ∉ s₁.program.symbols.vars := by
      intro hmem
      exact Bool.false_ne_true (hv.symm.trans (hstorage v hmem))
    rw [hvars v hv, or_iff_right hnew]
    simp

/-- The definition that overrides takes the place of what has been met. -/
theorem Overrides.enters (ho : Overrides env w o s₀) (hm : m ≠ .override)
    (hw : ∀ name, name ∈ p.writtenNames ↔ name ∈ w) (hp : m.Holds env w o p) :
    ∃ p', (function env o).run ⟨p, none⟩ = .ok ((), ⟨p', none⟩) ∧
      Turned env w o s₀ m .override p p' := by
  have hold : ∀ old, p.function? (tableName env o) = some old →
      ∀ i ∈ old.storage, isStorage i.key = true := by
    intro old hold
    cases m with
    | nothing =>
      have hnone : p.function? (tableName env o) = none := hp
      rw [hold] at hnone
      cases hnone
    | base =>
      obtain ⟨e, he, hstorage⟩ := hp
      rw [hold] at he
      cases he
      exact hstorage
    | override => exact absurd rfl hm
  obtain ⟨p', e, hrun, he, hwritten, htable, hvars⟩ :=
    function_of_alone ho.nested ho.lowered hw (entryFor_override ho.override) hold
  refine ⟨p', hrun, ⟨e, ?_, he⟩, hwritten, fun name hne => ?_, fun v hv => ?_⟩
  · rw [htable, if_pos rfl]
  · rw [htable, if_neg hne]
  · rw [hvars v hv]
    simp [hm, or_comm]

/-- A definition behind the one that overrides is passed over. -/
theorem Traceless.passed_over (hf : Traceless env w f) (hname : tableName env f = tableName env o)
    (ho : Overrides env w o s₀) (hp : Met.override.Holds env w o p) :
    (function env f).run ⟨p, none⟩ = .ok ((), ⟨p, none⟩) := by
  obtain ⟨e, hfound, he⟩ := hp
  obtain ⟨s₁, hlowered, -⟩ := hf.lowered
  rw [function, functionWith_run] at hlowered ⊢
  split at hlowered
  · cases hlowered
  next hparams =>
  have hoverridden : entryFor p { f with name := f.name.qualifyDeclared env.lines } =
      .overridden := by
    have hfound' : p.function? (f.name.qualifyDeclared env.lines).name = some e := by
      rw [← hname] at hfound
      exact hfound
    have hoverride : e.fn.isOverride = true := by
      rw [he.fn]
      exact ho.override
    simp only [entryFor, hfound', hf.base, hoverride]
    rfl
  rw [if_neg hparams, hoverridden]

theorem Turn.runs (h : Turn env w o m f m') (ho : Overrides env w o s₀)
    (hw : ∀ name, name ∈ p.writtenNames ↔ name ∈ w) (hp : m.Holds env w o p) :
    ∃ p', (function env f).run ⟨p, none⟩ = .ok ((), ⟨p', none⟩) ∧ Turned env w o s₀ m m' p p' := by
  cases h with
  | base hname hf => exact hf.enters hname hw hp
  | override hm => exact ho.enters hm hw hp
  | skipped hname hf =>
    exact ⟨p, hf.passed_over hname ho hp, hp, rfl, fun _ _ => rfl, fun _ _ => Iff.rfl⟩

/-! ### Blocks -/

/-- Whether a block is a definition of the name of `o`. -/
def Defines (env : Env) (o : FunctionDef) (b : Block) : Prop :=
  ∃ f, b = .function f ∧ tableName env f = tableName env o

/-- **Two blocks in one place**, when definitions of one name are put into another order. -/
def SamePlace (env : Env) (o : FunctionDef) (b b' : Block) : Prop :=
  b' = b ∨ Defines env o b ∧ Defines env o b'

theorem Turn.defines (h : Turn env w o m f m') : Defines env o (.function f) := by
  cases h with
  | base hname _ | skipped hname _ => exact ⟨_, rfl, hname⟩
  | override _ => exact ⟨_, rfl, rfl⟩

/-- The states of two runs, when each has met some of the definitions. -/
structure Paired (env : Env) (w : List String) (o : FunctionDef) (s₀ : State) (m m' : Met)
    (p p' : Program) : Prop where
  abreast : Abreast ⟨(· ≠ tableName env o), fun v => m ≠ .override ∧ v ∈ s₀.program.symbols.vars,
    fun v => m' ≠ .override ∧ v ∈ s₀.program.symbols.vars⟩ [] ⟨p, none⟩ ⟨p', none⟩
  written : ∀ name, name ∈ p.writtenNames ↔ name ∈ w
  left : m.Holds env w o p
  right : m'.Holds env w o p'

theorem Met.Holds.congr (h : m.Holds env w o p)
    (hsame : p'.function? (tableName env o) = p.function? (tableName env o)) :
    m.Holds env w o p' := by
  cases m <;> simpa only [Met.Holds, hsame] using h

/-- A definition takes its turn in each of two runs. -/
theorem Paired.definition {f' : FunctionDef} {m₁' : Met} (h : Paired env w o s₀ m m' p p')
    (ho : Overrides env w o s₀) (hturn : Turn env w o m f m₁) (hturn' : Turn env w o m' f' m₁') :
    ∃ q q', (function env f).run ⟨p, none⟩ = .ok ((), ⟨q, none⟩) ∧
      (function env f').run ⟨p', none⟩ = .ok ((), ⟨q', none⟩) ∧
      Paired env w o s₀ m₁ m₁' q q' := by
  obtain ⟨q, hrun, hq⟩ := hturn.runs ho h.written h.left
  have hw' : ∀ name, name ∈ p'.writtenNames ↔ name ∈ w :=
    fun name => (h.abreast.written name).trans (h.written name)
  obtain ⟨q', hrun', hq'⟩ := hturn'.runs ho hw' h.right
  refine ⟨q, q', hrun, hrun', ⟨fun name => ?_, fun name hname => ?_, fun v hv => ?_, rfl⟩,
    fun name => ?_, hq.holds, hq'.holds⟩
  · rw [hq.written, hq'.written]
    exact h.abreast.written name
  · rw [hq.table name hname, hq'.table name hname]
    exact h.abreast.table name hname
  · exact (hq.vars v hv).trans ((h.abreast.vars v hv).trans (hq'.vars v hv).symm)
  · rw [hq.written]
    exact h.written name

/-- What is left of a callback has no local variables in it. -/
theorem eq_of_alike {ss ss' : List Stmt} (h : Alike [] ss ss') : ss' = ss := by
  have hsame := h .unchanged (by simp [Identifies])
  rwa [Renaming.stmts_unchanged, Renaming.stmts_unchanged] at hsame

/-- A piece of the source that does not enter the name keeps what has been met. -/
theorem Met.Holds.step {x : Footprint} {out : List Ident} {t : State} (h : m.Holds env w o p)
    (hx : ∀ f ∈ x.entered, f.1 ≠ tableName env o)
    (hstep : (lookups env).Step ⟨p, none⟩ t x out) :
    ∃ q, t = ⟨q, none⟩ ∧ m.Holds env w o q := by
  obtain ⟨q, current⟩ := t
  have hcurrent : current = none := by simpa using hstep.fn
  subst hcurrent
  exact ⟨q, rfl, h.congr (hstep.rel _ hx)⟩

/-- **A block is passed in each of two runs**, and leaves the same in front of what is to come. -/
def Passed (env : Env) (w : List String) (o : FunctionDef) (s₀ : State) (m m' : Met)
    (p p' : Program) (b : Block) : Prop :=
  ∀ {bs r : List Block} {t : State}, (blocks env (b :: bs)).run ⟨p, none⟩ = .ok (r, t) →
    ∃ front r₁ q q', r = front ++ r₁ ∧ (blocks env bs).run ⟨q, none⟩ = .ok (r₁, t) ∧
      Paired env w o s₀ m m' q q' ∧
      ∀ bs' r' t', (blocks env bs').run ⟨q', none⟩ = .ok (r', t') →
        (blocks env (b :: bs')).run ⟨p', none⟩ = .ok (front ++ r', t')

/-- A callback. -/
theorem Paired.callback {k : Callback} (h : Paired env w o s₀ m m' p p')
    (hnested : ∀ f ∈ (stmtsFootprint env [] k.body).entered, f.1 ≠ tableName env o) :
    Passed env w o s₀ m m' p p' (.callback k) := by
  intro bs r t hrun
  simp only [blocks] at hrun
  obtain ⟨_, _, hrefs, hrun⟩ := StateT.bind_eq_ok.mp hrun
  rw [refs_run] at hrefs
  cases hrefs
  obtain ⟨body, t₁, hbody, hrun⟩ := StateT.bind_eq_ok.mp hrun
  obtain ⟨r₁, _, hrest, hlast⟩ := StateT.bind_eq_ok.mp hrun
  cases hlast
  obtain ⟨body', t₁', more, hbody', hafter, halike⟩ :=
    stmts_follows k.body h.abreast hnested _ _ hbody
  obtain ⟨q, rfl, hleft⟩ := h.left.step hnested (Ledger.stmts_obeys [] k.body _ _ _ hbody)
  obtain ⟨q', rfl, hright⟩ := h.right.step hnested (Ledger.stmts_obeys [] k.body _ _ _ hbody')
  have hnames := (Ledger.stmts_obeys (L := namesKept env) [] k.body _ _ _ hbody).rel
  -- Outside of functions there are no local variables.
  have hmore : more = [] := hafter.around
  subst hmore
  have hcontrol : k.control.map (refsOf env p'.writtenNames none).ident =
      k.control.map (refsOf env p.writtenNames none).ident := by
    have hagree : (refsOf env p.writtenNames none).Agree .unchanged
        (refsOf env p'.writtenNames none) := h.abreast.agree env (by simp [Identifies])
    exact congrArg (k.control.map ·) (funext hagree.ident)
  refine ⟨[.callback { k with control := k.control.map (refsOf env p.writtenNames none).ident, body }],
    r₁, q, q', rfl, hrest, ⟨hafter, fun name => ?_, hleft, hright⟩, fun bs' r' t' hrest' => ?_⟩
  · exact hnames.symm ▸ h.written name
  · simp only [blocks]
    refine StateT.bind_eq_ok.mpr ⟨_, _, refs_run env _, ?_⟩
    refine StateT.bind_eq_ok.mpr ⟨_, _, hbody', ?_⟩
    refine StateT.bind_eq_ok.mpr ⟨_, _, hrest', ?_⟩
    rw [eq_of_alike halike, ← hcontrol]
    rfl

/-- A function of another name. -/
theorem Paired.function (h : Paired env w o s₀ m m' p p')
    (hname : tableName env f ≠ tableName env o)
    (hnested : ∀ g ∈ (stmtsFootprint env [] f.body).entered, g.1 ≠ tableName env o) :
    Passed env w o s₀ m m' p p' (.function f) := by
  intro bs r t hrun
  simp only [blocks] at hrun
  obtain ⟨⟨⟩, t₁, hfun, hrun⟩ := StateT.bind_eq_ok.mp hrun
  obtain ⟨⟨⟩, t₁', more, hfun', hafter, -⟩ :=
    functionWith_follows h.abreast hname (Ledger.stmts_obeys [] f.body)
      (fun ht => stmts_follows f.body ht hnested) _ _ hfun
  have hentered : ∀ x ∈ ((stmtsFootprint env [] f.body).close (tableName env f)).entered,
      x.1 ≠ tableName env o :=
    List.forall_mem_append.mpr ⟨hnested, List.forall_mem_singleton.mpr hname⟩
  obtain ⟨q, rfl, hleft⟩ := h.left.step hentered
    (Ledger.functionWith_step (Ledger.stmts_obeys [] f.body) hfun)
  obtain ⟨q', rfl, hright⟩ := h.right.step hentered
    (Ledger.functionWith_step (Ledger.stmts_obeys [] f.body) hfun')
  have hnames := (Ledger.functionWith_step (L := namesKept env)
    (Ledger.stmts_obeys [] f.body) hfun).rel
  have hmore : more = [] := hafter.around
  subst hmore
  refine ⟨[], r, q, q', rfl, hrun, ⟨hafter, fun name => ?_, hleft, hright⟩,
    fun bs' r' t' hrest' => ?_⟩
  · exact hnames.symm ▸ h.written name
  · simp only [blocks]
    exact StateT.bind_eq_ok.mpr ⟨(), _, hfun', hrest'⟩

/-- **A block that defines no function of the name** is passed. -/
theorem Paired.other {b : Block} (h : Paired env w o s₀ m m' p p')
    (hb : ∀ f, b = .function f → tableName env f ≠ tableName env o)
    (hnested : ∀ f ∈ (stmtsFootprint env [] b.body).entered, f.1 ≠ tableName env o) :
    Passed env w o s₀ m m' p p' b := by
  cases b with
  | callback k => exact h.callback hnested
  | function f => exact h.function (hb f rfl) hnested

/-- **Two runs over blocks in which only definitions of one name stand in another order.** -/
theorem blocks_follow (ho : Overrides env w o s₀) {bs bs' : List Block}
    (hplaces : List.Forall₂ (SamePlace env o) bs bs') :
    ∀ {m m' : Met} {p p' : Program} {r : List Block} {t : State},
      Overridden env w o m bs → Overridden env w o m' bs' → Paired env w o s₀ m m' p p' →
      (blocks env bs).run ⟨p, none⟩ = .ok (r, t) →
      ∃ q q', t = ⟨q, none⟩ ∧ (blocks env bs').run ⟨p', none⟩ = .ok (r, ⟨q', none⟩) ∧
        Paired env w o s₀ .override .override q q' := by
  induction hplaces with
  | nil =>
    intro m m' p p' r t hbs hbs' h hrun
    cases hbs
    cases hbs'
    cases hrun
    exact ⟨p, p', rfl, rfl, h⟩
  | @cons b b' bs bs' hplace _ ih =>
    intro m m' p p' r t hbs hbs' h hrun
    -- At one place there are definitions of the name in both runs, or the same other block.
    cases hbs with
    | definition hturn hrest =>
      cases hbs' with
      | definition hturn' hrest' =>
        obtain ⟨q, q', hrunf, hrunf', hnext⟩ := h.definition ho hturn hturn'
        simp only [blocks] at hrun ⊢
        obtain ⟨⟨⟩, _, hrunf₁, hrun⟩ := StateT.bind_eq_ok.mp hrun
        rw [hrunf] at hrunf₁
        cases hrunf₁
        obtain ⟨u, u', ht, hrun', hlast⟩ := ih hrest hrest' hnext hrun
        exact ⟨u, u', ht, StateT.bind_eq_ok.mpr ⟨(), _, hrunf', hrun'⟩, hlast⟩
      | other hb' _ _ =>
        rcases hplace with rfl | ⟨-, f', rfl, hname⟩
        · obtain ⟨_, hfun, hname⟩ := hturn.defines
          cases hfun
          exact absurd hname (hb' _ rfl)
        · exact absurd hname (hb' _ rfl)
    | other hb hnested hrest =>
      have hdefines : ¬ Defines env o b := by
        rintro ⟨f, hf, hname⟩
        exact hb f hf hname
      have hsame : b' = b := hplace.resolve_right fun hboth => hdefines hboth.1
      subst hsame
      cases hbs' with
      | definition hturn' _ => exact absurd hturn'.defines hdefines
      | other _ _ hrest' =>
        obtain ⟨front, r₁, q, q', rfl, hrun₁, hnext, hback⟩ := h.other hb hnested hrun
        obtain ⟨u, u', ht, hrun', hlast⟩ := ih hrest hrest' hnext hrun₁
        exact ⟨u, u', ht, hback _ _ _ hrun', hlast⟩

/-! ### The init callback in front -/

theorem Overridden.init {bs : List Block} (h : Overridden env w o m bs) :
    Overridden env w o m (bs.eraseP isInitBlock) ∧ ∀ b, bs.find? isInitBlock = some b →
      ∀ f ∈ (stmtsFootprint env [] b.body).entered, f.1 ≠ tableName env o := by
  induction h with
  | done => exact ⟨.done, nofun⟩
  | @other m b bs hb hnested hrest ih =>
    cases hinit : isInitBlock b with
    | true =>
      simp only [List.eraseP_cons_of_pos hinit, List.find?_cons_of_pos hinit, Option.some.injEq]
      exact ⟨hrest, fun b' hb' => hb' ▸ hnested⟩
    | false =>
      have hneg : ¬ isInitBlock b = true := by simp [hinit]
      simp only [List.eraseP_cons_of_neg hneg, List.find?_cons_of_neg hneg]
      exact ⟨.other hb hnested ih.1, ih.2⟩
  | @definition m m' f bs hturn hrest ih =>
    have hneg : ¬ isInitBlock (.function f) = true := by simp [isInitBlock]
    simp only [List.eraseP_cons_of_neg hneg, List.find?_cons_of_neg hneg]
    exact ⟨.definition hturn ih.1, ih.2⟩

theorem Overridden.initFirst {bs : List Block} (h : Overridden env w o m bs) :
    Overridden env w o m (initFirst bs) := by
  unfold Lowering.initFirst
  split
  · next b hb =>
    refine .other ?_ (h.init.2 b hb) h.init.1
    rintro f rfl
    have hinit := List.find?_some hb
    cases hinit
  · refine .other ?_ ?_ h
    · rintro f ⟨⟩
    · intro f hf
      cases hf

/-- The init callback stands in the same place in both. -/
theorem SamePlace.isInitBlock {b b' : Block} (h : SamePlace env o b b') :
    isInitBlock b' = isInitBlock b ∧ (isInitBlock b = true → b' = b) := by
  rcases h with rfl | ⟨⟨f, rfl, -⟩, f', rfl, -⟩
  · exact ⟨rfl, fun _ => rfl⟩
  · exact ⟨rfl, nofun⟩

theorem samePlace_initFirst {bs bs' : List Block} (h : List.Forall₂ (SamePlace env o) bs bs') :
    List.Forall₂ (SamePlace env o) (initFirst bs) (initFirst bs') := by
  have hboth : bs'.find? isInitBlock = bs.find? isInitBlock ∧
      List.Forall₂ (SamePlace env o) (bs.eraseP isInitBlock) (bs'.eraseP isInitBlock) := by
    induction h with
    | nil => exact ⟨rfl, .nil⟩
    | @cons b b' bs bs' hplace hrest ih =>
      obtain ⟨hsame, heq⟩ := hplace.isInitBlock
      cases hinit : isInitBlock b with
      | true =>
        have hb := heq hinit
        subst hb
        simp only [List.eraseP_cons_of_pos hinit, List.find?_cons_of_pos hinit]
        exact ⟨trivial, hrest⟩
      | false =>
        have hneg : ¬ isInitBlock b = true := by simp [hinit]
        have hneg' : ¬ isInitBlock b' = true := by simp [hsame, hinit]
        simp only [List.eraseP_cons_of_neg hneg, List.find?_cons_of_neg hneg,
          List.eraseP_cons_of_neg hneg', List.find?_cons_of_neg hneg']
        exact ⟨ih.1, .cons hplace ih.2⟩
  unfold initFirst
  rw [hboth.1]
  split
  · exact .cons (.inl rfl) hboth.2
  · exact .cons (.inl rfl) h

/-! ### The definition that overrides -/

theorem Overridden.mem {bs : List Block} (h : Overridden env w o m bs) (hm : m ≠ .override) :
    .function o ∈ bs := by
  induction h with
  | done => exact absurd rfl hm
  | other _ _ _ ih => exact List.mem_cons_of_mem _ (ih hm)
  | definition hturn _ ih =>
    cases hturn with
    | base _ _ => exact List.mem_cons_of_mem _ (ih nofun)
    | override _ => exact List.mem_cons_self
    | skipped _ _ => exact absurd rfl hm

/-- A definition that has been entered can be lowered on its own. -/
theorem alone_of_function (hoverride : f.isOverride = true)
    (hf : (stmtsFootprint env [] f.body).entered = [])
    (hw : ∀ name, name ∈ p.writtenNames ↔ name ∈ w) {t : State}
    (hrun : (function env f).run ⟨p, none⟩ = .ok ((), t)) : ∃ s₀, Overrides env w f s₀ := by
  rw [function, functionWith_run] at hrun
  split at hrun
  · cases hrun
  next hparams =>
  rw [entryFor_override hoverride] at hrun
  obtain ⟨⟨body, p₁, current⟩, hbody, hlast⟩ := Except.bind_eq_ok.mp hrun
  have hopen : Abreast (apart p { writtenNames := w }) []
      ⟨p, some (opened env f)⟩ ⟨{ writtenNames := w }, some (opened env f)⟩ :=
    abreast_opened env f fun name => (hw name).symm
  obtain ⟨body', ⟨p₁', current'⟩, pairs, hbody', hafter, -⟩ :=
    stmts_follows f.body hopen (known_of_entered_eq_nil hf) _ _ hbody
  cases current with
  | none => cases hlast
  | some e =>
  cases current' with
  | none => exact hafter.around.elim
  | some e' =>
  refine ⟨⟨enter p₁' { e' with fn := { e'.fn with body := body' } }, none⟩, hoverride, hf, ?_⟩
  rw [function, functionWith_run, if_neg hparams, entryFor_override hoverride]
  exact Except.bind_eq_ok.mpr ⟨_, hbody', rfl⟩

/-- **In a script that is lowered, the definition that overrides can be lowered on its own.** -/
theorem alone_of_blocks (hoverride : o.isOverride = true)
    (ho : (stmtsFootprint env [] o.body).entered = []) :
    ∀ (bs : List Block) {p : Program} {r : List Block} {t : State}, .function o ∈ bs →
      (∀ name, name ∈ p.writtenNames ↔ name ∈ w) →
      (blocks env bs).run ⟨p, none⟩ = .ok (r, t) → ∃ s₀, Overrides env w o s₀
  | .callback k :: bs, p, r, t, hmem, hw, hrun => by
    simp only [blocks] at hrun
    obtain ⟨_, _, hrefs, hrun⟩ := StateT.bind_eq_ok.mp hrun
    rw [refs_run] at hrefs
    cases hrefs
    obtain ⟨body, ⟨q, current⟩, hbody, hrun⟩ := StateT.bind_eq_ok.mp hrun
    obtain ⟨r₁, _, hrest, -⟩ := StateT.bind_eq_ok.mp hrun
    have hstep := Ledger.stmts_obeys (L := namesKept env) [] k.body _ _ _ hbody
    have hcurrent : current = none := by simpa using hstep.fn
    subst hcurrent
    have hmem' : .function o ∈ bs := by simpa using hmem
    exact alone_of_blocks hoverride ho bs hmem' (hstep.rel.symm ▸ hw) hrest
  | .function f :: bs, p, r, t, hmem, hw, hrun => by
    simp only [blocks] at hrun
    obtain ⟨⟨⟩, ⟨q, current⟩, hfun, hrest⟩ := StateT.bind_eq_ok.mp hrun
    rcases List.mem_cons.mp hmem with heq | hmem'
    · cases heq
      exact alone_of_function hoverride ho hw hfun
    · have hstep := Ledger.functionWith_step (L := namesKept env)
        (Ledger.stmts_obeys [] f.body) hfun
      have hcurrent : current = none := by simpa using hstep.fn
      subst hcurrent
      exact alone_of_blocks hoverride ho bs hmem' (hstep.rel.symm ▸ hw) hrest

/-! ### Declared variables -/

/-- The names that a piece of the source declares, in functions and outside of them. -/
def Footprint.names (x : Footprint) : List String := x.declares ++ x.entered.flatMap Prod.snd

/-- **No name that is declared has an underscore in front.** -/
def Unmarked (env : Env) (bs : List Block) : Prop :=
  ∀ b ∈ bs, ∀ name ∈ (stmtsFootprint env [] b.body).names, ∀ rest, name.toList ≠ '_' :: rest

theorem mem_names_of_blocks : ∀ (bs : List Block) {name : String},
    name ∈ (blocksFootprint env bs).names →
    ∃ b ∈ bs, name ∈ (stmtsFootprint env [] b.body).names
  | [], _, h => by cases h
  | .callback k :: bs, name, h => by
    have hcases : name ∈ (stmtsFootprint env [] k.body).names ∨
        name ∈ (blocksFootprint env bs).names := by
      simp only [blocksFootprint, Footprint.append_eq, Footprint.names, List.flatMap_append,
        List.mem_append] at h ⊢
      tauto
    rcases hcases with h | h
    · exact ⟨_, List.mem_cons_self, h⟩
    · obtain ⟨b, hb, hname⟩ := mem_names_of_blocks bs h
      exact ⟨b, List.mem_cons_of_mem _ hb, hname⟩
  | .function f :: bs, name, h => by
    have hcases : name ∈ (stmtsFootprint env [] f.body).names ∨
        name ∈ (blocksFootprint env bs).names := by
      simp only [blocksFootprint, Footprint.append_eq, Footprint.names, Footprint.close,
        List.flatMap_append, List.mem_append, List.flatMap_cons, List.flatMap_nil, List.append_nil,
        List.nil_append] at h ⊢
      tauto
    rcases hcases with h | h
    · exact ⟨_, List.mem_cons_self, h⟩
    · obtain ⟨b, hb, hname⟩ := mem_names_of_blocks bs h
      exact ⟨b, List.mem_cons_of_mem _ hb, hname⟩

theorem Footprint.mem_names_append {x y : Footprint} {name : String} :
    name ∈ (x ++ y).names ↔ name ∈ x.names ∨ name ∈ y.names := by
  simp only [Footprint.names, Footprint.append_eq, List.flatMap_append, List.mem_append]
  grind

/-- Variables are declared under names of the source. -/
theorem History.mem_names {x : Footprint} {out : List Ident} {log : List Event}
    (h : History env s s' x out log) : ∀ i, .declared i ∈ log → i.name ∈ x.names := by
  induction h with
  | trans _ _ ih ih' =>
    intro i hi
    exact Footprint.mem_names_append.mpr ((List.mem_append.mp hi).imp (ih i) (ih' i))
  | function _ _ ih =>
    intro i hi
    rcases List.mem_append.mp hi with hi | hi
    · have hmem := ih i hi
      simp only [Footprint.names, Footprint.close, List.flatMap_append, List.mem_append] at hmem ⊢
      simpa [or_comm] using hmem
    · obtain ⟨e, -, he⟩ := List.mem_map.mp hi
      cases he
  | _ => simp [Footprint.names]

/-- **Which variables with an underscore are declared**: those under which the local variables of
the functions in the table are stored. -/
theorem mem_vars_iff_storage {y x : Script} (hnames : Unmarked env y.blocks)
    (h : (script env y).run {} = .ok (x, p)) {v : String} (hv : isStorage v = true) :
    v ∈ p.symbols.vars ↔ v ∈ storageKeys p.functions := by
  have hplain : ∀ i : Ident, i.sigil.isSome = true → i.key = v →
      i.name ∉ (blocksFootprint env (initFirst y.blocks)).names := by
    intro i hi hkey hmem
    obtain ⟨rest, hrest⟩ := underscore_of_isStorage hi (hkey.symm ▸ hv)
    obtain ⟨b, hb, hname⟩ := mem_names_of_blocks _ hmem
    rcases Scheme.mem_initFirst hb with hb | rfl
    · exact hnames b hb _ hname rest hrest
    · cases hname
  obtain ⟨log, hlog⟩ := script_history h
  constructor
  · intro hmem
    -- Only the names of local variables are not written in the source.
    have hwritten : ∀ i : Ident, .declared i ∈ log → i.sigil.isSome = true → i.key ≠ v :=
      fun i hi hsigil hkey => hplain i hsigil hkey (History.mem_names hlog i hi)
    rcases hlog.books.vars v hmem with ⟨i, hi, hsigil, hkey⟩ | ⟨e, he, i, hi, hsigil, hkey⟩
    · rcases List.mem_append.mp hi with hi | hi
      · exact absurd hkey (hwritten i (History.mem_log hlog i hi) hsigil)
      · obtain ⟨e, he, hi⟩ := List.mem_flatMap.mp hi
        rw [FunctionEntry.declared, stmtsDeclared_append] at hi
        rcases List.mem_append.mp hi with hi | hi
        · exact absurd hkey (hwritten i ((hlog.books.table e he).globals i hi) hsigil)
        · exact List.mem_flatMap.mpr ⟨e, he, List.mem_map.mpr ⟨i, hi, hkey⟩⟩
    · exact absurd hkey (hwritten i ((hlog.books.replaced e he).globals i hi) hsigil)
  · exact fun hmem => hlog.stored.known v hmem

/-! ### Scripts -/

/-- The names of the functions of a script, as they are written. -/
def writtenNames (y : Script) : List String :=
  y.functions.foldl (fun names f => Name.insertNew names f.name.name) []

/-- **The definitions of the name of `o` stand in another order**, and everything else in its
place. -/
structure Rearranged (env : Env) (o : FunctionDef) (y y' : Script) : Prop where
  places : List.Forall₂ (SamePlace env o) y.blocks y'.blocks
  perm : y.blocks.Perm y'.blocks

/-- **Two programs in which `o` has overridden**, up to the numbers of local variables. -/
structure SameUpToNumbers (env : Env) (w : List String) (o : FunctionDef) (p p' : Program) :
    Prop where
  /-- The definition that is left is the one that overrides. -/
  survivor : ∃ e, p.function? (tableName env o) = some e ∧ IsLowered env w o e
  /-- The functions are the same. -/
  table : ∀ name, Option.Rel (fun e e' => ∃ pairs, Renumbered pairs e e')
    (p.function? name) (p'.function? name)
  /-- The variables that are not called like local ones are the same. -/
  kept : ∀ v, isStorage v = false → (v ∈ p.symbols.vars ↔ v ∈ p'.symbols.vars)
  /-- The other variables are the local ones of the functions. -/
  stored : ∀ v, isStorage v = true → (v ∈ p.symbols.vars ↔ v ∈ storageKeys p.functions) ∧
    (v ∈ p'.symbols.vars ↔ v ∈ storageKeys p'.functions)

/-- Two results of one kind: both are errors, or both are values that belong together. -/
inductive SameOutcome {ε α : Type} (R : α → α → Prop) : Except ε α → Except ε α → Prop
  | ok {a a' : α} (h : R a a') : SameOutcome R (.ok a) (.ok a')
  | error {e e' : ε} : SameOutcome R (.error e) (.error e')

theorem mem_writtenNames {y : Script} {name : String} :
    name ∈ writtenNames y ↔ ∃ f, .function f ∈ y.blocks ∧ f.name.name = name := by
  have hfold : ∀ (fs : List FunctionDef) (names : List String),
      name ∈ fs.foldl (fun names f => Name.insertNew names f.name.name) names ↔
        name ∈ names ∨ ∃ f ∈ fs, f.name.name = name := by
    intro fs
    induction fs with
    | nil => simp
    | cons f fs ih =>
      intro names
      rw [List.foldl_cons, ih, Name.mem_insertNew, List.exists_mem_cons_iff, or_assoc]
      simp only [eq_comm]
  have hfunctions : ∀ f, f ∈ y.functions ↔ .function f ∈ y.blocks := by
    intro f
    simp only [Script.functions, List.mem_filterMap]
    constructor
    · rintro ⟨b, hb, hf⟩
      cases b with
      | callback k => cases hf
      | function g =>
        cases hf
        exact hb
    · exact fun hf => ⟨_, hf, rfl⟩
  unfold writtenNames
  simp only [hfold, List.not_mem_nil, false_or, hfunctions]

theorem Rearranged.symm {y y' : Script} (h : Rearranged env o y y') : Rearranged env o y' y := by
  refine ⟨?_, h.perm.symm⟩
  refine List.Forall₂.flip (h.places.imp fun b b' hplace => ?_)
  exact hplace.imp Eq.symm And.symm

/-- **One order of the definitions is lowered if the other one is.** -/
theorem script_follows {y y' x : Script} (hrearranged : Rearranged env o y y')
    (hoverride : o.isOverride = true) (hnested : (stmtsFootprint env [] o.body).entered = [])
    (hw : ∀ name, name ∈ writtenNames y ↔ name ∈ w) (hy : Overridden env w o .nothing y.blocks)
    (hy' : Overridden env w o .nothing y'.blocks) (h : (script env y).run {} = .ok (x, p)) :
    ∃ p' s₀, (script env y').run {} = .ok (x, p') ∧
      Paired env w o s₀ .override .override p p' := by
  have hw' : ∀ name, name ∈ writtenNames y' ↔ name ∈ writtenNames y := by
    intro name
    simp only [mem_writtenNames, hrearranged.perm.mem_iff]
  unfold script at h
  simp only [StateT.run_bind, StateT.run_get, pure_bind] at h
  obtain ⟨⟨⟨bs, t⟩, p₁⟩, hrun, h⟩ := Except.bind_eq_ok.mp h
  cases h
  obtain ⟨hblocks, -⟩ := StateT.lift_eq_ok.mp hrun
  obtain ⟨s₀, ho⟩ := alone_of_blocks hoverride hnested _ (hy.initFirst.mem nofun) hw hblocks
  have hstart : Paired env w o s₀ .nothing .nothing { writtenNames := writtenNames y }
      { writtenNames := writtenNames y' } :=
    ⟨⟨hw', fun _ _ => .none, fun _ _ => Iff.rfl, rfl⟩, hw, rfl, rfl⟩
  obtain ⟨q, q', rfl, hblocks', hlast⟩ := blocks_follow ho (samePlace_initFirst hrearranged.places)
    hy.initFirst hy'.initFirst hstart hblocks
  refine ⟨q', s₀, ?_, hlast⟩
  unfold script
  simp only [StateT.run_bind, StateT.run_get, pure_bind]
  exact Except.bind_eq_ok.mpr ⟨((bs, ⟨q', none⟩), _), StateT.lift_eq_ok.mpr ⟨hblocks', rfl⟩, rfl⟩

/-- What two runs leave. -/
theorem Paired.sameUpToNumbers {y y' x : Script} (h : Paired env w o s₀ .override .override p p')
    (hnested : (stmtsFootprint env [] o.body).entered = []) (hnames : Unmarked env y.blocks)
    (hnames' : Unmarked env y'.blocks) (hrun : (script env y).run {} = .ok (x, p))
    (hrun' : (script env y').run {} = .ok (x, p')) : SameUpToNumbers env w o p p' where
  survivor := h.left
  table name := by
    by_cases hname : name = tableName env o
    · obtain ⟨e, he, hlowered⟩ := h.left
      obtain ⟨e', he', hlowered'⟩ := h.right
      rw [hname, he, he']
      exact .some (hlowered.renumbered hnested hlowered')
    · exact h.abreast.table name hname
  kept v hv := by simpa using h.abreast.vars v hv
  stored v hv := ⟨mem_vars_iff_storage hnames hrun hv, mem_vars_iff_storage hnames' hrun' hv⟩

/-- **The order of a definition that overrides and of those that leave no trace does not matter.**
Both orders are lowered or none is, and what is left of them is the same up to the numbers of local
variables. -/
theorem script_rearranged {y y' : Script} (hrearranged : Rearranged env o y y')
    (hoverride : o.isOverride = true) (hnested : (stmtsFootprint env [] o.body).entered = [])
    (hy : Overridden env (writtenNames y) o .nothing y.blocks)
    (hy' : Overridden env (writtenNames y) o .nothing y'.blocks) (hnames : Unmarked env y.blocks) :
    SameOutcome (fun r r' => r'.1 = r.1 ∧ SameUpToNumbers env (writtenNames y) o r.2 r'.2)
      ((script env y).run {}) ((script env y').run {}) := by
  have hnames' : Unmarked env y'.blocks := fun b hb => hnames b (hrearranged.perm.mem_iff.mpr hb)
  have hw' : ∀ name, name ∈ writtenNames y' ↔ name ∈ writtenNames y := by
    intro name
    simp only [mem_writtenNames, hrearranged.perm.mem_iff]
  cases hrun : (script env y).run {} with
  | ok r =>
    obtain ⟨x, p⟩ := r
    obtain ⟨p', s₀, hrun', hpaired⟩ :=
      script_follows hrearranged hoverride hnested (fun _ => Iff.rfl) hy hy' hrun
    rw [hrun']
    exact .ok ⟨rfl, hpaired.sameUpToNumbers hnested hnames hnames' hrun hrun'⟩
  | error err =>
    cases hrun' : (script env y').run {} with
    | error err' => exact .error
    | ok r' =>
      -- The other order would be lowered too.
      obtain ⟨x', p'⟩ := r'
      obtain ⟨p, s₀, hback, -⟩ :=
        script_follows hrearranged.symm hoverride hnested hw' hy' hy hrun'
      rw [hrun] at hback
      cases hback

/-- A function with the local variable `x`, which starts with a value. -/
def sampleFunction (name : String) (isOverride : Bool) (value : Int32) : FunctionDef where
  name := .ofText name .zero
  params := []
  result := none
  body := [.written (.declare ⟨.ofText "x" .zero, [], none, [],
    some (.single (.int value .zero))⟩) .zero]
  isTaskfunc := false
  isOverride := isOverride
  span := .zero

/-- The definition that overrides stands last. -/
def sampleBaseFirst : Script :=
  ⟨[.function (sampleFunction "f" false 1), .function (sampleFunction "g" false 2),
    .function (sampleFunction "f" true 3)]⟩

/-- The definition that overrides stands first. -/
def sampleOverrideFirst : Script :=
  ⟨[.function (sampleFunction "f" true 3), .function (sampleFunction "g" false 2),
    .function (sampleFunction "f" false 1)]⟩

theorem traceless_sample : Traceless ⟨{}, .empty⟩ ["f", "g"] (sampleFunction "f" false 1) where
  base := rfl
  nested := by decide +kernel
  lowered := by
    have hrun : ((function ⟨{}, .empty⟩ (sampleFunction "f" false 1)).run
        ⟨{ writtenNames := ["f", "g"] }, none⟩).toOption.any
          (fun r => r.2.program.symbols.vars.all isStorage) = true := by
      decide +kernel
    cases h : (function ⟨{}, .empty⟩ (sampleFunction "f" false 1)).run
        ⟨{ writtenNames := ["f", "g"] }, none⟩ with
    | error err => simp [h, Except.toOption] at hrun
    | ok r =>
      rw [h] at hrun
      exact ⟨r.2, rfl, List.all_eq_true.mp hrun⟩

/-- Both orders of the sample leave the same. -/
theorem sample_orders_agree :
    SameOutcome (fun r r' => r'.1 = r.1 ∧
        SameUpToNumbers ⟨{}, .empty⟩ (writtenNames sampleBaseFirst) (sampleFunction "f" true 3)
          r.2 r'.2)
      ((script ⟨{}, .empty⟩ sampleBaseFirst).run {})
      ((script ⟨{}, .empty⟩ sampleOverrideFirst).run {}) := by
  have hwritten : writtenNames sampleBaseFirst = ["f", "g"] := by decide +kernel
  have hname : tableName ⟨{}, .empty⟩ (sampleFunction "f" false 1) =
      tableName ⟨{}, .empty⟩ (sampleFunction "f" true 3) := by
    simp only [tableName, sampleFunction]
  have hdefines : Defines ⟨{}, .empty⟩ (sampleFunction "f" true 3)
      (.function (sampleFunction "f" false 1)) := ⟨sampleFunction "f" false 1, rfl, hname⟩
  have hdefines' : Defines ⟨{}, .empty⟩ (sampleFunction "f" true 3)
      (.function (sampleFunction "f" true 3)) := ⟨sampleFunction "f" true 3, rfl, rfl⟩
  have hplaces : List.Forall₂ (SamePlace ⟨{}, .empty⟩ (sampleFunction "f" true 3))
      sampleBaseFirst.blocks sampleOverrideFirst.blocks :=
    .cons (.inr ⟨hdefines, hdefines'⟩) (.cons (.inl rfl) (.cons (.inr ⟨hdefines', hdefines⟩) .nil))
  have hother : ∀ f, Block.function (sampleFunction "g" false 2) = .function f →
      tableName ⟨{}, .empty⟩ f ≠ tableName ⟨{}, .empty⟩ (sampleFunction "f" true 3) := by
    rintro f ⟨⟩
    decide +kernel
  refine script_rearranged ⟨hplaces, (List.reverse_perm sampleBaseFirst.blocks).symm⟩ rfl
    (by decide +kernel) ?_ ?_ ?_
  · rw [hwritten]
    exact .definition (.base hname traceless_sample) (.other hother (by decide +kernel)
      (.definition (.override (by decide)) .done))
  · rw [hwritten]
    exact .definition (.override (by decide)) (.other hother (by decide +kernel)
      (.definition (.skipped hname traceless_sample) .done))
  · have hplain : ∀ b ∈ sampleBaseFirst.blocks,
        ∀ name ∈ (stmtsFootprint ⟨{}, .empty⟩ [] b.body).names, name.toList.head? ≠ some '_' := by
      decide +kernel
    intro b hb name hname rest hrest
    exact hplain b hb name hname (by rw [hrest, List.head?_cons])

/-- The definition that overrides is kept in both orders. -/
example :
    ((script ⟨{}, .empty⟩ sampleBaseFirst).run {}).toOption.map
        (fun r => r.2.functions.map fun e => (e.name, e.fn.isOverride)) =
      some [("f", true), ("g", false)] ∧
    ((script ⟨{}, .empty⟩ sampleOverrideFirst).run {}).toOption.map
        (fun r => r.2.functions.map fun e => (e.name, e.fn.isOverride)) =
      some [("f", true), ("g", false)] := by
  decide +kernel

end FlatScript.Lowering
