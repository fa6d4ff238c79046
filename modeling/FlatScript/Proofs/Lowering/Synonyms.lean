import FlatScript.Proofs.Inlining.Synonyms
import FlatScript.Proofs.Lowering.Abreast
import FlatScript.Proofs.Passes

/-!
# Where the functions of a property come from

A property that stands for a variable is declared in the init callback. Lowering enters the two
functions of the property there, with the variable under its namespaces, and nothing that is lowered
later takes them out of the table, unless a function is entered under one of their names. Then the
references in their bodies get their sigils.

* `FlatScript.Lowering.tableKept` says that functions stay in the table.
* `FlatScript.Lowering.script_synonymous` is the statement on scripts that are lowered.
* `FlatScript.Lowering.Synonymous.standsFor` adds the sigils.
-/

namespace FlatScript

namespace Lowering

variable {env : Env} {s s' : State} {f : FunctionDef}

/-! ### The table -/

/-- The ledger of the table of functions: a function stays what it is unless one is entered under its
name. -/
def tableKept (env : Env) : Ledger env where
  rel s s' x _ := ∀ name, name ∉ x.entered.map Prod.fst →
    s'.program.function? name = s.program.function? name
  refl _ _ _ _ := rfl
  trans h h' name hname := by
    rw [Footprint.append_eq, List.map_append, List.mem_append, not_or] at hname
    exact (h' name hname.2).trans (h name hname.1)
  symbols _ _ _ _ := rfl
  declared _ _ _ := rfl
  promoted _ _ _ := rfl
  framed _ _ := rfl
  renamed _ _ := rfl
  function hfn h name hname := by
    simp only [Footprint.close, List.map_append, List.map_cons, List.map_nil, List.mem_append,
      List.mem_singleton, not_or] at hname
    rw [function?_enter, if_neg, h name hname.1]
    rintro rfl
    exact hname.2 (congrArg (·.name.name) hfn)

theorem enter_properties (p : Program) (e : FunctionEntry) :
    (enter p e).symbols.properties = p.symbols.properties :=
  (removeVariables_kept ..).2

/-- The ledger of properties: they stay known. -/
def propertiesKept (env : Env) : Ledger env where
  rel s s' _ _ := ∀ name ∈ s.program.symbols.properties, name ∈ s'.program.symbols.properties
  refl _ _ _ hname := hname
  trans h h' name hname := h' name (h name hname)
  symbols _ hproperties _ hname := hproperties hname
  declared _ _ hname := hname
  promoted _ _ hname := hname
  framed _ hname := hname
  renamed _ hname := hname
  function _ h name hname := by
    rw [enter_properties]
    exact h name hname

/-- A function with one assignment in its body, resolved. -/
def assigning (r : Refs) (e : FunctionEntry) (t : VarRef) (v : Expr) (span : Span) : FunctionEntry :=
  { e with fn := { e.fn with body := [⟨.assign (varRef r t) (expr r v), span, []⟩] } }

/-- A function whose body is one assignment, entered. -/
theorem functionWith_assign {t : VarRef} {v : Expr} {span : Span}
    (h : (functionWith env f do return [← assignment env t v span []]).run s = .ok ((), s'))
    (hfree : s.program.function? (tableName env f) = none) :
    s' = ⟨enter s.program (assigning (refsOf env s.program.writtenNames (some (opened env f)))
      (opened env f) t v span), s.current⟩ := by
  have hentry : entryFor s.program { f with name := f.name.qualifyDeclared env.lines } = .free := by
    unfold tableName at hfree
    simp only [entryFor, hfree]
  rw [functionWith_run, hentry] at h
  split at h
  · cases h
  · cases h
    rfl

/-! ### The functions of a property -/

/-- A name that does not begin like a sigil does not with something after it. -/
theorem split_property {property kind : String} (hbare : (Sigil.split property).1 = none)
    (hkind : kind ∈ [".get", ".set"]) :
    Sigil.split (property ++ kind) = (none, property ++ kind) := by
  simp only [Sigil.split, String.toList_append] at hbare ⊢
  cases hname : property.toList with
  | nil =>
    simp only [List.mem_cons, List.not_mem_nil, or_false] at hkind
    rcases hkind with rfl | rfl <;> rfl
  | cons c cs =>
    rw [hname] at hbare
    cases hc : Sigil.ofChar? c with
    | none => simp only [List.cons_append, hc]
    | some sigil => simp only [hc] at hbare; cases hbare

theorem tableName_synonymGetter {property : String} (hbare : (Sigil.split property).1 = none)
    (indices : List Ident) (span : Span) :
    tableName env (synonymGetter property indices span) = property ++ ".get" := by
  rw [tableName, Ident.qualifyDeclared, if_pos (by rfl), synonymGetter, Ident.fixed, Ident.ofText,
    split_property hbare (by simp)]

theorem tableName_synonymSetter {property : String} (hbare : (Sigil.split property).1 = none)
    (indices : List Ident) (span : Span) :
    tableName env (synonymSetter property indices span) = property ++ ".set" := by
  rw [tableName, Ident.qualifyDeclared, if_pos (by rfl), synonymSetter, Ident.fixed, Ident.ofText,
    split_property hbare (by simp)]

/-- What the references of the function that reads a property are resolved by. -/
def readerRefs (env : Env) (written : List String) (property : String) (indices : List Ident)
    (span : Span) : Refs :=
  refsOf env written (some (opened env (synonymGetter property indices span)))

/-- What the references of the function that writes a property are resolved by. -/
def writerRefs (env : Env) (written : List String) (property : String) (indices : List Ident)
    (span : Span) : Refs :=
  refsOf env written (some (opened env (synonymSetter property indices span)))

/-- An invented name is that of a parameter, and keeps its spelling. -/
theorem varRef_invented {r : Refs} {name : String} (hmem : name ∈ Inlining.invented)
    (hparams : name ∈ r.params) (hbuiltin : r.env.builtins.isFunction name = false)
    (hnone : r.substitutions = []) (span : Span) :
    varRef r (.plain (.ofText name span)) = .plain (.fixed name span) := by
  have hsplit : ∀ n ∈ Inlining.invented, Sigil.split n = (none, n) := by decide
  have hident : Ident.ofText name span = ⟨none, name, span, false⟩ := by
    rw [Ident.ofText, hsplit name hmem]
  have hkeeps : (Ident.ofText name span).keepsName r.env.builtins r.written r.params = true := by
    rw [hident, Ident.keepsName, hbuiltin]
    simp [Ident.full, Inlining.firstPart_invented name hmem, hparams]
  have hqualify : r.qualify (Ident.ofText name span) = .fixed name span := by
    rw [Refs.qualify, Ident.qualify]
    simp only [hkeeps, Bool.or_true, if_true]
    rw [hident, Inlining.fixed_of_invented hmem]
    rfl
  simp only [varRef, VarRef.plain, Refs.varRef, hqualify, Refs.substitute?, hnone, List.lookup_nil]
  rfl

theorem expr_toExpr (r : Refs) (v : VarRef) : expr r v.toExpr = (varRef r v).toExpr := by
  simp only [VarRef.toExpr, expr, varRef]

/-- **The functions that are entered** for a property that stands for a variable. -/
theorem synonym_defines {property : String} {indices : List Ident} {target : VarRef} {span : Span}
    (h : (synonym env property indices target span).run s = .ok ((), s'))
    (hbare : (Sigil.split property).1 = none)
    (hfree : s.program.function? (property ++ ".get") = none)
    (hfree' : s.program.function? (property ++ ".set") = none)
    (hbuiltin : ∀ n ∈ Inlining.invented, env.builtins.isFunction n = false) :
    s'.program.Defines (property ++ ".get") (synonymReader property indices
      (varRef (readerRefs env s.program.writtenNames property indices span) target) span) ∧
    s'.program.Defines (property ++ ".set") (synonymWriter property indices
      (varRef (writerRefs env s.program.writtenNames property indices span) target) span) := by
  obtain ⟨⟨⟩, s₁, hgetter, hsetter⟩ := StateT.bind_eq_ok.mp h
  have hkept : ∀ name, (Ident.fixed name span).qualifyDeclared env.lines = .fixed name span :=
    fun _ => if_pos rfl
  have hres : varRef (readerRefs env s.program.writtenNames property indices span)
      (.plain (.ofText "result" span)) = .plain (.fixed "result" span) := by
    refine varRef_invented (by decide) ?_ (hbuiltin _ (by decide)) rfl span
    simp [readerRefs, refsOf, opened, synonymGetter, FunctionDef.paramNames]
  have hval : varRef (writerRefs env s.program.writtenNames property indices span)
      (.plain (.ofText "value_to_set" span)) = .plain (.fixed "value_to_set" span) := by
    refine varRef_invented (by decide) ?_ (hbuiltin _ (by decide)) rfl span
    simp [writerRefs, refsOf, opened, synonymSetter, FunctionDef.paramNames]
  have hget : tableName env (synonymGetter property indices span) = property ++ ".get" :=
    tableName_synonymGetter hbare indices span
  have hset : tableName env (synonymSetter property indices span) = property ++ ".set" :=
    tableName_synonymSetter hbare indices span
  -- The reader is entered first, and then the writer.
  have hs₁ := functionWith_assign hgetter (hget ▸ hfree)
  have hread : s₁.program.Defines (property ++ ".get") (synonymReader property indices
      (varRef (readerRefs env s.program.writtenNames property indices span) target) span) := by
    rw [hs₁]
    refine ⟨_, (function?_enter ..).trans (if_pos hget.symm), ?_, rfl, rfl⟩
    rw [← readerRefs, assigning, hres, expr_toExpr]
    simp only [opened, hkept, synonymReader, synonymGetter]
  have hwritten : s₁.program.writtenNames = s.program.writtenNames := by
    rw [hs₁]
    exact enter_writtenNames _ _
  have hne : property ++ ".set" ≠ property ++ ".get" := fun h =>
    absurd (String.append_right_inj property |>.mp h) (by decide)
  have hfree₁ : s₁.program.function? (property ++ ".set") = none := by
    rw [hs₁]
    refine (function?_enter ..).trans ((if_neg fun h => hne (h.trans hget)).trans hfree')
  have hs' := functionWith_assign hsetter (hset ▸ hfree₁)
  rw [hwritten] at hs'
  rw [hs']
  constructor
  · obtain ⟨e, he, hentry⟩ := hread
    exact ⟨e, (function?_enter ..).trans ((if_neg fun h => hne (h.trans hset).symm).trans he), hentry⟩
  · refine ⟨_, (function?_enter ..).trans (if_pos hset.symm), ?_, rfl, rfl⟩
    rw [← writerRefs, assigning, expr_toExpr, hval]
    simp only [opened, hkept, synonymWriter, synonymSetter]

/-! ### Scripts -/

/-- A list of statements is lowered up to a statement, and from there. -/
theorem stmts_split {families : List String} {x : Stmt} {after : List Stmt} :
    ∀ (before : List Stmt) {s s' : State} {r : List Stmt},
      (stmts env families (before ++ x :: after)).run s = .ok (r, s') →
      ∃ r₁ s₁ r₂ s₂ r₃, (stmts env families before).run s = .ok (r₁, s₁) ∧
        (stmt env families x).run s₁ = .ok (r₂, s₂) ∧
        (stmts env families after).run s₂ = .ok (r₃, s')
  | [], s, s', r, h => by
    simp only [List.nil_append, stmts] at h
    obtain ⟨r₂, s₂, hx, h⟩ := StateT.bind_eq_ok.mp h
    obtain ⟨r₃, s₃, hafter, h⟩ := StateT.bind_eq_ok.mp h
    cases h
    exact ⟨[], s, r₂, s₂, r₃, by simp only [stmts]; rfl, hx, hafter⟩
  | y :: before, s, s', r, h => by
    simp only [List.cons_append, stmts] at h ⊢
    obtain ⟨first, s₀, hy, h⟩ := StateT.bind_eq_ok.mp h
    obtain ⟨rest, s₃, hrest, h⟩ := StateT.bind_eq_ok.mp h
    cases h
    obtain ⟨r₁, s₁, r₂, s₂, r₃, hbefore, hx, hafter⟩ := stmts_split before hrest
    refine ⟨first ++ r₁, s₁, r₂, s₂, r₃, ?_, hx, hafter⟩
    exact StateT.bind_eq_ok.mpr ⟨first, s₀, hy, StateT.bind_eq_ok.mpr ⟨r₁, s₁, hbefore, rfl⟩⟩

/-- **A statement stands among others**, or in a family among them, and so on. The families around
are the given ones outside, and `inside` where the statement stands. -/
inductive StandsIn (env : Env) (x : Stmt) : List String → List String → List Stmt → Prop
  | here {families : List String} {ss : List Stmt} (hx : x ∈ ss) : StandsIn env x families families ss
  | family {families inside : List String} {name : Ident} {body ss : List Stmt} {span : Span}
    {trace : List Span} (hmem : ⟨.family name body, span, trace⟩ ∈ ss)
    (hbody : StandsIn env x (openFamily env families name) inside body) :
    StandsIn env x families inside ss

/-- **The functions of a property are in the table**, and the property is known. -/
structure Synonymous (env : Env) (p : Program) (property : String) (indices : List Ident)
    (target : VarRef) (span : Span) : Prop where
  reader : p.Defines (property ++ ".get") (synonymReader property indices
    (varRef (readerRefs env p.writtenNames property indices span) target) span)
  writer : p.Defines (property ++ ".set") (synonymWriter property indices
    (varRef (writerRefs env p.writtenNames property indices span) target) span)
  known : property ∈ p.symbols.properties

/-- The names of the two functions of a property. -/
def accessorNames (property : String) : List String := [property ++ ".get", property ++ ".set"]

/-- Functions with other names may be entered. -/
theorem Synonymous.kept {p' : Program} {property : String} {indices : List Ident} {target : VarRef}
    {span : Span} (h : Synonymous env p property indices target span)
    (hfunctions : ∀ name ∈ accessorNames property, p'.function? name = p.function? name)
    (hnames : p'.writtenNames = p.writtenNames)
    (hproperties : ∀ name ∈ p.symbols.properties, name ∈ p'.symbols.properties) :
    Synonymous env p' property indices target span := by
  constructor
  · rw [hnames]
    obtain ⟨e, he, hentry⟩ := h.reader
    exact ⟨e, (hfunctions _ (by simp [accessorNames])).trans he, hentry⟩
  · rw [hnames]
    obtain ⟨e, he, hentry⟩ := h.writer
    exact ⟨e, (hfunctions _ (by simp [accessorNames])).trans he, hentry⟩
  · exact hproperties _ h.known

section Declared

variable {name : Ident} {indices : List Ident} {target : VarRef} {span : Span} {trace : List Span}
  {families inside : List String} {property : String}

/-- No function of the property is in the table yet. -/
def Unentered (p : Program) (property : String) : Prop :=
  ∀ name ∈ accessorNames property, p.function? name = none

/-- **The two functions of a property are entered once each**, by a piece of the source. -/
def EntersOnce (x : Footprint) (property : String) : Prop :=
  ∀ name ∈ accessorNames property, (x.entered.map Prod.fst).count name = 1

/-- A property is declared where no functions have the names of its own. -/
theorem stmt_synonymous (hproperty : (declaredName env families name).name = property)
    (hbare : (Sigil.split property).1 = none)
    (hbuiltin : ∀ n ∈ Inlining.invented, env.builtins.isFunction n = false) {r : List Stmt}
    (h : (stmt env families ⟨.synonym name indices target, span, trace⟩).run s = .ok (r, s'))
    (hfree : Unentered s.program property) :
    Synonymous env s'.program property indices target span := by
  have hnames := (Ledger.stmt_obeys (L := namesKept env) families _ _ _ _ h).rel
  simp only [stmt] at h
  obtain ⟨⟨⟩, s₁, hentered, hsymbols⟩ := StateT.bind_eq_ok.mp h
  cases hsymbols
  rw [hproperty] at hentered
  obtain ⟨hreader, hwriter⟩ := synonym_defines hentered hbare (hfree _ (by simp [accessorNames]))
    (hfree _ (by simp [accessorNames])) hbuiltin
  change s₁.program.writtenNames = s.program.writtenNames at hnames
  rw [← hnames] at hreader hwriter
  refine ⟨hreader, hwriter, ?_⟩
  rw [← hproperty]
  exact Name.mem_insertNew.mpr (.inr rfl)

/-- What is entered once, and in one piece of the source, is entered in no other. -/
theorem EntersOnce.within {x y z : Footprint} (h : EntersOnce (x ++ (y ++ z)) property)
    (hy : ∀ name ∈ accessorNames property, name ∈ y.entered.map Prod.fst) :
    EntersOnce y property ∧ (∀ name ∈ accessorNames property, name ∉ x.entered.map Prod.fst) ∧
      ∀ name ∈ accessorNames property, name ∉ z.entered.map Prod.fst := by
  have hcount : ∀ name ∈ accessorNames property, (x.entered.map Prod.fst).count name = 0 ∧
      (y.entered.map Prod.fst).count name = 1 ∧ (z.entered.map Prod.fst).count name = 0 := by
    intro name hname
    have hpos := List.count_pos_iff.mpr (hy name hname)
    have honce := h name hname
    simp only [Footprint.append_eq, List.map_append, List.count_append] at honce
    omega
  exact ⟨fun name hname => (hcount name hname).2.1,
    fun name hname => List.count_eq_zero.mp (hcount name hname).1,
    fun name hname => List.count_eq_zero.mp (hcount name hname).2.2⟩

theorem stmtsFootprint_append (ss ss' : List Stmt) : stmtsFootprint env families (ss ++ ss') =
    stmtsFootprint env families ss ++ stmtsFootprint env families ss' := by
  induction ss with
  | nil => simp [stmtsFootprint, Footprint.append_eq]
  | cons s ss ih => rw [List.cons_append, stmtsFootprint, ih, stmtsFootprint, Footprint.append_assoc]

theorem mem_entered_of_mem {x : Stmt} {ss : List Stmt} {n : String} (hx : x ∈ ss)
    (hn : n ∈ (stmtFootprint env families x).entered.map Prod.fst) :
    n ∈ (stmtsFootprint env families ss).entered.map Prod.fst := by
  obtain ⟨before, after, rfl⟩ := List.append_of_mem hx
  rw [stmtsFootprint_append, stmtsFootprint]
  simp only [Footprint.append_eq, List.map_append, List.mem_append]
  exact .inr (.inl hn)

theorem synonym_mem_entered (hbare : (Sigil.split (declaredName env families name).name).1 = none) :
    ∀ n ∈ accessorNames (declaredName env families name).name,
      n ∈ (stmtFootprint env families ⟨.synonym name indices target, span, trace⟩).entered.map
        Prod.fst := by
  intro n hn
  simpa [stmtFootprint, Footprint.close, Footprint.append_eq, tableName_synonymGetter hbare,
    tableName_synonymSetter hbare, accessorNames] using hn

/-- The functions of a property are entered where it stands. -/
theorem StandsIn.mem_entered {ss : List Stmt}
    (h : StandsIn env ⟨.synonym name indices target, span, trace⟩ families inside ss)
    (hbare : (Sigil.split (declaredName env inside name).name).1 = none) :
    ∀ n ∈ accessorNames (declaredName env inside name).name,
      n ∈ (stmtsFootprint env families ss).entered.map Prod.fst := by
  intro n hn
  induction h with
  | here hx => exact mem_entered_of_mem hx (synonym_mem_entered hbare n hn)
  | family hx _ ih => exact mem_entered_of_mem hx (by rw [stmtFootprint]; exact ih hbare hn)

/-- What stands before and after the statement that declares a property enters other functions. -/
theorem stmts_synonymous_of_stmt {x : Stmt} {ss : List Stmt} {r : List Stmt} (hx : x ∈ ss)
    (h : (stmts env families ss).run s = .ok (r, s')) (hfree : Unentered s.program property)
    (honce : EntersOnce (stmtsFootprint env families ss) property)
    (hentered : ∀ n ∈ accessorNames property,
      n ∈ (stmtFootprint env families x).entered.map Prod.fst)
    (hstmt : ∀ s₁ s₂ r₂, (stmt env families x).run s₁ = .ok (r₂, s₂) →
      Unentered s₁.program property → EntersOnce (stmtFootprint env families x) property →
      Synonymous env s₂.program property indices target span) :
    Synonymous env s'.program property indices target span := by
  obtain ⟨before, after, rfl⟩ := List.append_of_mem hx
  rw [stmtsFootprint_append, stmtsFootprint] at honce
  obtain ⟨r₁, s₁, r₂, s₂, r₃, hbefore, hrun, hafter⟩ := stmts_split before h
  obtain ⟨honce₂, hnone₁, hnone₃⟩ := honce.within hentered
  have hkept₁ := (Ledger.stmts_obeys (L := tableKept env) families before _ _ _ hbefore).rel
  refine (hstmt s₁ s₂ r₂ hrun (fun n hn => (hkept₁ n (hnone₁ n hn)).trans (hfree n hn)) honce₂).kept
    (fun n hn => ?_) ?_ ?_
  · exact (Ledger.stmts_obeys (L := tableKept env) families after _ _ _ hafter).rel n (hnone₃ n hn)
  · exact (Ledger.stmts_obeys (L := namesKept env) families after _ _ _ hafter).rel
  · exact (Ledger.stmts_obeys (L := propertiesKept env) families after _ _ _ hafter).rel

/-- **The functions of a property are in the table after the statements that declare it**, if they
are entered nowhere else. -/
theorem stmts_synonymous {ss : List Stmt}
    (hstands : StandsIn env ⟨.synonym name indices target, span, trace⟩ families inside ss)
    (hproperty : (declaredName env inside name).name = property)
    (hbare : (Sigil.split property).1 = none)
    (hbuiltin : ∀ n ∈ Inlining.invented, env.builtins.isFunction n = false) :
    ∀ {s s' : State} {r : List Stmt}, (stmts env families ss).run s = .ok (r, s') →
      Unentered s.program property → EntersOnce (stmtsFootprint env families ss) property →
      Synonymous env s'.program property indices target span := by
  subst hproperty
  induction hstands with
  | here hx =>
    intro s s' r h hfree honce
    exact stmts_synonymous_of_stmt hx h hfree honce (synonym_mem_entered hbare)
      fun s₁ s₂ r₂ hrun hfree₁ _ => stmt_synonymous rfl hbare hbuiltin hrun hfree₁
  | family hx hbody ih =>
    intro s s' r h hfree honce
    refine stmts_synonymous_of_stmt hx h hfree honce ?_ fun s₁ s₂ r₂ hrun hfree₁ honce₁ => ?_
    · rw [stmtFootprint]
      exact hbody.mem_entered hbare
    · simp only [stmt] at hrun
      obtain ⟨_, _, hsymbols, hrun⟩ := StateT.bind_eq_ok.mp hrun
      cases hsymbols
      rw [stmtFootprint] at honce₁
      exact ih hbare hrun hfree₁ honce₁

end Declared

/-- **The init callback declares a property for a variable**, with families around the declaration
or not. -/
def DeclaresSynonym (env : Env) (y : Script) (property : String) (indices : List Ident)
    (target : VarRef) (span : Span) : Prop :=
  ∃ c rest name trace inside, initFirst y.blocks = .callback c :: rest ∧
    StandsIn env ⟨.synonym name indices target, span, trace⟩ [] inside c.body ∧
    (declaredName env inside name).name = property

/-- **The functions of a property that the init callback declares are in the table** in the end, if no
other function is entered under their names. -/
theorem script_synonymous {y y' : Script} {p : Program} (h : (script env y).run {} = .ok (y', p))
    {property : String} {indices : List Ident} {target : VarRef} {span : Span}
    (hdeclares : DeclaresSynonym env y property indices target span)
    (hbare : (Sigil.split property).1 = none)
    (honce : EntersOnce (blocksFootprint env (initFirst y.blocks)) property)
    (hbuiltin : ∀ n ∈ Inlining.invented, env.builtins.isFunction n = false) :
    Synonymous env p property indices target span := by
  obtain ⟨c, rest, name, trace, inside, hblocks, hstands, hproperty⟩ := hdeclares
  subst hproperty
  rw [hblocks, blocksFootprint] at honce
  unfold script at h
  simp only [StateT.run_bind, StateT.run_get, pure_bind, hblocks] at h
  obtain ⟨⟨⟨bs, s'⟩, p₁⟩, hrun, h⟩ := Except.bind_eq_ok.mp h
  cases h
  obtain ⟨hrun, -⟩ := StateT.lift_eq_ok.mp hrun
  simp only [blocks] at hrun
  obtain ⟨_, _, hrefs, hrun⟩ := StateT.bind_eq_ok.mp hrun
  rw [refs_run] at hrefs
  cases hrefs
  obtain ⟨body, s₁, hstmts, hrun⟩ := StateT.bind_eq_ok.mp hrun
  obtain ⟨bs', s₂, hrest, hrun⟩ := StateT.bind_eq_ok.mp hrun
  cases hrun
  have hnone : s₁.current = none := by
    simpa using (Ledger.stmts_obeys (L := tableKept env) [] _ _ _ _ hstmts).fn
  obtain ⟨honce₁, -, hnone₂⟩ := honce.within (x := {}) (hstands.mem_entered hbare)
  refine (stmts_synonymous hstands rfl hbare hbuiltin hstmts (fun _ _ => rfl) honce₁).kept
    (fun n hn => ?_) ?_ ?_
  · exact (Ledger.blocks_step (L := tableKept env) rest hrest hnone).rel n (hnone₂ n hn)
  · exact (Ledger.blocks_step (L := namesKept env) rest hrest hnone).rel
  · exact (Ledger.blocks_step (L := propertiesKept env) rest hrest hnone).rel

end Lowering

/-! ### Sigils -/

namespace Sigils

variable {env : Env} {p : Program}

/-- A parameter without a sigil stays as it is. -/
theorem varRef_param {scope : Scope} {name : String} (hmem : name ∈ Inlining.invented)
    (hparam : name ∈ scope.params) (span : Span) :
    varRef env p scope (.plain (.fixed name span)) = .ok (.plain (.fixed name span)) := by
  have hfree : isSigilFree env.builtins p scope.params name = true := by
    simp [isSigilFree, isParam, Inlining.firstPart_invented name hmem, hparam]
  rw [Inlining.fixed_of_invented hmem]
  simp only [varRef, VarRef.plain, exprs, ident, resolve, hfree, if_true]
  rfl

/-- A reference gets its sigil as an expression like as a target. -/
theorem expr_toExpr (scope : Scope) (v : VarRef) :
    expr env p scope v.toExpr = (varRef env p scope v).map VarRef.toExpr := by
  simp only [VarRef.toExpr, expr, varRef]
  cases exprs env p scope v.subscripts with
  | error e => rfl
  | ok es =>
    cases hident : ident env p scope v.ident (!es.isEmpty) with
    | error e => simp only [bind, Except.bind, hident]; rfl
    | ok i => simp only [bind, Except.bind, hident]; rfl

/-- A function is found where it was before its references got their sigils. -/
theorem entry_of_function? {name : String} {e : FunctionEntry} :
    ∀ {es es' : List FunctionEntry}, List.Forall₂ (fun e e' => entry env p e = .ok e') es es' →
      (es.find? fun e => e.name == name) = some e →
      ∃ e', (es'.find? fun e => e.name == name) = some e' ∧ entry env p e = .ok e'
  | _, _, .nil, h => nomatch h
  | e₀ :: es, e₀' :: es', .cons hentry hrest, h => by
    have hname : e₀'.name = e₀.name := by
      obtain ⟨body, globals, locals, -, -, -, rfl⟩ := entry_eq_ok hentry
      rfl
    cases hfound : e₀.name == name with
    | true =>
      simp only [List.find?_cons, hfound] at h
      cases h
      exact ⟨e₀', by simp only [List.find?_cons, hname, hfound], hentry⟩
    | false =>
      simp only [List.find?_cons, hfound] at h
      obtain ⟨e', he', hentry'⟩ := entry_of_function? hrest h
      exact ⟨e', by simpa only [List.find?_cons, hname, hfound] using he', hentry'⟩

/-- **A function with one assignment** in its body, and no declarations besides, gets the sigils of
the two sides. -/
theorem defines_assign {q : Program} {functions : List FunctionEntry} {name : String} {f : FunctionDef}
    {x x' : VarRef} {v v' : Expr} {span : Span}
    (h : List.Forall₂ (fun e e' => entry env p e = .ok e') p.functions functions)
    (hq : q.functions = functions)
    (hdef : p.Defines name { f with body := [⟨.assign x v, span, []⟩] })
    (hx : varRef env p ⟨f.paramNames, []⟩ x = .ok x') (hv : expr env p ⟨f.paramNames, []⟩ v = .ok v') :
    q.Defines name { f with body := [⟨.assign x' v', span, []⟩] } := by
  obtain ⟨e, he, hfn, hglobals, hlocals⟩ := hdef
  obtain ⟨e', he', hentry⟩ := entry_of_function? h he
  obtain ⟨body, globals, locals, hbody, hglobals', hlocals', rfl⟩ := entry_eq_ok hentry
  rw [hglobals] at hglobals'
  rw [hlocals] at hlocals'
  cases hglobals'
  cases hlocals'
  refine ⟨_, hq ▸ he', ?_, rfl, rfl⟩
  have hparams : e.fn.paramNames = f.paramNames := by rw [hfn]; rfl
  rw [hparams, hfn] at hbody
  simp only [mapLeavesStmts, Stmt.mapLeaves, leafMap, hx, hv] at hbody
  cases hbody
  rw [hfn]

end Sigils

/-! ### Both passes -/

/-- **The functions of a property have their sigils** when the references of the script have theirs, if
what is written for the variable means the same in both of them. -/
theorem Lowering.Synonymous.standsFor {env : Env} {y₁ y₂ : Script} {p₁ p₂ : Program} {property : String}
    {indices : List Ident} {written target : VarRef} {span : Span}
    (h : Lowering.Synonymous env p₁ property indices written span)
    (hsigils : (Sigils.script env y₁).run p₁ = .ok (y₂, p₂))
    (hreader : Sigils.varRef env p₁ ⟨(Lowering.synonymGetter property indices span).paramNames, []⟩
      (Lowering.varRef (Lowering.readerRefs env p₁.writtenNames property indices span) written) =
        .ok target)
    (hwriter : Sigils.varRef env p₁ ⟨(Lowering.synonymSetter property indices span).paramNames, []⟩
      (Lowering.varRef (Lowering.writerRefs env p₁.writtenNames property indices span) written) =
        .ok target) :
    p₂.StandsFor property indices target := by
  obtain ⟨-, functions, rfl, hfunctions⟩ := Sigils.script_run hsigils
  refine ⟨⟨span, Sigils.defines_assign hfunctions rfl h.reader ?_ ?_⟩,
    ⟨span, Sigils.defines_assign hfunctions rfl h.writer hwriter ?_⟩⟩
  · refine Sigils.varRef_param (by decide) ?_ span
    simp [Lowering.synonymGetter, FunctionDef.paramNames]
  · rw [Sigils.expr_toExpr, hreader]
    rfl
  · rw [Sigils.expr_toExpr, Sigils.varRef_param (by decide) ?_ span]
    · rfl
    · simp [Lowering.synonymSetter, FunctionDef.paramNames]

end FlatScript
