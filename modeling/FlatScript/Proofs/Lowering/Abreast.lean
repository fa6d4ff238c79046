import FlatScript.Proofs.Lowering.Faults
import FlatScript.Proofs.Lowering.Numbering

/-!
# Two runs of lowering

Lowering a body does not look at the variables that are declared by then, except to number local
variables. So two runs over the same statements go abreast: where one succeeds, the other does, and
what they leave is the same up to numbers.

The states need not be the same for that. `FlatScript.Lowering.Contrast` says under which names the
tables have to agree, which is needed for the functions of properties only, and which variables one
of the runs has declared and the other has not. The walk ends in
`FlatScript.Lowering.stmts_follows`.
-/

namespace FlatScript.Lowering

/-! ### Two runs -/

/-- **What two runs of lowering have in common.** -/
structure Contrast where
  /-- The names under which their tables have the same functions. -/
  known : String → Prop
  /-- The variables that only the second run has declared. -/
  left : String → Prop
  /-- The variables that only the first run has declared. -/
  right : String → Prop

/-- The functions around the statements at hand. -/
def Around (pairs : List (Ident × Ident)) : Option FunctionEntry → Option FunctionEntry → Prop
  | none, none => pairs = []
  | some e, some e' => Renumbered pairs e e'
  | _, _ => False

/-- **The states of two runs**, up to the names of local variables. -/
structure Abreast (c : Contrast) (pairs : List (Ident × Ident)) (s s' : State) : Prop where
  written : ∀ name, name ∈ s'.program.writtenNames ↔ name ∈ s.program.writtenNames
  table : ∀ name, c.known name → Option.Rel (fun e e' => ∃ pairs, Renumbered pairs e e')
    (s.program.function? name) (s'.program.function? name)
  vars : ∀ v, isStorage v = false →
    (v ∈ s.program.symbols.vars ∨ c.left v ↔ v ∈ s'.program.symbols.vars ∨ c.right v)
  around : Around pairs s.current s'.current

/-- **A step of one run is followed by a step of the other.** The results are told by the names
that local variables have by then. -/
def Follows {α : Type} (c : Contrast) (Q : List (Ident × Ident) → α → α → Prop)
    (pairs : List (Ident × Ident)) (s s' : State) (x x' : Lower α) : Prop :=
  ∀ a t, x.run s = .ok (a, t) → ∃ a' t' more, x'.run s' = .ok (a', t') ∧
    Abreast c (pairs ++ more) t t' ∧ Q (pairs ++ more) a a'

section Follows

variable {α β : Type} {env : Env} {c : Contrast} {pairs : List (Ident × Ident)} {s s' : State}
  {Q : List (Ident × Ident) → α → α → Prop} {R : List (Ident × Ident) → β → β → Prop}

theorem Follows.ret {a a' : α} (h : Abreast c pairs s s') (hQ : Q pairs a a') :
    Follows c Q pairs s s' (pure a) (pure a') := by
  rintro b t ⟨⟩
  exact ⟨a', s', [], rfl, by simpa using h, by simpa using hQ⟩

theorem Follows.bind {x x' : Lower α} {f f' : α → Lower β} (hx : Follows c Q pairs s s' x x')
    (hf : ∀ a a' more t t', Abreast c (pairs ++ more) t t' → Q (pairs ++ more) a a' →
      Follows c R (pairs ++ more) t t' (f a) (f' a')) :
    Follows c R pairs s s' (x >>= f) (x' >>= f') := by
  intro b u hrun
  obtain ⟨a, t, hrunx, hrunf⟩ := StateT.bind_eq_ok.mp hrun
  obtain ⟨a', t', more, hrunx', ht, hQ⟩ := hx a t hrunx
  obtain ⟨b', u', more', hrunf', hu, hR⟩ := hf a a' more t t' ht hQ b u hrunf
  rw [List.append_assoc] at hu hR
  exact ⟨b', u', more ++ more', StateT.bind_eq_ok.mpr ⟨a', t', hrunx', hrunf'⟩, hu, hR⟩

/-- A step that asks nothing of the state. -/
theorem Follows.lift {z : Except CompileError α} (h : Abreast c pairs s s')
    (hQ : ∀ a, Q pairs a a) : Follows c Q pairs s s' (liftM z) (liftM z) := by
  intro a t hrun
  obtain ⟨hz, rfl⟩ := StateT.lift_eq_ok.mp hrun
  exact ⟨a, s', [], StateT.lift_eq_ok.mpr ⟨hz, rfl⟩, by simpa using h, by simpa using hQ a⟩

end Follows

/-! ### Declarations in two runs -/

section Declarations

variable {env : Env} {c : Contrast} {pairs : List (Ident × Ident)} {s s' : State}

/-- References are resolved alike. -/
theorem Abreast.agree (h : Abreast c pairs s s') (env : Env) {g : Renaming}
    (hg : Identifies g pairs) :
    (refsOf env s.program.writtenNames s.current).Agree g
      (refsOf env s'.program.writtenNames s'.current) := by
  obtain ⟨program, current⟩ := s
  obtain ⟨program', current'⟩ := s'
  have haround := h.around
  cases current with
  | none =>
    cases current' with
    | none => exact ⟨rfl, h.written, rfl, fun _ => rfl⟩
    | some e' => exact haround.elim
  | some e =>
    cases current' with
    | none => exact haround.elim
    | some e' =>
      refine ⟨rfl, h.written, ?_, fun name => Renumbered.substitutions haround hg name⟩
      simp only [refsOf, Option.map_some, Option.getD_some]
      rw [Renumbered.fn haround]
      rfl

/-- Both runs declare a variable. -/
theorem Abreast.withVariable (h : Abreast c pairs s s') {name name' : String} {isUi isUi' : Bool}
    {current current' : Option FunctionEntry} {pairs' : List (Ident × Ident)}
    (hname : name' = name ∨ isStorage (Text.lower name) = true ∧ isStorage (Text.lower name') = true)
    (hcurrent : Around pairs' current current') :
    Abreast c pairs' ⟨Lowering.withVariable s.program name isUi, current⟩
      ⟨Lowering.withVariable s'.program name' isUi', current'⟩ where
  written := h.written
  table := h.table
  vars v hv := by
    have hvars := h.vars v hv
    have hadd : ∀ {p : Program} {n b}, v ∈ (Lowering.withVariable p n b).symbols.vars ↔
        v ∈ p.symbols.vars ∨ v = Text.lower n := mem_addVariable
    rw [hadd, hadd]
    rcases hname with rfl | ⟨hstorage, hstorage'⟩
    · grind
    · -- Local variables are not compared.
      have hne : v ≠ Text.lower name := by
        rintro rfl
        exact Bool.false_ne_true (hv.symm.trans hstorage)
      have hne' : v ≠ Text.lower name' := by
        rintro rfl
        exact Bool.false_ne_true (hv.symm.trans hstorage')
      simpa [hne, hne'] using hvars
  around := hcurrent

theorem refs_follows (h : Abreast c pairs s s') :
    Follows c (fun pairs r r' => ∀ g, Identifies g pairs → r.Agree g r') pairs s s'
      (refs env) (refs env) := by
  intro r t hrun
  rw [refs_run] at hrun
  cases hrun
  exact ⟨_, s', [], refs_run env s', by simpa using h,
    fun g hg => h.agree env (by simpa using hg)⟩

/-- **What becomes of a declaration in a function.** -/
theorem declareIn_run (env : Env) (f : FunctionEntry) (d : Declaration) (span : Span)
    (trace : List Span) (p : Program) (c : Option FunctionEntry) :
    (declareIn env f d span trace).run ⟨p, c⟩ =
      if isPromoted f d then
        .ok ([], ⟨withVariable p d.name.full d.uiKind?.isSome, some { f with
          globals := f.globals ++ [⟨.declare (d.withoutModifier "global"), span, trace⟩] }⟩)
      else if f.localNames.contains (Text.lower d.name.name) then
        .error (env.errorAt (.localRedeclared d.name.name) d.name.span trace)
      else
        let f := { f with localNames := f.localNames ++ [Text.lower d.name.name] }
        if f.fn.isTaskfunc && !d.hasModifier "local" then
          .ok ((addFrameLocal f d span trace).1, ⟨p, some (addFrameLocal f d span trace).2⟩)
        else
          .ok ((addRenamedLocal f (storageName p d) d span trace).1,
            ⟨withVariable p (storageName p d) d.uiKind?.isSome,
              some (addRenamedLocal f (storageName p d) d span trace).2⟩) := by
  unfold declareIn
  dsimp only
  split
  · rfl
  split
  · rfl
  split <;> rfl

/-- **A declaration in a function is followed.** -/
theorem declareIn_follows {p p' : Program} {f f' : FunctionEntry} {d d' : Declaration}
    {span : Span} {trace : List Span} (h : Abreast c pairs ⟨p, some f⟩ ⟨p', some f'⟩)
    (hd : SameDeclaration pairs d d') :
    Follows c Alike pairs ⟨p, some f⟩ ⟨p', some f'⟩ (declareIn env f d span trace)
      (declareIn env f' d' span trace) := by
  have hf : Renumbered pairs f f' := h.around
  -- Where the declaration goes is told by what both sides share.
  have hpromoted : isPromoted f' d' = isPromoted f d := by
    simp only [isPromoted, hf.name, Declaration.hasModifier, hd.modifiers]
  have huiKind : d'.uiKind? = d.uiKind? := by simp only [Declaration.uiKind?, hd.modifiers]
  have htaskfunc : f'.fn.isTaskfunc = f.fn.isTaskfunc := by rw [hf.fn]
  have hlocal : d'.hasModifier "local" = d.hasModifier "local" := by
    simp only [Declaration.hasModifier, hd.modifiers]
  have hnoted := hf.note (f.localNames ++ [Text.lower d.name.name])
  intro ss t hrun
  rw [declareIn_run] at hrun ⊢
  rw [hpromoted, huiKind, hd.name]
  dsimp only at hrun ⊢
  rw [htaskfunc, hlocal]
  split at hrun
  · next hp =>
    cases hrun
    refine ⟨[], _, [], if_pos hp, ?_, fun _ _ => rfl⟩
    rw [List.append_nil]
    exact h.withVariable (.inl rfl) (hf.addGlobal hd span trace)
  next hp =>
  rw [if_neg hp, hf.localNames]
  split at hrun
  · cases hrun
  next hfresh =>
  rw [if_neg hfresh]
  split at hrun
  · next htask =>
    cases hrun
    obtain ⟨haround, hss⟩ := hnoted.addFrameLocal hd span trace
    refine ⟨_, _, [], if_pos htask, ?_, by simpa using hss⟩
    rw [List.append_nil]
    exact ⟨h.written, h.table, h.vars, haround⟩
  · next htask =>
    cases hrun
    have hunique : isUnique d (storageName p d) := ⟨_, rfl⟩
    have hunique' : isUnique d (storageName p' d') := ⟨p'.symbols, by rw [storageName, hd.name]⟩
    obtain ⟨haround, hss⟩ := hnoted.addRenamedLocal hd span trace hunique hunique'
    refine ⟨_, _, _, if_neg htask, ?_, hss⟩
    exact h.withVariable (.inr ⟨hunique.isStorage, hunique'.isStorage⟩) haround

theorem declaration_run (env : Env) (families : List String) (d : Declaration) (span : Span)
    (trace : List Span) (s : State) :
    (declaration env families d span trace).run s =
      let d := lowered (refsOf env s.program.writtenNames s.current) families d
      match s.current with
      | none => .ok ([⟨.declare d, span, trace⟩],
          ⟨withVariable s.program d.name.full d.uiKind?.isSome, none⟩)
      | some f => (declareIn env f d span trace).run s := by
  obtain ⟨program, current⟩ := s
  have hrefs : (refs env).run ⟨program, current⟩ =
      pure (refsOf env program.writtenNames current, ⟨program, current⟩) := rfl
  unfold declaration
  rw [StateT.run_bind, hrefs, pure_bind]
  cases current with
  | none => rfl
  | some f =>
    simp only [StateT.run_bind, StateT.run_get, pure_bind]
    rfl

/-- **A declaration is followed.** -/
theorem declaration_follows (h : Abreast c pairs s s') {families : List String} {d : Declaration}
    {span : Span} {trace : List Span} :
    Follows c Alike pairs s s' (declaration env families d span trace)
      (declaration env families d span trace) := by
  obtain ⟨p, current⟩ := s
  obtain ⟨p', current'⟩ := s'
  have hd : SameDeclaration pairs (lowered (refsOf env p.writtenNames current) families d)
      (lowered (refsOf env p'.writtenNames current') families d) := by
    have hagree : ∀ g, Identifies g pairs → _ := fun g hg =>
      lowered_agree (h.agree env hg) families d
    exact ⟨(hagree ⟨fun _ => default, id⟩ fun _ _ => rfl).2, fun g hg => (hagree g hg).1⟩
  intro ss t hrun
  rw [declaration_run] at hrun ⊢
  dsimp only at hrun ⊢
  have haround := h.around
  cases current with
  | none =>
    cases current' with
    | some f' => exact haround.elim
    | none =>
      cases hrun
      refine ⟨_, _, [], rfl, ?_, fun g hg => ?_⟩
      · rw [List.append_nil]
        exact h.withVariable (.inl (by rw [hd.name])) haround
      · have hsame := hd.same g (by simpa using hg)
        simp only [Renaming.stmts, Renaming.stmt, hsame]
  | some f =>
    cases current' with
    | none => exact haround.elim
    | some f' => exact declareIn_follows h hd ss t hrun

end Declarations

/-! ### Functions in two runs -/

/-- **The table when a function has been entered**, by names. -/
theorem function?_enter (p : Program) (e : FunctionEntry) (name : String) :
    (enter p e).function? name = if name = e.name then some e else p.function? name := by
  change (p.putFunction e).functions.find? (·.name == name) = _
  unfold Program.putFunction
  split
  · next huser =>
    -- The function that gives way has the same name.
    have hnames : ∀ x : FunctionEntry, (if x.name == e.name then e else x).name = x.name := by
      intro x
      split
      · next hx => exact (beq_iff_eq.mp hx).symm
      · rfl
    simp only [Program.updateFunction, List.find?_map, Function.comp_def, hnames]
    change (p.function? name).map _ = _
    have hfound : ∀ old, p.function? name = some old → old.name = name :=
      fun old hold => by simpa using List.find?_some hold
    cases hold : p.function? name with
    | some old =>
      rw [Option.map_some, hfound old hold, apply_ite some]
      simp only [beq_iff_eq]
    | none =>
      have hne : name ≠ e.name := by
        rintro rfl
        obtain ⟨x, hx, hname⟩ := List.any_eq_true.mp huser
        exact (List.find?_eq_none.mp hold) x hx hname
      rw [if_neg hne]
      rfl
  · next hnew =>
    have hnone : p.function? e.name = none := by
      simpa [Program.function?, Program.isUserFunction] using hnew
    rw [List.find?_append]
    change (p.function? name).or _ = _
    by_cases hname : name = e.name
    · simp [hname, hnone]
    · have hne : (e.name == name) = false := by simpa using fun h : e.name = name => hname h.symm
      simp [hne, if_neg hname]

/-- Variables that are not called like local ones stay when a function is entered. -/
theorem mem_enter_vars_kept {p : Program} {e : FunctionEntry} {v : String}
    (hold : ∀ old, p.function? e.name = some old → ∀ i ∈ old.storage, isStorage i.key = true)
    (hv : isStorage v = false) : v ∈ (enter p e).symbols.vars ↔ v ∈ p.symbols.vars := by
  rw [mem_enter_vars]
  refine and_iff_left fun old hfound name hname heq => ?_
  obtain ⟨i, hi, rfl⟩ := exists_of_mem_declaredVariables hname
  have hstorage := hold old hfound i hi
  rw [Ident.key, heq, hv] at hstorage
  cases hstorage

section Functions

variable {env : Env} {c : Contrast} {pairs : List (Ident × Ident)} {s s' : State}

/-- A function gets its body. -/
theorem Renumbered.close {e e' : FunctionEntry} {ss ss' : List Stmt} (h : Renumbered pairs e e')
    (hss : Alike pairs ss ss') :
    Renumbered pairs { e with fn := { e.fn with body := ss } }
      { e' with fn := { e'.fn with body := ss' } } := by
  refine ⟨h.left, h.right, h.numbers, fun g hg => ?_⟩
  have hsame := congrArg (fun e : FunctionEntry =>
    { e with fn := { e.fn with body := g.stmts ss } }) (h.same g hg)
  simp only [FunctionEntry.rename, hss g hg] at hsame ⊢
  exact hsame

/-- A function is entered on both sides. -/
theorem Abreast.enter {p p' : Program} {e e' : FunctionEntry} {current current' : Option FunctionEntry}
    {pairs' : List (Ident × Ident)} (h : Abreast c pairs ⟨p, current⟩ ⟨p', current'⟩)
    (hknown : c.known e.name) (he : Renumbered pairs' e e') {outer outer' : Option FunctionEntry}
    {pairs₀ : List (Ident × Ident)} (houter : Around pairs₀ outer outer') :
    Abreast c pairs₀ ⟨Lowering.enter p e, outer⟩ ⟨Lowering.enter p' e', outer'⟩ where
  written name := by
    rw [enter_writtenNames, enter_writtenNames]
    exact h.written name
  table name hname := by
    rw [function?_enter, function?_enter, he.name]
    split
    · exact .some ⟨pairs', he⟩
    · exact h.table name hname
  vars v hv := by
    -- The function that gives way is the same one on both sides.
    have hrel : Option.Rel _ (p.function? e.name) (p'.function? e.name) := h.table e.name hknown
    rw [mem_enter_vars_kept ?_ hv, mem_enter_vars_kept ?_ hv]
    · exact h.vars v hv
    · intro old' hold' i hi
      rw [he.name] at hold'
      obtain ⟨old, -, pairs, hsame⟩ := exists_mem_of_optionRel hrel hold'
      exact hsame.isStorage (.inr hi)
    · intro old hold i hi
      rw [hold] at hrel
      generalize p'.function? e.name = o' at hrel
      cases hrel with
      | some hsame =>
        obtain ⟨pairs, hsame⟩ := hsame
        exact hsame.isStorage (.inl hi)
  around := houter

/-- What a new function finds in the table does not depend on bodies. -/
theorem entryFor_congr {p p' : Program} {f f' : FunctionDef} (hname : f'.name = f.name)
    (hoverride : f'.isOverride = f.isOverride)
    (h : Option.Rel (fun e e' => e'.fn.isOverride = e.fn.isOverride) (p.function? f.name.name)
      (p'.function? f.name.name)) : entryFor p' f' = entryFor p f := by
  unfold entryFor
  rw [hname, hoverride]
  generalize p.function? f.name.name = o at h ⊢
  generalize p'.function? f.name.name = o' at h ⊢
  cases h with
  | none => rfl
  | some h =>
    dsimp only
    rw [h]

/-- **A function is entered in the other run too.** -/
theorem functionWith_follows {f : FunctionDef} {body : Lower (List Stmt)} {x : Footprint}
    (h : Abreast c pairs s s') (hknown : c.known (tableName env f))
    (hkeeps : (namesKept env).Obeys body x)
    (hbody : ∀ {t t'}, Abreast c [] t t' → Follows c Alike [] t t' body body) :
    Follows c (fun _ _ _ => True) pairs s s' (functionWith env f body) (functionWith env f body) := by
  have hentry : entryFor s'.program { f with name := f.name.qualifyDeclared env.lines } =
      entryFor s.program { f with name := f.name.qualifyDeclared env.lines } :=
    entryFor_congr rfl rfl (optionRel_imp (h.table _ hknown) fun _ _ ⟨_, hsame⟩ => by rw [hsame.fn])
  rintro ⟨⟩ t hrun
  rw [functionWith_run] at hrun ⊢
  rw [hentry]
  split at hrun
  · cases hrun
  next hparams =>
  rw [if_neg hparams]
  cases hfound : entryFor s.program { f with name := f.name.qualifyDeclared env.lines } with
  | overridden =>
    rw [hfound] at hrun
    cases hrun
    exact ⟨(), s', [], rfl, by simpa using h, trivial⟩
  | taken =>
    rw [hfound] at hrun
    cases hrun
  | free =>
    rw [hfound] at hrun
    obtain ⟨⟨ss, p, current⟩, hrun, hlast⟩ := Except.bind_eq_ok.mp hrun
    -- The body is lowered with no pairs of its own, and those it adds end with the function.
    have hopen : Abreast c [] ⟨s.program, some (opened env f)⟩ ⟨s'.program, some (opened env f)⟩ :=
      ⟨h.written, h.table, h.vars, Renumbered.opened env f⟩
    obtain ⟨ss', ⟨p', current'⟩, more, hrun', hafter, hss⟩ := hbody hopen ss _ hrun
    have hfn := (hkeeps _ _ _ hrun).fn
    cases current with
    | none => cases hlast
    | some e =>
      cases current' with
      | none => exact hafter.around.elim
      | some e' =>
        cases hlast
        have hname : e.name = tableName env f := by
          rw [FunctionEntry.name, Option.some.inj hfn]
          rfl
        have he : Renumbered more e e' := hafter.around
        refine ⟨(), _, [], Except.bind_eq_ok.mpr ⟨_, hrun', rfl⟩, ?_, trivial⟩
        rw [List.append_nil]
        exact hafter.enter (hname ▸ hknown) (he.close hss) h.around

end Functions

/-! ### Statements in two runs -/

/-- All functions that a piece of the source enters are compared. -/
def Footprint.Known (c : Contrast) (x : Footprint) : Prop := ∀ f ∈ x.entered, c.known f.1

theorem Footprint.known_append {c : Contrast} {x y : Footprint} :
    (x ++ y).Known c ↔ x.Known c ∧ y.Known c :=
  List.forall_mem_append

theorem Footprint.known_close {c : Contrast} {x : Footprint} {name : String} :
    (x.close name).Known c ↔ x.Known c ∧ c.known name := by
  unfold Footprint.Known Footprint.close
  rw [List.forall_mem_append, List.forall_mem_singleton]

section Statements

variable {env : Env} {c : Contrast} {pairs : List (Ident × Ident)} {s s' : State}

theorem Alike.append {ss ss' rest rest' : List Stmt} (h : Alike pairs ss ss')
    (hrest : Alike pairs rest rest') : Alike pairs (ss ++ rest) (ss' ++ rest') := by
  intro g hg
  rw [Renaming.stmts_append, Renaming.stmts_append, h g hg, hrest g hg]

theorem Alike.later {more : List (Ident × Ident)} {ss ss' : List Stmt} (h : Alike pairs ss ss') :
    Alike (pairs ++ more) ss ss' :=
  fun g hg => h g hg.before

/-- A single statement. -/
theorem Alike.single {x x' : Stmt} (h : ∀ g, Identifies g pairs → g.stmt x' = g.stmt x) :
    Alike pairs [x] [x'] := by
  intro g hg
  simp only [Renaming.stmts, h g hg]

theorem assignment_follows (h : Abreast c pairs s s') {target : VarRef} {value : Expr} {span : Span}
    {trace : List Span} :
    Follows c (fun pairs x x' => Alike pairs [x] [x']) pairs s s'
      (assignment env target value span trace) (assignment env target value span trace) := by
  refine (refs_follows h).bind fun r r' more t t' ht hr => .ret ht (.single fun g hg => ?_)
  simp only [Renaming.stmt, varRef_agree (hr g hg), expr_agree (hr g hg)]

theorem stepStmt_follows (h : Abreast c pairs s s') {var : VarRef} {step : Option Expr}
    {downto : Bool} {span : Span} {trace : List Span} :
    Follows c (fun pairs x x' => Alike pairs [x] [x']) pairs s s'
      (stepStmt env var step downto span trace) (stepStmt env var step downto span trace) := by
  refine (refs_follows h).bind fun r r' more t t' ht hr => .ret ht (.single fun g hg => ?_)
  cases step with
  | none => simp only [loopStep, Renaming.stmt, call_agree (hr g hg)]
  | some e =>
    simp only [loopStep, Renaming.stmt, varRef_agree (hr g hg), expr_agree (hr g hg)]

theorem modifySymbols_follows (h : Abreast c pairs s s') {m : Symbols → Symbols}
    (hm : ∀ symbols, (m symbols).vars = symbols.vars) :
    Follows c (fun _ _ _ => True) pairs s s' (modifySymbols m) (modifySymbols m) := by
  rintro ⟨⟩ t ⟨⟩
  refine ⟨(), _, [], rfl, ?_, trivial⟩
  rw [List.append_nil]
  refine ⟨h.written, h.table, fun v hv => ?_, h.around⟩
  have hvars := h.vars v hv
  rwa [← hm s.program.symbols, ← hm s'.program.symbols] at hvars

theorem synonym_follows (h : Abreast c pairs s s') {property : String} {indices : List Ident}
    {target : VarRef} {span : Span}
    (hget : c.known (tableName env (synonymGetter property indices span)))
    (hset : c.known (tableName env (synonymSetter property indices span))) :
    Follows c (fun _ _ _ => True) pairs s s' (synonym env property indices target span)
      (synonym env property indices target span) := by
  have hbody : ∀ (v : VarRef) (e : Expr) {t t' : State}, Abreast c [] t t' →
      Follows c Alike [] t t' (do return [← assignment env v e span []])
        (do return [← assignment env v e span []]) :=
    fun _ _ _ _ ht => (assignment_follows ht).bind fun _ _ _ _ _ ht hx => .ret ht hx
  refine (functionWith_follows h hget (Ledger.assignment_obeys (x := {})) (hbody _ _)).bind
    fun _ _ _ _ _ ht _ => ?_
  exact functionWith_follows ht hset (Ledger.assignment_obeys (x := {})) (hbody _ _)

mutual

/-- A statement is followed. -/
theorem stmt_follows {families : List String} : ∀ (y : Stmt) {pairs s s'},
    Abreast c pairs s s' → (stmtFootprint env families y).Known c →
    Follows c Alike pairs s s' (stmt env families y) (stmt env families y)
  | ⟨.forLoop var start stop step downto body, span, trace⟩, _, _, _, h, hy => by
    simp only [stmt]
    refine (assignment_follows h).bind fun first first' _ _ _ h hfirst => ?_
    refine (refs_follows h).bind fun r r' _ _ _ h hr => ?_
    refine (stmts_follows body h hy).bind fun b b' _ _ _ h hb => ?_
    refine (stepStmt_follows h).bind fun last last' _ _ _ h hlast => .ret h fun g hg => ?_
    have hhead := hfirst g hg.before.before.before
    have hbody := hb.later.append hlast g hg
    simp only [Renaming.stmts, List.cons.injEq, and_true] at hhead
    simp only [Renaming.stmts, Renaming.stmt, hhead, expr_agree (hr g hg.before.before), hbody]
  | ⟨.ifChain branches otherwise, span, trace⟩, _, _, _, h, hy => by
    rw [stmtFootprint, Footprint.known_append] at hy
    simp only [stmt]
    refine (chain_follows (fun h => stmts_follows otherwise h hy.2) branches h hy.1).bind
      fun _ _ _ _ _ h hx => .ret h hx
  | ⟨.family name body, span, trace⟩, _, _, _, h, hy => by
    simp only [stmt]
    refine (modifySymbols_follows h (by intro; rfl)).bind fun _ _ _ _ _ h _ => ?_
    exact stmts_follows body h hy
  | ⟨.property name functions, span, trace⟩, _, _, _, h, hy => by
    simp only [stmt]
    refine (Follows.lift (Q := fun _ _ _ => True) h fun _ => trivial).bind fun _ _ _ _ _ h _ => ?_
    refine (accessors_follows functions h hy).bind fun _ _ _ _ _ h _ => ?_
    refine (modifySymbols_follows h (by intro; rfl)).bind fun _ _ _ _ _ h _ => .ret h ?_
    exact fun _ _ => rfl
  | ⟨.synonym name indices target, span, trace⟩, _, _, _, h, hy => by
    rw [stmtFootprint, Footprint.known_append, Footprint.known_close, Footprint.known_close] at hy
    simp only [stmt]
    refine (synonym_follows h hy.1.2 hy.2.2).bind fun _ _ _ _ _ h _ => ?_
    refine (modifySymbols_follows h (by intro; rfl)).bind fun _ _ _ _ _ h _ => .ret h ?_
    exact fun _ _ => rfl
  | ⟨.declare d, span, trace⟩, _, _, _, h, _ => by
    simp only [stmt]
    exact declaration_follows h
  | ⟨.assign target value, span, trace⟩, _, _, _, h, _ => by
    simp only [stmt]
    exact (assignment_follows h).bind fun _ _ _ _ _ h hx => .ret h hx
  | ⟨.call k, span, trace⟩, _, _, _, h, _ => by
    simp only [stmt]
    refine (refs_follows h).bind fun r r' _ _ _ h hr => .ret h (.single fun g hg => ?_)
    simp only [Renaming.stmt, call_agree (hr g hg)]
  | ⟨.whileLoop cond body, span, trace⟩, _, _, _, h, hy => by
    simp only [stmt]
    refine (refs_follows h).bind fun r r' _ _ _ h hr => ?_
    refine (stmts_follows body h hy).bind fun b b' _ _ _ h hb => .ret h (.single fun g hg => ?_)
    simp only [Renaming.stmt, expr_agree (hr g hg.before), hb g hg]
  | ⟨.select subject cs, span, trace⟩, _, _, _, h, hy => by
    simp only [stmt]
    refine (refs_follows h).bind fun r r' _ _ _ h hr => ?_
    refine (cases_follows cs h hy).bind fun b b' _ _ _ h hb => .ret h (.single fun g hg => ?_)
    simp only [Renaming.stmt, expr_agree (hr g hg.before), hb g hg]

/-- **Statements are followed.** -/
theorem stmts_follows {families : List String} : ∀ (ss : List Stmt) {pairs s s'},
    Abreast c pairs s s' → (stmtsFootprint env families ss).Known c →
    Follows c Alike pairs s s' (stmts env families ss) (stmts env families ss)
  | [], _, _, _, h, _ => by
    simp only [stmts]
    exact .ret h fun _ _ => rfl
  | y :: ss, _, _, _, h, hy => by
    rw [stmtsFootprint, Footprint.known_append] at hy
    simp only [stmts]
    refine (stmt_follows y h hy.1).bind fun first first' _ _ _ h hfirst => ?_
    refine (stmts_follows ss h hy.2).bind fun rest rest' _ _ _ h hrest => .ret h ?_
    exact hfirst.later.append hrest

theorem chain_follows {families : List String} {span : Span} {trace : List Span}
    {otherwise : Lower (List Stmt)}
    (ho : ∀ {pairs s s'}, Abreast c pairs s s' → Follows c Alike pairs s s' otherwise otherwise) :
    ∀ (bs : List Branch) {pairs s s'}, Abreast c pairs s s' →
      (branchesFootprint env families bs).Known c →
      Follows c (fun pairs x x' => Alike pairs [x] [x']) pairs s s'
        (chain env families span trace otherwise bs) (chain env families span trace otherwise bs)
  | [], _, _, _, h, _ => by
    simp only [chain]
    refine (ho h).bind fun o o' _ _ _ h ho' => .ret h (.single fun g hg => ?_)
    simp only [Renaming.stmt, ho' g hg]
  | [⟨cond, body⟩], _, _, _, h, hy => by
    rw [branchesFootprint, Footprint.known_append] at hy
    simp only [chain]
    refine (refs_follows h).bind fun r r' _ _ _ h hr => ?_
    refine (stmts_follows body h hy.1).bind fun b b' _ _ _ h hb => ?_
    refine (ho h).bind fun o o' _ _ _ h ho' => .ret h (.single fun g hg => ?_)
    simp only [Renaming.stmt, Renaming.branches, expr_agree (hr g hg.before.before),
      hb g hg.before, ho' g hg]
  | ⟨cond, body⟩ :: b :: rest, _, _, _, h, hy => by
    rw [branchesFootprint, Footprint.known_append] at hy
    simp only [chain]
    refine (refs_follows h).bind fun r r' _ _ _ h hr => ?_
    refine (stmts_follows body h hy.1).bind fun ss ss' _ _ _ h hb => ?_
    refine (chain_follows ho (b :: rest) h hy.2).bind fun o o' _ _ _ h ho' =>
      .ret h (.single fun g hg => ?_)
    simp only [Renaming.stmt, Renaming.branches, expr_agree (hr g hg.before.before),
      hb g hg.before, ho' g hg]

theorem cases_follows {families : List String} : ∀ (cs : List Case) {pairs s s'},
    Abreast c pairs s s' → (casesFootprint env families cs).Known c →
    Follows c (fun pairs cs cs' => ∀ g, Identifies g pairs → g.cases cs' = g.cases cs) pairs s s'
      (cases env families cs) (cases env families cs)
  | [], _, _, _, h, _ => by
    simp only [cases]
    exact .ret h fun _ _ => rfl
  | ⟨start, stop, body⟩ :: rest, _, _, _, h, hy => by
    rw [casesFootprint, Footprint.known_append] at hy
    simp only [cases]
    refine (refs_follows h).bind fun r r' _ _ _ h hr => ?_
    refine (stmts_follows body h hy.1).bind fun b b' _ _ _ h hb => ?_
    refine (cases_follows rest h hy.2).bind fun cs cs' _ _ _ h hcs => .ret h fun g hg => ?_
    have hr := hr g hg.before.before
    simp only [Renaming.cases, expr_agree hr, option_agree hr, hb g hg.before, hcs g hg]

theorem accessors_follows {property : String} : ∀ (fs : List FunctionDef) {pairs s s'},
    Abreast c pairs s s' → (accessorsFootprint env property fs).Known c →
    Follows c (fun _ _ _ => True) pairs s s' (accessors env property fs)
      (accessors env property fs)
  | [], _, _, _, h, _ => by
    simp only [accessors]
    exact .ret h trivial
  | ⟨name, params, result, body, isTaskfunc, isOverride, span⟩ :: rest, _, _, _, h, hy => by
    rw [accessorsFootprint, Footprint.known_append, Footprint.known_close] at hy
    simp only [accessors]
    refine (functionWith_follows h hy.1.2 (Ledger.stmts_obeys [] body) fun h =>
      stmts_follows body h hy.1.1).bind fun _ _ _ _ _ h _ => ?_
    exact accessors_follows rest h hy.2

end

end Statements

end FlatScript.Lowering
