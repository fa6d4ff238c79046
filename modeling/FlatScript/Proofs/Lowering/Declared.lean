import FlatScript.Proofs.Lowering.History
import FlatScript.Proofs.Reachability

/-!
# Where lowering leaves declarations

Every variable that lowering declares is declared in what it leaves behind: in a callback, or
among the declarations that a function of the table has for the init callback. There is one way
to lose a declaration. A function that is entered under a name that is in the table already
takes the place of the one before. The local variables of that one are forgotten with it, but
its global variables stay declared without a declaration.

* `FlatScript.Lowering.Books` is what is known of the declarations.
* `FlatScript.Lowering.History.books` says that it stays true along every history.
-/

namespace FlatScript

/-- The names that a function of the table declares in the init callback. -/
def FunctionEntry.declared (e : FunctionEntry) : List Ident := stmtsDeclared (e.globals ++ e.locals)

/-- **The names that the functions of the table declare in the init callback.** -/
def Program.declared (p : Program) : List Ident := p.functions.flatMap FunctionEntry.declared

/-- A name is spelled the way its spelling says. -/
theorem Ident.full_fixed (text : String) (span : Span) : (Ident.fixed text span).full = text :=
  Ident.full_ofText text span

namespace Lowering

/-! ### Symbols -/

theorem mem_addVariable {symbols : Symbols} {name v : String} {isUi : Bool} :
    v ∈ (symbols.addVariable name isUi).vars ↔ v ∈ symbols.vars ∨ v = Text.lower name :=
  Name.mem_insertNew

theorem removeVariables_kept (names : List String) (symbols : Symbols) :
    (names.foldl Symbols.removeVariable symbols).families = symbols.families ∧
      (names.foldl Symbols.removeVariable symbols).properties = symbols.properties := by
  induction names generalizing symbols with
  | nil => exact ⟨rfl, rfl⟩
  | cons name names ih => exact ih _

theorem mem_removeVariables {names : List String} {symbols : Symbols} {v : String} :
    v ∈ (names.foldl Symbols.removeVariable symbols).vars ↔
      v ∈ symbols.vars ∧ ∀ name ∈ names, Text.lower name ≠ v := by
  induction names generalizing symbols with
  | nil => simp
  | cons name names ih =>
    rw [List.foldl_cons, ih]
    simp only [Symbols.removeVariable, List.mem_filter, bne_iff_ne, List.forall_mem_cons]
    grind

/-- The variables of declarations, by the list of their names. -/
theorem mem_declaredVariables {decls : List Stmt} (h : ∀ s ∈ decls, ∃ d, s.kind = .declare d)
    {i : Ident} (hi : i ∈ stmtsDeclared decls) : i.full ∈ declaredVariables decls := by
  induction decls with
  | nil => cases hi
  | cons s decls ih =>
    obtain ⟨kind, span, trace⟩ := s
    obtain ⟨d, rfl⟩ := h _ List.mem_cons_self
    rcases List.mem_append.mp hi with hi | hi
    · rw [List.mem_singleton.mp hi]
      simp [declaredVariables]
    · have hrest := ih (fun s hs => h s (List.mem_cons_of_mem _ hs)) hi
      simp only [declaredVariables, List.filterMap_cons]
      exact List.mem_cons_of_mem _ hrest

/-! ### The table -/

/-- **The functions of the table** when one has been entered: it takes the place of the one with
its name. -/
theorem mem_enter {p : Program} {e e' : FunctionEntry} :
    e' ∈ (enter p e).functions ↔ e' = e ∨ (e' ∈ p.functions ∧ e'.name ≠ e.name) := by
  change e' ∈ (p.putFunction e).functions ↔ _
  unfold Program.putFunction
  split
  · next huser =>
    obtain ⟨e₀, he₀, hname⟩ := List.any_eq_true.mp huser
    simp only [Program.updateFunction, List.mem_map]
    constructor
    · rintro ⟨e₁, he₁, rfl⟩
      split
      · exact .inl rfl
      · next hne => exact .inr ⟨he₁, by simpa using hne⟩
    · rintro (rfl | ⟨he', hne⟩)
      · exact ⟨e₀, he₀, by rw [if_pos hname]⟩
      · exact ⟨e', he', by rw [if_neg (by simpa using hne)]⟩
  · next huser =>
    have hnew : ∀ e₀ ∈ p.functions, e₀.name ≠ e.name := by
      simpa [Program.isUserFunction] using huser
    simp only [List.mem_append, List.mem_singleton]
    constructor
    · rintro (he' | rfl)
      · exact .inr ⟨he', hnew e' he'⟩
      · exact .inl rfl
    · rintro (rfl | ⟨he', -⟩)
      · exact .inr rfl
      · exact .inl he'

/-- The variables when a function has been entered: the local ones of the function that it takes
the place of are gone. -/
theorem mem_enter_vars {p : Program} {e : FunctionEntry} {v : String} :
    v ∈ (enter p e).symbols.vars ↔ v ∈ p.symbols.vars ∧
      ∀ old, p.function? e.name = some old → ∀ name ∈ declaredVariables old.locals,
        Text.lower name ≠ v := by
  change v ∈ (List.foldl Symbols.removeVariable p.symbols
    (declaredVariables (((p.function? e.name).map (·.locals)).getD []))).vars ↔ _
  rw [mem_removeVariables]
  cases p.function? e.name with
  | none => simp [declaredVariables]
  | some old => simp

/-! ### The books -/

/-- **A variable that a function has left behind**: it was a global one of a function that has given
way to another one of its name. -/
def Shadowed (log : List Event) (v : String) : Prop :=
  ∃ e ∈ replacedIn log, Declares (stmtsDeclared e.globals) v

/-- What is written down of a function: its local variables come as declarations, they have been
stored, and its global ones have been declared. -/
structure Recorded (log : List Event) (e : FunctionEntry) : Prop where
  declares : ∀ s ∈ e.locals, ∃ d, s.kind = .declare d
  locals : ∀ i ∈ stmtsDeclared e.locals, ∃ name, .stored name i ∈ log
  globals : ∀ i ∈ stmtsDeclared e.globals, .declared i ∈ log

/-- The names that are declared in the state of lowering. -/
def State.declared (s : State) : List Ident :=
  (s.current.map FunctionEntry.declared).getD [] ++ s.program.declared

/-- **The books** after what is in the log, when statements have been left that declare `out`: each
variable has a declaration, unless it was left behind. -/
structure Books (log : List Event) (out : List Ident) (s : State) : Prop where
  table : ∀ e ∈ s.program.functions, Recorded log e
  replaced : ∀ e ∈ replacedIn log, Recorded log e
  current : ∀ f ∈ s.current, Recorded log f
  nodup : (s.program.functions.map FunctionEntry.name).Nodup
  vars : ∀ v ∈ s.program.symbols.vars, Declares (out ++ s.declared) v ∨ Shadowed log v

variable {env : Env} {s s' : State} {p : Program} {log log' : List Event} {out : List Ident}

theorem Shadowed.append {v : String} (h : Shadowed log v) : Shadowed (log ++ log') v := by
  obtain ⟨e, he, hv⟩ := h
  exact ⟨e, by simp [he], hv⟩

theorem Recorded.append {e : FunctionEntry} (h : Recorded log e) : Recorded (log ++ log') e where
  declares := h.declares
  locals i hi := by
    obtain ⟨name, hname⟩ := h.locals i hi
    exact ⟨name, List.mem_append_left _ hname⟩
  globals i hi := List.mem_append_left _ (h.globals i hi)

/-- Books stay right when variables come with their declarations. -/
theorem Books.extend {out' : List Ident} (h : Books log out s) (hnone : replacedIn log' = [])
    (hfunctions : s'.program.functions = s.program.functions)
    (hcurrent : ∀ f ∈ s'.current, Recorded (log ++ log') f)
    (hdeclared : out ++ s.declared ⊆ out' ++ s'.declared)
    (hvars : ∀ v ∈ s'.program.symbols.vars, v ∈ s.program.symbols.vars ∨
      Declares (out' ++ s'.declared) v) : Books (log ++ log') out' s' where
  table e he := (h.table e (hfunctions ▸ he)).append
  replaced e he := by
    rw [replacedIn_append, hnone, List.append_nil] at he
    exact (h.replaced e he).append
  current := hcurrent
  nodup := hfunctions ▸ h.nodup
  vars v hv := by
    rcases hvars v hv with hv | hv
    · exact (h.vars v hv).imp (·.mono hdeclared) Shadowed.append
    · exact .inl hv

/-- Nothing is declared and nothing is entered. -/
theorem Books.same (h : Books log out s)
    (hvars : s'.program.symbols.vars = s.program.symbols.vars)
    (hfunctions : s'.program.functions = s.program.functions)
    (hcurrent : Option.Rel (fun f f' : FunctionEntry => f'.globals = f.globals ∧
      f'.locals = f.locals) s.current s'.current) : Books (log ++ []) (out ++ []) s' := by
  refine h.extend rfl hfunctions (fun f' hf' => ?_) ?_ fun v hv => .inl (hvars ▸ hv)
  · obtain ⟨f, hf, hglobals, hlocals⟩ := exists_mem_of_optionRel hcurrent hf'
    have hrecorded := h.current f hf
    exact ⟨hlocals ▸ hrecorded.declares, by simpa [hlocals] using hrecorded.locals,
      by simpa [hglobals] using hrecorded.globals⟩
  · have hsame : s'.current.map FunctionEntry.declared = s.current.map FunctionEntry.declared := by
      generalize s.current = before at hcurrent
      generalize s'.current = after at hcurrent
      cases hcurrent with
      | none => rfl
      | some hsame => simp [FunctionEntry.declared, hsame]
    simp only [State.declared, Program.declared, hfunctions, hsame, List.append_nil]
    exact fun _ h => h

/-- A variable is declared in a callback. -/
theorem Books.declared {d : Declaration} {isUi : Bool} (hd : d.name.sigil.isSome = true)
    (h : Books log out ⟨p, none⟩) : Books (log ++ [.declared d.name]) (out ++ [d.name])
      ⟨withVariable p d.name.full isUi, none⟩ := by
  refine h.extend rfl rfl (by simp) ?_ fun v hv => ?_
  · intro i hi
    have hcases : i ∈ out ∨ i ∈ p.declared := by simpa [State.declared] using hi
    have hsame : (withVariable p d.name.full isUi).declared = p.declared := rfl
    rcases hcases with hi | hi <;> simp [State.declared, hsame, hi]
  · rcases mem_addVariable.mp hv with hv | rfl
    · exact .inl hv
    · exact .inr ⟨d.name, by simp, hd, rfl⟩

/-- A variable is declared with the function around. -/
theorem Books.attached {f f' : FunctionEntry} {i : Ident} {isUi : Bool} {event : Event}
    (h : Books log out ⟨p, some f⟩) (hnone : replacedIn [event] = [])
    (hi : i.sigil.isSome = true) (hdeclared : f'.declared.Perm (i :: f.declared))
    (hrecorded : Recorded (log ++ [event]) f') :
    Books (log ++ [event]) (out ++ []) ⟨withVariable p i.full isUi, some f'⟩ := by
  refine h.extend hnone rfl (fun f₁ hf₁ => ?_) ?_ fun v hv => ?_
  · cases hf₁
    exact hrecorded
  · intro j hj
    have hcases : j ∈ out ∨ j ∈ f.declared ∨ j ∈ p.declared := by
      simpa [State.declared] using hj
    have hsame : (withVariable p i.full isUi).declared = p.declared := rfl
    rcases hcases with hj | hj | hj
    · simp [hj]
    · simp [State.declared, hdeclared.mem_iff, hj]
    · simp [State.declared, hsame, hj]
  · rcases mem_addVariable.mp hv with hv | rfl
    · exact .inl hv
    · exact .inr ⟨i, by simp [State.declared, hdeclared.mem_iff], hi, rfl⟩

/-- **A function is entered into the books.** The declarations of the function around are put
aside with `out` meanwhile. -/
theorem Books.enter {e : FunctionEntry} (body : List Stmt)
    (h : Books log (out ++ (s.current.map FunctionEntry.declared).getD []) ⟨p, some e⟩)
    (hcurrent : ∀ f ∈ s.current, Recorded log f) :
    Books (log ++ (p.function? e.name).toList.map .replaced) out
      ⟨Lowering.enter p { e with fn := { e.fn with body } }, s.current⟩ where
  table e' he' := by
    rcases mem_enter.mp he' with rfl | ⟨he', -⟩
    · have hrecorded := h.current e rfl
      exact Recorded.append ⟨hrecorded.declares, hrecorded.locals, hrecorded.globals⟩
    · exact (h.table e' he').append
  replaced old hold := by
    rw [replacedIn_append, replacedIn_map, List.mem_append] at hold
    rcases hold with hold | hold
    · exact (h.replaced old hold).append
    · have hfound := Option.mem_toList.mp hold
      exact (h.table old (List.mem_of_find?_eq_some hfound)).append
  current f hf := (hcurrent f hf).append
  nodup := Scheme.nodup_enter h.nodup
  vars v hv := by
    obtain ⟨hv, hgone⟩ := mem_enter_vars.mp hv
    rcases h.vars v hv with ⟨i, hi, hsigil, rfl⟩ | hshadowed
    · -- The declaration is still there, unless its function has given way.
      have hdeclares : ∀ e', e' ∈ (Lowering.enter p { e with fn := { e.fn with body } }).functions →
          i ∈ e'.declared → Declares (out ++ State.declared
            ⟨Lowering.enter p { e with fn := { e.fn with body } }, s.current⟩) (Text.lower i.full) := by
        intro e' he' hi'
        refine ⟨i, ?_, hsigil, rfl⟩
        exact List.mem_append_right _ (List.mem_append_right _ (List.mem_flatMap.mpr ⟨e', he', hi'⟩))
      simp only [State.declared, Option.map_some, Option.getD_some, List.mem_append] at hi
      rcases hi with (hi | hi) | hi | hi
      · exact .inl ⟨i, by simp [hi], hsigil, rfl⟩
      · exact .inl ⟨i, by simp [State.declared, hi], hsigil, rfl⟩
      · exact .inl (hdeclares _ (mem_enter.mpr (.inl rfl)) hi)
      obtain ⟨old, hold, hi⟩ := List.mem_flatMap.mp hi
      by_cases hname : old.name = e.name
      · have hfound : p.function? e.name = some old := hname ▸ Program.function?_of_mem h.nodup hold
        simp only [FunctionEntry.declared, stmtsDeclared_append, List.mem_append] at hi
        rcases hi with hi | hi
        · exact .inr ⟨old, by simp [hfound], i, hi, hsigil, rfl⟩
        · exact absurd rfl (hgone old hfound _ (mem_declaredVariables (h.table old hold).declares hi))
      · exact .inl (hdeclares old (mem_enter.mpr (.inr ⟨hold, hname⟩)) hi)
    · exact .inr hshadowed.append

/-- **The books are kept**, along every history. -/
theorem History.books {s s' : State} {x : Footprint} {out : List Ident} {log : List Event}
    (h : History env s s' x out log) : ∀ {past before}, Books past before s →
      Books (past ++ log) (before ++ out) s' := by
  induction h with
  | refl => exact fun hs => by simpa using hs
  | trans _ _ ih ih' =>
    intro past before hs
    have hbooks := ih' (ih hs)
    rwa [List.append_assoc, List.append_assoc] at hbooks
  | @symbols _ _ c hvars _ =>
    refine fun hs => hs.same hvars rfl ?_
    cases c with
    | none => exact .none
    | some f => exact .some ⟨rfl, rfl⟩
  | declared hd => exact fun hs => hs.declared hd
  | @promoted p f isUi span trace d hd =>
    intro past before hs
    have hrecorded := hs.current f rfl
    refine hs.attached rfl hd ?_ ⟨hrecorded.declares, hrecorded.append.locals, fun j hj => ?_⟩
    · refine List.perm_iff_count.mpr fun j => ?_
      simp [FunctionEntry.declared, stmtsDeclared, Stmt.declared, List.count_cons]
      omega
    · have hcases : j ∈ stmtsDeclared f.globals ∨ j = d.name := by
        simpa [stmtsDeclared, Stmt.declared] using hj
      rcases hcases with hj | rfl
      · exact List.mem_append_left _ (hrecorded.globals j hj)
      · simp
  | framed => exact fun hs => hs.same rfl rfl (.some ⟨rfl, rfl⟩)
  | @renamed p f localNames d isUi span trace =>
    intro past before hs
    have hrecorded := hs.current f rfl
    obtain ⟨d', hname, hlocals⟩ :=
      addRenamedLocal_locals { f with localNames } (storageName p d) d span trace
    have hfull := Ident.full_fixed (storageName p d) d.name.span
    have hunique : isUnique d (storageName p d) := ⟨_, rfl⟩
    rw [← hfull]
    refine hs.attached rfl (hunique.sigil _) ?_ ⟨fun x hx => ?_, fun j hj => ?_, ?_⟩
    · refine List.perm_iff_count.mpr fun j => ?_
      rw [hfull, FunctionEntry.declared, hlocals]
      simp [FunctionEntry.declared, addRenamedLocal, stmtsDeclared, Stmt.declared, List.count_cons,
        hname]
      omega
    · rw [hfull, hlocals] at hx
      rcases List.mem_append.mp hx with hx | hx
      · exact hrecorded.declares x hx
      · rw [List.mem_singleton.mp hx]
        exact ⟨d', rfl⟩
    · rw [hfull, hlocals, stmtsDeclared_append] at hj
      rcases List.mem_append.mp hj with hj | hj
      · exact hrecorded.append.locals j hj
      · obtain rfl : j = d'.name := by simpa [stmtsDeclared, Stmt.declared] using hj
        exact ⟨d.name.name, by simp [hname, hfull]⟩
    · exact hrecorded.append.globals
  | @function s f p e body x log hfn _ ih =>
    intro past before hs
    have hnone : (opened env f).declared = [] := rfl
    have hopened : Books past (before ++ (s.current.map FunctionEntry.declared).getD [])
        ⟨s.program, some (opened env f)⟩ := by
      refine ⟨hs.table, hs.replaced, ?_, hs.nodup, fun v hv => ?_⟩
      · rintro _ ⟨⟩
        exact ⟨by simp [opened], by simp [opened, stmtsDeclared], by simp [opened, stmtsDeclared]⟩
      · exact (hs.vars v hv).imp_left
          (·.mono fun i hi => by simpa [State.declared, hnone] using hi)
    have hbody := ih hopened
    rw [List.append_nil] at hbody ⊢
    rw [← List.append_assoc]
    exact hbody.enter body fun f hf => (hs.current f hf).append

/-- The books of a lowered script. -/
theorem ScriptHistory.books {x x' : Script} (h : ScriptHistory env x x' p log) :
    Books log x'.declared ⟨p, none⟩ := by
  have hempty : Books [] [] ⟨{ writtenNames := p.writtenNames }, none⟩ :=
    ⟨by simp, by simp, by simp, by simp, by simp⟩
  exact History.books h hempty

/-- What is declared in callbacks is in the log. -/
theorem History.mem_log {x : Footprint} (h : History env s s' x out log) :
    ∀ i ∈ out, .declared i ∈ log := by
  induction h with
  | trans _ _ ih ih' =>
    exact List.forall_mem_append.mpr ⟨fun i hi => List.mem_append_left _ (ih i hi),
      fun i hi => List.mem_append_right _ (ih' i hi)⟩
  | declared => simp
  | _ => simp

/-! ### Bodies -/

/-- The rule for what is left of a body, in a function or outside of all. -/
def undeclaredIn : Option FunctionEntry → Rule
  | none => .trivial
  | some _ => undeclared

theorem undeclaredIn_mute (c : Option FunctionEntry) : (undeclaredIn c).Mute := by
  cases c with
  | none => exact fun _ => trivial
  | some f => exact undeclared_mute

theorem stmtsMeet_undeclared_assigns {target : VarRef} {d : Declaration} {span : Span}
    {trace : List Span} :
    stmtsMeet undeclared ((splitInit target d).1.map (⟨·, span, trace⟩)) := by
  unfold splitInit
  split
  · trivial
  · split
    · exact ⟨.inr ⟨trivial, undeclared_mute.varRef _, undeclared_mute.expr _⟩, trivial⟩
    · trivial

/-- **Lowering takes declarations out of the bodies of functions**, and marks no function as
used. -/
def undeclaring (env : Env) : Scheme env where
  src := .trivial
  dst := undeclaredIn
  good c := ∀ f ∈ c, f.used = false
  entry e := stmtsDeclared e.fn.body = [] ∧ e.used = false
  header _ := True
  families _ := True
  mono {c c'} h := by
    have hsame : undeclaredIn c = undeclaredIn c' := by
      cases c <;> cases c' <;> first | rfl | exact h.elim
    exact hsame ▸ .refl _
  list {c _} := by cases c <;> trivial
  outside := by simp
  noFamilies := trivial
  expr {c _ _} _ _ := (undeclaredIn_mute c).expr _
  call {c _ _} _ _ _ := ⟨by cases c <;> trivial, (undeclaredIn_mute c).args _⟩
  binary := trivial
  atom h := h
  whole h := h
  step _ := trivial
  assign {c _ _} := by cases c <;> trivial
  whileLoop {c _ _} := by cases c <;> trivial
  ifOne {c _ _} := by cases c <;> trivial
  ifNone {c _ _} _ := by cases c <;> trivial
  select {c _ _ _ _} _ _ := by cases c <;> trivial
  family _ _ := trivial
  declared _ _ _ := trivial
  promoted hf _ _ _ := by simpa using hf _ rfl
  framed hf _ _ _ _ := ⟨by simpa [addFrameLocal] using hf _ rfl, stmtsMeet_undeclared_assigns⟩
  renamed hf _ _ _ _ := ⟨by simpa [addRenamedLocal] using hf _ rfl, stmtsMeet_undeclared_assigns⟩
  openFunction _ := by simp [opened]
  closeFunction {e _} he hbody := ⟨stmtsDeclared_eq_nil _ hbody, (he e rfl : e.used = false)⟩
  accessors _ _ _ _ := trivial
  synonym _ _ := ⟨trivial, trivial⟩
  result := Expr.meets_trivial _
  valueToSet := Expr.meets_trivial _

/-- The table of a lowered script is one of functions without declarations in their bodies. -/
theorem table_of_script {x x' : Script} {p : Program}
    (h : (script env x).run {} = .ok (x', p)) : (undeclaring env).Table p.functions p.calls := by
  have hsource : ∀ b ∈ x.blocks, (undeclaring env).Source b := by
    intro b _
    cases b with
    | callback c => exact stmtsMeet_trivial _
    | function f => exact ⟨trivial, stmtsMeet_trivial _⟩
  exact ((undeclaring env).script_run hsource (.empty _) h).1

/-- **The table of a lowered script**: the names in it are different, the bodies declare nothing,
and no function is marked as used. -/
theorem table_undeclared {x x' : Script} {p : Program}
    (h : (script env x).run {} = .ok (x', p)) :
    (p.functions.map FunctionEntry.name).Nodup ∧
      ∀ e ∈ p.functions, stmtsDeclared e.fn.body = [] ∧ e.used = false :=
  ⟨(table_of_script h).nodup, (table_of_script h).entry⟩

end Lowering

end FlatScript
