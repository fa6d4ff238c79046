import FlatScript.Lowering.Body
import FlatScript.Proofs.Rule

/-!
# How lowering carries rules over

Lowering takes a script that meets one rule to callbacks and functions that meet another one.
The rule of what comes out may depend on the function around it, because the frame of a task
function grows while its body is lowered; so a `FlatScript.Lowering.Scheme` has a rule for
every state of that function, and a condition on the function that every declaration in its
body keeps up.

The walk over lowering ends in `FlatScript.Lowering.Scheme.script_run`.
-/

namespace FlatScript.Lowering

/-! ### The function around a statement -/

/-- What references are resolved by, in a function or outside of all. -/
def refsOf (env : Env) (written : List String) (c : Option FunctionEntry) : Refs :=
  ⟨env, written, (c.map (·.fn.paramNames)).getD [], (c.map (·.substitutions)).getD []⟩

theorem refs_run (env : Env) (s : State) :
    (refs env).run s = .ok (refsOf env s.program.writtenNames s.current, s) := rfl

/-- **The function around, later on**: it is the same one, and its frame may have grown. -/
def Extends : Option FunctionEntry → Option FunctionEntry → Prop
  | none, none => True
  | some f, some f' => f'.fn = f.fn ∧ f.frame.length ≤ f'.frame.length
  | _, _ => False

theorem Extends.refl : ∀ c : Option FunctionEntry, Extends c c
  | none => trivial
  | some _ => ⟨rfl, Nat.le_refl _⟩

theorem Extends.trans : ∀ {c c' c'' : Option FunctionEntry}, Extends c c' → Extends c' c'' →
    Extends c c''
  | none, none, none, _, _ => trivial
  | some _, some _, some _, h, h' => ⟨h'.1.trans h.1, Nat.le_trans h.2 h'.2⟩

/-- A declaration with its references resolved, its name completed and its sigil found. -/
def lowered (r : Refs) (families : List String) (d : Declaration) : Declaration :=
  let d : Declaration :=
    { d with
      name := declaredName r.env families d.name
      size := d.size.map (expr r)
      params := exprs r d.params
      init := d.init.map (initializer r) }
  { d with name := { d.name with sigil := some (d.name.sigil.getD (inferSigil d)) } }

/-- The expressions of a declaration are resolved one by one. -/
theorem meets_lowered_of {src dst : Rule} {r : Refs} {families : List String} {d : Declaration}
    (hexpr : ∀ e : Expr, e.Meets src → (expr r e).Meets dst) (hd : d.Meets src) :
    (lowered r families d).Meets dst := by
  have hexprs : ∀ es, exprsMeet src es → exprsMeet dst (exprs r es) := by
    intro es hes
    induction es with
    | nil => trivial
    | cons e es ih => exact ⟨hexpr e hes.1, ih hes.2⟩
  refine ⟨?_, hexprs _ hd.2.1, ?_⟩
  · intro e he
    obtain ⟨e₀, he₀, rfl⟩ := Option.map_eq_some_iff.mp he
    exact hexpr e₀ (hd.1 e₀ he₀)
  · intro i hi
    obtain ⟨i₀, hi₀, rfl⟩ := Option.map_eq_some_iff.mp hi
    have hmeets := hd.2.2 i₀ hi₀
    cases i₀ with
    | single e => exact hexpr e hmeets
    | list es => exact hexprs es hmeets

/-- The family that a family statement opens. -/
def openFamily (env : Env) (families : List String) (name : Ident) : List String :=
  families ++ [if families.isEmpty then (name.qualifyDeclared env.lines).name else name.name]

/-- A name that a local variable gets. -/
def isUnique (d : Declaration) (unique : String) : Prop :=
  ∃ symbols, unique = freshName symbols ((d.name.sigil.getD .integer).text ++ "_" ++ d.name.name)

/-- A sigil in front of a name is found again. -/
theorem sigil_split_text (sigil : Sigil) (rest : String) :
    Sigil.split (sigil.text ++ rest) = (some sigil, rest) := by
  have hlist : (sigil.text ++ rest).toList = sigil.toChar :: rest.toList := by
    simp [Sigil.text, String.toList_append]
  unfold Sigil.split
  rw [hlist]
  simp

/-- A number is put behind a name. -/
theorem exists_numberedName (symbols : Symbols) (base : String) (fuel n : Nat) :
    ∃ rest, numberedName symbols base fuel n = base ++ rest := by
  induction fuel generalizing n with
  | zero => exact ⟨toString n, rfl⟩
  | succ fuel ih =>
    unfold numberedName
    split
    · exact ih (n + 1)
    · exact ⟨toString n, rfl⟩

/-- The name of a local variable starts as it was asked for. -/
theorem exists_freshName (symbols : Symbols) (base : String) :
    ∃ rest, freshName symbols base = base ++ rest := by
  unfold freshName
  split
  · exact exists_numberedName ..
  · exact ⟨"", by simp⟩

/-- The name of a local variable has an underscore behind its sigil. -/
theorem isUnique.toList {d : Declaration} {unique : String} (h : isUnique d unique) :
    ∃ (sigil : Sigil) (rest : List Char), unique.toList = sigil.toChar :: '_' :: rest := by
  obtain ⟨symbols, rfl⟩ := h
  obtain ⟨rest, hrest⟩ :=
    exists_freshName symbols ((d.name.sigil.getD .integer).text ++ "_" ++ d.name.name)
  refine ⟨d.name.sigil.getD .integer, d.name.name.toList ++ rest.toList, ?_⟩
  rw [hrest]
  simp [Sigil.text, String.toList_append]

/-- What the name of a local variable is made of. -/
theorem isUnique.split {d : Declaration} {unique : String} (h : isUnique d unique) :
    ∃ sigil rest, Sigil.split unique = (some sigil, String.ofList ('_' :: rest)) := by
  obtain ⟨sigil, rest, hlist⟩ := h.toList
  refine ⟨sigil, rest, ?_⟩
  rw [Sigil.split, hlist]
  simp

/-- The name of a local variable has a sigil. -/
theorem isUnique.sigil {d : Declaration} {unique : String} (h : isUnique d unique)
    (span : Span) : (Ident.fixed unique span).sigil.isSome = true := by
  obtain ⟨sigil, rest, hsplit⟩ := h.split
  change (Sigil.split unique).1.isSome = true
  rw [hsplit]
  rfl

theorem splitInit_name (target : VarRef) (d : Declaration) :
    (splitInit target d).2.name = d.name := by
  unfold splitInit
  split
  · rfl
  · split <;> rfl

/-- The assignment of the first value, and the declaration without it. -/
theorem meets_splitInit {r : Rule} (hr : ∀ target value, r.stmt (.assign target value))
    {target : VarRef} {d : Declaration} (ht : target.Meets r) (hd : d.Meets r) (span : Span)
    (trace : List Span) :
    stmtsMeet r ((splitInit target d).1.map (⟨·, span, trace⟩)) ∧
      (splitInit target d).2.Meets r := by
  unfold splitInit
  split
  · exact ⟨trivial, hd⟩
  · split
    · next value hinit =>
      have hvalue : value.Meets r := hd.2.2 _ hinit
      exact ⟨⟨.inr ⟨hr target value, ht, hvalue⟩, trivial⟩, hd.1, hd.2.1, by simp⟩
    · exact ⟨trivial, hd.1, hd.2.1, by simp⟩

/-- A local variable that is renamed is declared under its new name. -/
theorem addRenamedLocal_locals (f : FunctionEntry) (unique : String) (d : Declaration)
    (span : Span) (trace : List Span) :
    ∃ d', d'.name = .fixed unique d.name.span ∧
      (addRenamedLocal f unique d span trace).2.locals =
        f.locals ++ [⟨.declare d', span, trace⟩] :=
  ⟨_, splitInit_name .., rfl⟩

/-- A function under its full name, before its body is lowered. -/
def opened (env : Env) (f : FunctionDef) : FunctionEntry :=
  { fn := { f with name := f.name.qualifyDeclared env.lines, body := [] } }

/-! ### Schemes -/

/-- **What has to be known to follow lowering.** -/
structure Scheme (env : Env) where
  /-- The rule of the source. -/
  src : Rule
  /-- The rule of the lowered statements, in a function or outside of all. -/
  dst : Option FunctionEntry → Rule
  /-- What is known of the function around. -/
  good : Option FunctionEntry → Prop
  /-- What is known of a function in the table. -/
  entry : FunctionEntry → Prop
  /-- What is asked of a function apart from its body. -/
  header : FunctionDef → Prop
  /-- What is asked of the names of families. -/
  families : List String → Prop
  /-- Whether no call has been recorded before. -/
  fresh : Prop := True
  mono : ∀ {c c'}, Extends c c' → (dst c).Implies (dst c')
  list : ∀ {c ss}, (dst c).list ss
  outside : good none
  noFamilies : families []
  -- Expressions.
  expr : ∀ {c w} {e : Expr}, good c → e.Meets src → (Lowering.expr (refsOf env w c) e).Meets (dst c)
  call : ∀ {c w k}, good c → src.stmt (.call k) → argsMeet src (src.skips k.name.name) k.args →
    Stmt.Meets (dst c) ⟨.call (Lowering.call (refsOf env w c) k), k.span, []⟩
  binary : ∀ {op left right span}, src.expr (.binary op left right span)
  atom : ∀ {op left right}, ¬ src.atom op left right
  whole : ∀ {target value}, ¬ src.whole target value
  step : ∀ {word span} {e : Expr}, word = "inc" ∨ word = "dec" →
    src.stmt (.call (.plain (.fixed word span) [e] true))
  -- Statements.
  assign : ∀ {c target value}, (dst c).stmt (.assign target value)
  whileLoop : ∀ {c cond body}, (dst c).stmt (.whileLoop cond body)
  ifOne : ∀ {c b otherwise}, (dst c).stmt (.ifChain [b] otherwise)
  ifNone : ∀ {c o o'}, src.stmt (.ifChain [] o) → (dst c).stmt (.ifChain [] o')
  select : ∀ {c subject subject' cs cs'},
    List.Forall₂ (fun c c' => c'.stop.isSome = c.stop.isSome) cs cs' →
    src.stmt (.select subject cs) → (dst c).stmt (.select subject' cs')
  family : ∀ {fs name body}, families fs → src.stmt (.family name body) →
    families (openFamily env fs name)
  -- Declarations.
  declared : ∀ {w fs d}, families fs → src.stmt (.declare d) → d.Meets src →
    (dst none).stmt (.declare (lowered (refsOf env w none) fs d))
  promoted : ∀ {f w fs d span trace}, good (some f) → families fs → src.stmt (.declare d) →
    d.Meets src →
    good (some { f with globals := f.globals ++
      [⟨.declare ((lowered (refsOf env w (some f)) fs d).withoutModifier "global"), span, trace⟩] })
  framed : ∀ {f w fs d span trace localNames}, good (some f) → families fs →
    src.stmt (.declare d) → d.Meets src → f.fn.isTaskfunc = true →
    let r := addFrameLocal { f with localNames } (lowered (refsOf env w (some f)) fs d) span trace
    good (some r.2) ∧ stmtsMeet (dst (some r.2)) r.1
  renamed : ∀ {f w fs d span trace localNames unique}, good (some f) → families fs →
    src.stmt (.declare d) → d.Meets src →
    isUnique (lowered (refsOf env w (some f)) fs d) unique →
    let r := addRenamedLocal { f with localNames } unique (lowered (refsOf env w (some f)) fs d)
      span trace
    good (some r.2) ∧ stmtsMeet (dst (some r.2)) r.1
  -- Functions.
  openFunction : ∀ {f}, header f → good (some (opened env f))
  closeFunction : ∀ {e body}, good (some e) → stmtsMeet (dst (some e)) body →
    entry { e with fn := { e.fn with body } }
  accessors : ∀ {fs name functions}, families fs → src.stmt (.property name functions) →
    ∀ f ∈ functions, header (accessor (declaredName env fs name).name { f with body := [] })
  synonym : ∀ {fs name indices target span}, families fs →
    src.stmt (.synonym name indices target) →
    header (synonymGetter (declaredName env fs name).name indices span) ∧
      header (synonymSetter (declaredName env fs name).name indices span)
  result : ∀ {span}, (VarRef.plain (.ofText "result" span)).Meets src
  valueToSet : ∀ {span}, (VarRef.plain (.ofText "value_to_set" span)).Meets src

end FlatScript.Lowering
