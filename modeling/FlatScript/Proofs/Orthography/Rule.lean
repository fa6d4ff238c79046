import FlatScript.Proofs.Compaction.Table
import FlatScript.Proofs.Lowering.Scheme

/-!
# Rules of spelling

What is known of the names, the strings and the words of a script is known from its tokens, and no
step of the compilation makes names out of anything else: it puts namespaces and families in front,
an underscore or a number or the end of another name behind, and takes dots away. A
`FlatScript.Orthography` says what is asked of names at each of their places, and the theorems of
this directory follow any of them from the tokens of a text to what is written in the end, if only
it allows what the steps do to names.

* `FlatScript.Orthography.rule` is the rule for statements, and `FlatScript.Block.Obeys` the one for
  blocks.
* `FlatScript.Orthography.Under` says that names may stand under the namespaces of some lines.
* `FlatScript.Orthography.Stays` says that whatever else happens to names is allowed.
-/

namespace FlatScript

/-! ### Lists of values -/

/-- **A list of values that shows**: one value in parentheses is an expression, unless an array is
declared. -/
def Initializer.Listed (isArray : Bool) : Initializer → Prop
  | .single _ => True
  | .list values => isArray = true ∨ 2 ≤ values.length

/-- The values of a declaration are a list only where that shows. -/
def Declaration.Listed (d : Declaration) : Prop := ∀ i ∈ d.init, i.Listed d.size.isSome

theorem Declaration.Reshaped.listed {d d' : Declaration} (h : d.Reshaped d') (hd : d.Listed) :
    d'.Listed := by
  intro i' hi'
  have hinit := h.init
  rw [Option.mem_def.mp hi'] at hinit
  cases hd' : d.init with
  | none =>
    rw [hd'] at hinit
    cases hinit
  | some i =>
    rw [hd'] at hinit
    cases hinit with
    | some hi =>
    have hlisted := hd i hd'
    cases i <;> cases i' <;> first | trivial | exact hi.elim | skip
    rw [Initializer.Listed, h.size, show _ = _ from hi]
    exact hlisted

/-! ### Lines -/

/-- What holds of the lines that are known, and of the others, holds of every line. -/
theorem Lines.forall_info {l : Lines} {P : LineInfo → Prop} (hknown : ∀ info ∈ l.known, P info)
    (hother : P l.other) (n : Nat) : P (l.info n) := by
  cases n with
  | zero => exact hother
  | succ n =>
    rw [Lines.info, List.getD_eq_getElem?_getD]
    cases hget : l.known[n]? with
    | none => exact hother
    | some info => exact hknown info (List.mem_of_getElem? hget)

/-! ### Orthographies -/

/-- **What is asked of the names, strings and words of a script.** A name is given by its sigil and
the rest. -/
structure Orthography where
  /-- What is asked of a variable that is referred to. -/
  reference : Option Sigil → String → Prop
  /-- What is asked of a function that is called. -/
  callee : Option Sigil → String → Prop
  /-- What is asked of a variable that is declared, apart from its sigil. -/
  declared : String → Prop
  /-- What is asked of functions, properties and parameters, apart from their sigils. -/
  title : String → Prop
  /-- What is asked of a family, apart from its sigil. -/
  family : String → Prop
  /-- What is asked of a string. -/
  string : String → Prop
  /-- What is asked of a text that is kept as it was written. -/
  raw : String → Prop
  /-- What is asked of modifiers and of the names of callbacks. -/
  word : String → Prop
  /-- Whether calls have to be what their places make of them, and lists of values have to show. -/
  placed : Prop

namespace Orthography

variable (o : Orthography)

/-- A function with a name and with parameters as they should be. -/
structure Head (f : FunctionDef) : Prop where
  name : o.title f.name.name
  params : ∀ p ∈ f.params, o.title p.name.name

/-- **Statements with names as they should be.** -/
def rule : Rule where
  expr
    | .var i _ _ => o.reference i.sigil i.name
    | .call name _ isProcedure _ _ =>
      o.callee name.sigil name.name ∧ (o.placed → isProcedure = false)
    | .str raw _ => o.string raw
    | .raw text _ => o.raw text
    | _ => True
  stmt
    | .property name fs => o.title name.name ∧ ∀ f ∈ fs, o.Head f
    | .synonym name indices _ => o.title name.name ∧ ∀ i ∈ indices, o.title i.name
    | .family name _ => o.family name.name
    | .declare d => o.declared d.name.name ∧ (∀ m ∈ d.modifiers, o.word m) ∧ (o.placed → d.Listed)
    | .call c => o.callee c.name.sigil c.name.name ∧ (o.placed → c.isProcedure = true)
    | _ => True
  list _ := True
  skips _ := false
  atom _ _ _ := False

/-- A text that is a name of any kind. -/
structure Names (text : String) : Prop where
  reference : o.reference (Sigil.split text).1 (Sigil.split text).2
  callee : o.callee (Sigil.split text).1 (Sigil.split text).2
  declared : o.declared (Sigil.split text).2
  title : o.title (Sigil.split text).2
  family : o.family (Sigil.split text).2
  word : o.word text

/-- **Names may stand under the namespaces of some lines.** -/
structure Under (lines : Lines) where
  /-- What is asked of the families around a declaration, and of the namespaces in front. -/
  families : List String → Prop
  nil : families []
  namespaces : ∀ n, families (lines.info n).namespaces
  snoc : ∀ {fs name}, families fs → o.family name → families (fs ++ [name])
  reference : ∀ {n s name}, o.reference s name →
    o.reference s (Name.qualified (lines.info n).namespaces name)
  callee : ∀ {n s name}, o.callee s name →
    o.callee s (Name.qualified (lines.info n).namespaces name)
  declared : ∀ {fs name}, families fs → o.declared name → o.declared (Name.qualified fs name)
  title : ∀ {fs name}, families fs → o.title name → o.title (Name.qualified fs name)
  family : ∀ {fs name}, families fs → o.family name → o.family (Name.qualified fs name)

/-- The variables that the compiler refers to by itself. -/
def ownVariables : List String :=
  [Frame.stack, Frame.framePointer, Frame.stackPointer, "result", "value_to_set"]

/-- The functions that the compiler calls by itself. -/
def ownFunctions : List String := ["inc", "dec", "get_ui_id"]

/-- **What the steps of a compilation do to names is allowed**, apart from namespaces. -/
structure Stays : Prop where
  ownVariable : ∀ text ∈ ownVariables, o.reference (Sigil.split text).1 (Sigil.split text).2
  ownFunction : ∀ text ∈ ownFunctions, o.callee (Sigil.split text).1 (Sigil.split text).2
  valueToSet : o.title (Sigil.split "value_to_set").2
  init : o.word "init"
  /-- A local variable gets a name of its own. -/
  renamed : ∀ {d unique}, o.declared d.name.name → Lowering.isUnique d unique →
    o.reference (Sigil.split unique).1 (Sigil.split unique).2 ∧ o.declared (Sigil.split unique).2
  /-- A property has functions. -/
  accessor : ∀ {property name}, o.title property → o.title name →
    o.title (Sigil.split (property ++ "." ++ name)).2
  synonym : ∀ {property suffix}, o.title property → suffix = ".get" ∨ suffix = ".set" →
    o.title (Sigil.split (property ++ suffix)).2
  getter : ∀ {s name suffix}, o.reference s name → suffix = ".get" ∨ suffix = ".set" →
    o.callee (Sigil.split (name ++ suffix)).1 (Sigil.split (name ++ suffix)).2
  /-- A function is called by its name alone. -/
  called : ∀ {s name}, o.reference s name → o.callee s name
  /-- A variable gets its sigil. -/
  sigil : ∀ {s s' name}, o.reference s name → o.reference (some s') name
  /-- An argument stands in the place of the first part of a name. -/
  merged : ∀ {s name s' name'}, o.reference s name → o.reference s' name' →
    o.reference (s' <|> s) (name' ++ Name.lastPart name)
  mergedCallee : ∀ {s name s' name'}, o.callee s name → o.reference s' name' →
    o.callee none (name' ++ Name.lastPart name)
  /-- Names lose their dots. -/
  undotted : ∀ {s name}, o.reference s name → o.reference s (Name.undotted name)
  undottedCallee : ∀ {s name}, o.callee s name → o.callee s (Name.undotted name)
  undottedDeclared : ∀ {name}, o.declared name → o.declared (Name.undotted name)
  undottedTitle : ∀ {name}, o.title name → o.title (Name.undotted name)
  /-- Variables get short names. -/
  short : ∀ (s : Sigil) n, o.reference (some s) (String.ofList (Compaction.letters 5 n))
  shortDeclared : ∀ n, o.declared (String.ofList (Compaction.letters 5 n))

end Orthography

/-- **A block with names as they should be.** -/
def Block.Obeys (o : Orthography) : Block → Prop
  | .callback c =>
    o.word c.name ∧ (∀ i ∈ c.control, o.reference i.sigil i.name) ∧ stmtsMeet o.rule c.body
  | .function f => o.Head f ∧ stmtsMeet o.rule f.body

/-- **A function of the table with names as they should be**, with its declarations. -/
structure FunctionEntry.Obeys (o : Orthography) (e : FunctionEntry) : Prop where
  head : o.Head e.fn
  body : stmtsMeet o.rule e.fn.body
  decls : stmtsMeet o.rule (e.globals ++ e.locals)

/-- **A script and its functions obey an orthography**, and no two functions have the same name. -/
structure Obeyed (o : Orthography) (s : Script) (p : Program) : Prop where
  blocks : ∀ b ∈ s.blocks, b.Obeys o
  functions : ∀ e ∈ p.functions, e.Obeys o
  nodup : (p.functions.map FunctionEntry.name).Nodup

variable {o : Orthography}

theorem Block.Obeys.body {b : Block} (h : b.Obeys o) : stmtsMeet o.rule b.body := by
  cases b with
  | callback c => exact h.2.2
  | function f => exact h.2

namespace Orthography

/-! ### The rule -/

theorem reshaped {k k' : StmtKind} (h : k.Reshaped k') (hk : o.rule.stmt k) : o.rule.stmt k' := by
  cases h with
  | property hfs =>
    refine ⟨hk.1, fun f' hf' => ?_⟩
    obtain ⟨f, hf, hbody⟩ := exists_mem_of_forall₂ hfs hf'
    rw [hbody]
    exact ⟨(hk.2 f hf).name, (hk.2 f hf).params⟩
  | @declare d d' hd =>
    change o.declared d'.name.name ∧ (∀ m ∈ d'.modifiers, o.word m) ∧ (o.placed → d'.Listed)
    rw [hd.name, hd.modifiers]
    exact ⟨hk.1, hk.2.1, fun hplaced => hd.listed (hk.2.2 hplaced)⟩
  | synonym => exact hk
  | family => exact hk
  | _ => trivial

theorem meets_assign {target : VarRef} {value : Expr} (ht : target.Meets o.rule)
    (hv : value.Meets o.rule) (span : Span) (trace : List Span) :
    Stmt.Meets o.rule ⟨.assign target value, span, trace⟩ :=
  .inr ⟨trivial, ht, hv⟩

variable (ho : o.Stays)

include ho

/-- A variable of the compiler's own. -/
theorem Stays.fixedVar {text : String} (h : text ∈ ownVariables) (span : Span) :
    (Frame.fixedVar text span).Meets o.rule :=
  ⟨ho.ownVariable text h, trivial⟩

/-- The cells of a frame. -/
theorem Stays.slot {pointer : String} (h : pointer ∈ ownVariables) (op : BinaryOp) (offset : Nat)
    (span : Span) : (Frame.slot pointer op offset span).Meets o.rule := by
  refine ⟨ho.ownVariable Frame.stack (by simp [ownVariables]), ?_, trivial⟩
  split
  · exact ho.fixedVar h span
  · exact .inr ⟨trivial, ho.fixedVar h span, trivial⟩

end Orthography

end FlatScript
