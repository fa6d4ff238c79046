import FlatScript.Frame
import FlatScript.Lowering.Reference
import FlatScript.Value

/-!
# Declarations

Every declared variable gets a sigil, read off the shape of the declaration when it is not
written. What becomes of the declaration depends on where it stands:

* in a callback it stays where it is, and the variable is global;
* in a function that runs at the start, or with the word `global`, it is global too, and
  moves to the init callback;
* in a task function it becomes a cell of the frame, unless the word `local` is there;
* elsewhere in a function it moves to the init callback under a name of its own.

The value that a local variable starts with is assigned where the declaration stood.
-/

namespace FlatScript.Lowering

/-! ### Sigils of declarations -/

/-- The value that the type of a declaration can be read off, if it is constant. -/
def sampleValue? (d : Declaration) : Option Value :=
  d.firstValue?.bind fun e => (e.eval []).toOption

/-- **The sigil of a declaration** that is written without one: an array sigil if there is a
size, and by the first value otherwise integer, real or string. A constant and a single
string count as integers. -/
def inferSigil (d : Declaration) : Sigil :=
  if d.size.isSome then
    if d.uiKind? = some "ui_xy" then .realArray
    else match sampleValue? d with
      | some (.str _) => .stringArray
      | some (.real _) => .realArray
      | _ => .integerArray
  else match sampleValue? d with
    | some (.real _) => if d.isConst then .integer else .real
    | _ => .integer

/-! ### The state of lowering -/

/-- What changes while a script is lowered: the program, and the function whose body is
being treated. -/
structure State where
  /-- The program. -/
  program : Program
  /-- The function around the statement, with what is known of it so far. -/
  current : Option FunctionEntry

/-- A step of lowering. -/
abbrev Lower (α : Type) := StateT State (Except CompileError) α

/-- Change the declared names. -/
def modifySymbols (f : Symbols → Symbols) : Lower Unit :=
  modify fun s => { s with program := { s.program with symbols := f s.program.symbols } }

/-- What the references of the statement at hand are resolved by. -/
def refs (env : Env) : Lower Refs := do
  let s ← get
  return ⟨env, s.program.writtenNames, (s.current.map (·.fn.paramNames)).getD [],
    (s.current.map (·.substitutions)).getD []⟩

/-- The name of a declaration: under the families around it, or under the namespaces of its
line. -/
def declaredName (env : Env) (families : List String) (i : Ident) : Ident :=
  if families.isEmpty then i.qualifyDeclared env.lines else i.under families

/-! ### Local variables -/

/-- The first name that is not declared among `base` with the numbers from `n` on. There are
`fuel` numbers to try before the last resort. -/
def numberedName (s : Symbols) (base : String) : Nat → Nat → String
  | 0, n => base ++ toString n
  | fuel + 1, n =>
    if s.hasVariable (base ++ toString n) then numberedName s base fuel (n + 1)
    else base ++ toString n

/-- **A name for a local variable** that no declared variable has. -/
def freshName (s : Symbols) (base : String) : String :=
  if s.hasVariable base then numberedName s base s.vars.length 2 else base

/-- Whether a declaration in a function is of a global variable. -/
def isPromoted (f : FunctionEntry) (d : Declaration) : Bool :=
  (Text.occursIn "on_init".toList (Text.lower f.name).toList && !d.hasModifier "local") ||
    d.hasModifier "global"

/-- The assignment of the value that a local variable starts with, and the declaration
without it. Constants and arrays keep their values. -/
def splitInit (target : VarRef) (d : Declaration) : List StmtKind × Declaration :=
  if d.isConst || d.size.isSome then ([], d)
  else match d.init with
    | some (.single value) => ([.assign target value], { d with init := none })
    | _ => ([], { d with init := none })

/-- The function with a local variable that lives in its frame. -/
def addFrameLocal (f : FunctionEntry) (d : Declaration) (span : Span) (trace : List Span) :
    List Stmt × FunctionEntry :=
  let target := Frame.slot Frame.framePointer .add (f.frame.length + 1) d.name.span
  let (assigns, decl) := splitInit target d
  (assigns.map (⟨·, span, trace⟩),
    { f with
      substitutions := (d.name.name, target) :: f.substitutions
      frame := f.frame ++ [⟨.declare decl, span, trace⟩] })

/-- The function with a local variable under the name `unique`. -/
def addRenamedLocal (f : FunctionEntry) (unique : String) (d : Declaration) (span : Span)
    (trace : List Span) : List Stmt × FunctionEntry :=
  let ident := Ident.fixed unique d.name.span
  let target := VarRef.plain ident
  let (assigns, decl) := splitInit target { d.withoutModifier "local" with name := ident }
  (assigns.map (⟨·, span, trace⟩),
    { f with
      substitutions := (d.name.name, target) :: f.substitutions
      locals := f.locals ++ [⟨.declare decl, span, trace⟩] })

/-- The declaration of a variable in the body of the function `f`. -/
def declareIn (env : Env) (f : FunctionEntry) (d : Declaration) (span : Span)
    (trace : List Span) : Lower (List Stmt) := do
  let isUi := d.uiKind?.isSome
  if isPromoted f d then
    let d := d.withoutModifier "global"
    modifySymbols (·.addVariable d.name.full isUi)
    modify ({ · with
      current := some { f with globals := f.globals ++ [⟨.declare d, span, trace⟩] } })
    return []
  let key := Text.lower d.name.name
  if f.localNames.contains key then
    throw (env.errorAt (.localRedeclared d.name.name) d.name.span trace)
  let f := { f with localNames := f.localNames ++ [key] }
  if f.fn.isTaskfunc && !d.hasModifier "local" then
    let (stmts, f) := addFrameLocal f d span trace
    modify ({ · with current := some f })
    return stmts
  let sigil := d.name.sigil.getD .integer
  let unique := freshName (← get).program.symbols (sigil.text ++ "_" ++ d.name.name)
  modifySymbols (·.addVariable unique isUi)
  let (stmts, f) := addRenamedLocal f unique d span trace
  modify ({ · with current := some f })
  return stmts

/-- The declaration of a variable in the body of the function around it. -/
def localDeclaration (env : Env) (d : Declaration) (span : Span) (trace : List Span) :
    Lower (List Stmt) := do
  match (← get).current with
  | none => throw (.internal "local declaration outside a function")
  | some f => declareIn env f d span trace

/-- **A declaration**, in a callback or in a function. -/
def declaration (env : Env) (families : List String) (d : Declaration) (span : Span)
    (trace : List Span) : Lower (List Stmt) := do
  let r ← refs env
  let d : Declaration :=
    { d with
      name := declaredName env families d.name
      size := d.size.map (expr r)
      params := exprs r d.params
      init := d.init.map (initializer r) }
  let d := { d with name := { d.name with sigil := some (d.name.sigil.getD (inferSigil d)) } }
  if (← get).current.isNone then
    modifySymbols (·.addVariable d.name.full d.uiKind?.isSome)
    return [⟨.declare d, span, trace⟩]
  else localDeclaration env d span trace

end FlatScript.Lowering
