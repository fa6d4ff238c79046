import FlatScript.Lowering.Declare
import FlatScript.Lowering.Loop

/-!
# Lowering bodies and functions

One walk over a script resolves its names and takes the constructs apart that only exist in
the source: families and properties go, counting loops become plain ones, and conditions with
several branches are nested. Functions are taken out of the script into the table.

* `FlatScript.Lowering.stmts` lowers statements.
* `FlatScript.Lowering.function` enters a function into the table.
* `FlatScript.Lowering.script` lowers a script and leaves its callbacks, init first.
-/

namespace FlatScript.Lowering

/-! ### Entering functions -/

/-- What entering a function of a name finds in the table. -/
inductive Entry where
  /-- Nothing, or a function that gives way. -/
  | free
  /-- A function that overrides the new one. -/
  | overridden
  /-- A function that must not be defined again. -/
  | taken

/-- What a new function finds in the table under its name. -/
def entryFor (p : Program) (f : FunctionDef) : Entry :=
  match p.function? f.name.name with
  | none => .free
  | some old =>
    if f.isOverride then .free else if old.fn.isOverride then .overridden else .taken

/-- The variables that a list of declarations declares. -/
def declaredVariables (decls : List Stmt) : List String :=
  decls.filterMap fun s => match s.kind with
    | .declare d => some d.name.full
    | _ => none

/-- The program with a function entered. The local variables of a function that it replaces
are forgotten. -/
def enter (p : Program) (e : FunctionEntry) : Program :=
  let replaced := ((p.function? e.name).map (·.locals)).getD []
  let symbols := (declaredVariables replaced).foldl Symbols.removeVariable p.symbols
  { p.putFunction e with calls := p.calls.ensure e.name, symbols }

/-- Enter a function whose body is lowered by `body`. -/
def functionWith (env : Env) (f : FunctionDef) (body : Lower (List Stmt)) : Lower Unit := do
  if ¬ f.paramNames.Nodup then
    throw (env.errorAt (.duplicateParameter f.name.full) f.span [])
  let f := { f with name := f.name.qualifyDeclared env.lines }
  match entryFor (← get).program f with
  | .overridden => return
  | .taken => throw (env.errorAt (.duplicateFunction f.name.name) f.name.span [])
  | .free =>
    let outer := (← get).current
    modify ({ · with current := some { fn := { f with body := [] } } })
    let body ← body
    match (← get).current with
    | none => throw (.internal "function scope lost while lowering")
    | some e =>
      modify fun s =>
        ⟨enter s.program { e with fn := { e.fn with body } }, outer⟩

/-! ### Properties -/

/-- The fault of a function of a property, if it has one. -/
def accessorFault? (property : String) (f : FunctionDef) : Option Fault :=
  if f.name.name = "get" then
    if f.result.isNone then some (.getterWithoutResult property) else none
  else if f.name.name = "set" then
    if f.result.isSome then some (.setterWithResult property)
    else if f.params.isEmpty then some (.setterWithoutParameter property)
    else none
  else some (.invalidAccessor f.name.name)

/-- The check of the functions of a property. -/
def checkAccessors (env : Env) (property : String) (functions : List FunctionDef) (span : Span) :
    Except CompileError Unit := do
  if functions.isEmpty then throw (env.errorAt (.missingAccessors property) span [])
  functions.forM fun f => match accessorFault? property f with
    | some fault => throw (env.errorAt fault f.span [])
    | none => pure ()

/-- A function of a property, under the name of the property. -/
def accessor (property : String) (f : FunctionDef) : FunctionDef :=
  { f with name := .fixed (property ++ "." ++ f.name.name) f.name.span }

/-- The function that reads a property which stands for a variable. -/
def synonymGetter (property : String) (indices : List Ident) (span : Span) : FunctionDef where
  name := .fixed (property ++ ".get") span
  params := indices.map (⟨·, .value⟩)
  result := some (.ofText "result" span)
  body := []
  isTaskfunc := false
  isOverride := false
  span := span

/-- The function that writes a property which stands for a variable. -/
def synonymSetter (property : String) (indices : List Ident) (span : Span) : FunctionDef where
  name := .fixed (property ++ ".set") span
  params := indices.map (⟨·, .value⟩) ++ [⟨.ofText "value_to_set" span, .value⟩]
  result := none
  body := []
  isTaskfunc := false
  isOverride := false
  span := span

/-- An assignment with its references resolved. -/
def assignment (env : Env) (target : VarRef) (value : Expr) (span : Span) (trace : List Span) :
    Lower Stmt := do
  let r ← refs env
  return ⟨.assign (varRef r target) (expr r value), span, trace⟩

/-- Enter the functions of a property that stands for a variable. -/
def synonym (env : Env) (property : String) (indices : List Ident) (target : VarRef)
    (span : Span) : Lower Unit := do
  functionWith env (synonymGetter property indices span) do
    return [← assignment env (.plain (.ofText "result" span)) target.toExpr span []]
  functionWith env (synonymSetter property indices span) do
    return [← assignment env target (VarRef.plain (.ofText "value_to_set" span)).toExpr span []]

/-! ### Statements -/

/-- The step of a counting loop, with its references resolved as they stand after the
body. -/
def stepStmt (env : Env) (var : VarRef) (step : Option Expr) (downto : Bool) (span : Span)
    (trace : List Span) : Lower Stmt := do
  let r ← refs env
  return ⟨match loopStep var step downto span with
    | .call c => .call (call r c)
    | .assign target value => .assign (varRef r target) (expr r value)
    | other => other, span, trace⟩

mutual

/-- A statement. -/
def stmt (env : Env) (families : List String) : Stmt → Lower (List Stmt)
  | ⟨.forLoop var start stop step downto body, span, trace⟩ => do
    let first ← assignment env var start span trace
    let cond := expr (← refs env) (loopCondition var stop downto)
    let body ← stmts env families body
    let last ← stepStmt env var step downto span trace
    return [first, ⟨.whileLoop cond (body ++ [last]), span, trace⟩]
  | ⟨.ifChain branches otherwise, span, trace⟩ => do
    return [← chain env families span trace (stmts env families otherwise) branches]
  | ⟨.family name body, _, _⟩ => do
    let name := if families.isEmpty then (name.qualifyDeclared env.lines).name else name.name
    let families := families ++ [name]
    modifySymbols (·.addFamily (".".intercalate families))
    stmts env families body
  | ⟨.property name functions, span, _⟩ => do
    let property := (declaredName env families name).name
    checkAccessors env property functions span
    accessors env property functions
    modifySymbols (·.addProperty property)
    return []
  | ⟨.synonym name indices target, span, _⟩ => do
    let property := (declaredName env families name).name
    synonym env property indices target span
    modifySymbols (·.addProperty property)
    return []
  | ⟨.declare d, span, trace⟩ => declaration env families d span trace
  | ⟨.assign target value, span, trace⟩ => return [← assignment env target value span trace]
  | ⟨.call c, span, trace⟩ => return [⟨.call (call (← refs env) c), span, trace⟩]
  | ⟨.whileLoop cond body, span, trace⟩ => do
    let cond := expr (← refs env) cond
    return [⟨.whileLoop cond (← stmts env families body), span, trace⟩]
  | ⟨.select subject cs, span, trace⟩ => do
    let subject := expr (← refs env) subject
    return [⟨.select subject (← cases env families cs), span, trace⟩]

/-- **Statements.** -/
def stmts (env : Env) (families : List String) : List Stmt → Lower (List Stmt)
  | [] => return []
  | s :: ss => do
    let first ← stmt env families s
    return first ++ (← stmts env families ss)

/-- Branches, nested into one another, with what happens when no condition holds. -/
def chain (env : Env) (families : List String) (span : Span) (trace : List Span)
    (otherwise : Lower (List Stmt)) : List Branch → Lower Stmt
  | [] => return ⟨.ifChain [] (← otherwise), span, trace⟩
  | [⟨cond, body⟩] => do
    let cond := expr (← refs env) cond
    let body ← stmts env families body
    return ⟨.ifChain [⟨cond, body⟩] (← otherwise), span, trace⟩
  | ⟨cond, body⟩ :: rest => do
    let cond := expr (← refs env) cond
    let body ← stmts env families body
    let inner ← chain env families span trace otherwise rest
    return ⟨.ifChain [⟨cond, body⟩] [inner], span, trace⟩

/-- Cases. -/
def cases (env : Env) (families : List String) : List Case → Lower (List Case)
  | [] => return []
  | ⟨start, stop, body⟩ :: rest => do
    let r ← refs env
    let start := expr r start
    let stop := stop.map (expr r)
    let body ← stmts env families body
    return ⟨start, stop, body⟩ :: (← cases env families rest)

/-- Enter the functions of a property. -/
def accessors (env : Env) (property : String) : List FunctionDef → Lower Unit
  | [] => return
  | ⟨name, params, result, body, isTaskfunc, isOverride, span⟩ :: rest => do
    functionWith env
      (accessor property ⟨name, params, result, [], isTaskfunc, isOverride, span⟩)
      (stmts env [] body)
    accessors env property rest

end

/-- Enter a function of the script. -/
def function (env : Env) (f : FunctionDef) : Lower Unit :=
  functionWith env f (stmts env [] f.body)

/-! ### Scripts -/

/-- The init callback of a script that has none. -/
def emptyInit : Callback := ⟨"init", none, [], .zero⟩

/-- Whether a block is an init callback. -/
def isInitBlock : Block → Bool
  | .callback c => c.isInit
  | .function _ => false

/-- The blocks with the first init callback in front. -/
def initFirst (blocks : List Block) : List Block :=
  match blocks.find? isInitBlock with
  | some init => init :: blocks.eraseP isInitBlock
  | none => .callback emptyInit :: blocks

/-- The callbacks of a list of blocks, lowered; the functions are entered. -/
def blocks (env : Env) : List Block → Lower (List Block)
  | [] => return []
  | .callback c :: rest => do
    let control := c.control.map (← refs env).ident
    let body ← stmts env [] c.body
    return .callback { c with control, body } :: (← blocks env rest)
  | .function f :: rest => do
    function env f
    blocks env rest

/-- **A script, lowered**: its callbacks remain, init first, and its functions are in the
table. -/
def script (env : Env) (s : Script) : Compile Script := do
  let p ← get
  let p := { p with
    writtenNames := s.functions.foldl (fun ns f => Name.insertNew ns f.name.name)
      p.writtenNames }
  let (blocks, state) ← (blocks env (initFirst s.blocks)).run ⟨p, none⟩
  set state.program
  return ⟨blocks⟩

end FlatScript.Lowering
