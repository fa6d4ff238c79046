import FlatScript.Builtin.Table
import FlatScript.CallGraph.Basic
import FlatScript.Error
import FlatScript.Lines
import FlatScript.Symbols
import FlatScript.Syntax.Script

/-!
# A program under compilation

While a script is compiled, its functions are taken out of it and kept in a table, together
with what has been learnt about them. This table, the declared names and the graph of calls
make up the `FlatScript.Program`. What does not change during a compilation, the built-in
names and the origin of the lines, is the `FlatScript.Env`.

* `FlatScript.Compile` is the type of steps that change the program and may fail.
-/

namespace FlatScript

/-! ### The environment -/

/-- **What a script is compiled against.** -/
structure Env where
  /-- The built-in names. -/
  builtins : Builtins
  /-- Where the lines come from. -/
  lines : Lines

/-- A fault at a span, in a statement that was copied through the calls of `trace`. -/
def Env.errorAt (env : Env) (fault : Fault) (span : Span) (trace : List Span) : CompileError :=
  .fault fault (env.lines.location span trace)

/-! ### The table of functions -/

/-- **A function of the script**, with what has been learnt about its body. -/
structure FunctionEntry where
  /-- The function. -/
  fn : FunctionDef
  /-- Its declarations of global variables, which belong into the init callback. -/
  globals : List Stmt := []
  /-- Its declarations of renamed local variables, which belong there too. -/
  locals : List Stmt := []
  /-- The declarations that live in the frame of a task function and are never written. -/
  frame : List Stmt := []
  /-- What stands in the place of a local variable, by its name without sigil. The latest
  declaration comes first. -/
  substitutions : List (String × VarRef) := []
  /-- The names of the local variables in lower case. -/
  localNames : List String := []
  /-- Whether a callback reaches the function. -/
  used : Bool := false

/-- The name by which a function is found. -/
def FunctionEntry.name (e : FunctionEntry) : String := e.fn.name.name

/-- **The program under compilation.** -/
structure Program where
  /-- The declared names. -/
  symbols : Symbols := {}
  /-- The functions, in the order of their declaration. -/
  functions : List FunctionEntry := []
  /-- The names of the functions as they are written, without namespaces. -/
  writtenNames : List String := []
  /-- The calls among the functions. -/
  calls : CallGraph := {}
  /-- The functions whose bodies wait. -/
  waiting : List String := []

namespace Program

/-- The function with a name. -/
def function? (p : Program) (name : String) : Option FunctionEntry :=
  p.functions.find? (·.name == name)

/-- Whether the script has a function with a name. -/
def isUserFunction (p : Program) (name : String) : Bool := p.functions.any (·.name == name)

/-- Whether a call by a name reaches a built-in function, rather than one of the script that
overrides it. -/
def isBuiltinCall (p : Program) (b : Builtins) (name : String) : Bool :=
  b.isFunction name && !(p.function? name).any (·.fn.isOverride)

/-- The program with the function of a name changed. -/
def updateFunction (p : Program) (name : String) (f : FunctionEntry → FunctionEntry) : Program :=
  { p with functions := p.functions.map fun e => if e.name == name then f e else e }

/-- The program with a function in the place of the one with its name, or at the end. -/
def putFunction (p : Program) (e : FunctionEntry) : Program :=
  if p.isUserFunction e.name then p.updateFunction e.name fun _ => e
  else { p with functions := p.functions ++ [e] }

end Program

/-! ### Steps -/

/-- **A step of the compilation.** -/
abbrev Compile (α : Type) := StateT Program (Except CompileError) α

end FlatScript
