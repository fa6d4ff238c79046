import FlatScript.Arrangement
import FlatScript.Builtin.Standard
import FlatScript.Callbacks
import FlatScript.Compaction.Script
import FlatScript.Controls
import FlatScript.Folding.Script
import FlatScript.Inlining.Expand
import FlatScript.Lowering.Body
import FlatScript.Parser.Script
import FlatScript.Pragma
import FlatScript.Printer
import FlatScript.Sigils
import FlatScript.Stage
import FlatScript.Taskfunc
import FlatScript.Undotting

/-!
# Compilation

A script with functions, properties, families and namespaces is compiled to one that the
engine takes: callbacks, functions without parameters, and plain statements.

* `FlatScript.steps` lists what is done to a parsed script, stage by stage.
* `FlatScript.compileStaged` compiles a script. It reports the stages that it enters, and
  its caller can stop it between two of them.
* `FlatScript.compile` compiles a script without either.
-/

namespace FlatScript

/-! ### Results -/

/-- **A compiled script.** -/
structure Compiled where
  /-- The text for the engine. -/
  code : String
  /-- The short names, if variables got any. -/
  shortNames : Option ShortNames
  /-- The options after the directives of the script. -/
  options : Options

/-- Why there is no compiled script. -/
inductive Failure where
  /-- The script could not be parsed. -/
  | parse (errors : List ParseError)
  /-- The script has a fault. -/
  | program (error : CompileError)
  /-- The caller stopped the compilation. -/
  | cancelled

/-- The text of a failure; parse errors have a line each. -/
def Failure.message : Failure → String
  | parse errors => "\n".intercalate (errors.map ParseError.text)
  | program error => error.message
  | cancelled => "compilation aborted"

/-! ### Steps -/

/-- A step on a parsed script, and the stage it belongs to. -/
structure Step where
  /-- The stage. -/
  stage : Stage
  /-- What is done. -/
  run : Script → Compile Script

/-- **The steps between parsing and short names**, as the options ask for them. -/
def steps (env : Env) (o : Options) : List Step :=
  (if o.combineCallbacks then [⟨.combining, fun s => return s.combineCallbacks⟩] else []) ++
  [⟨.lowering, Lowering.script env⟩,
    ⟨.sigils, Sigils.script env⟩,
    ⟨.expanding, Inlining.script env⟩,
    ⟨.frames, fun s => do Taskfunc.program env; return s⟩,
    ⟨.ordering, Arrangement.script⟩,
    ⟨.controls, fun s => do Controls.script env (← Sigils.script env s)⟩,
    ⟨.dots, Undotting.script⟩] ++
  (if o.optimizeCode then [⟨.folding, fun s => return Folding.script s⟩] else [])

/-! ### Stages -/

/-- A compilation that reports its stages. The report is kept when it fails. -/
abbrev Staged := EStateM Failure (List Stage)

namespace Staged

/-- A stage is entered and reported, unless the caller wants to stop after the stages that
have been reported so far. -/
def enter (stop : List Stage → Bool) (stage : Stage) : Staged Unit := do
  let reported ← get
  if stop reported then throw .cancelled
  set (reported ++ [stage])

/-- The result of a parse, or its failure. -/
def ofParse {α : Type} : Except (List ParseError) α → Staged α
  | .ok a => pure a
  | .error errors => throw (.parse errors)

/-- The result of a step on a program, or its failure. -/
def ofCompile {α : Type} (step : Compile α) (p : Program) : Staged (α × Program) :=
  match step.run p with
  | .ok result => pure result
  | .error error => throw (.program error)

/-- The script and the program after some steps, each of which enters its stage. -/
def runSteps (stop : List Stage → Bool) : List Step → Script → Program → Staged (Script × Program)
  | [], s, p => pure (s, p)
  | step :: rest, s, p => do
    enter stop step.stage
    let (s, p) ← ofCompile (step.run s) p
    runSteps stop rest s p

/-- A script with short names, if the options ask for them. -/
def compact (stop : List Stage → Bool) (env : Env) (o : Options) (s : Script) (p : Program) :
    Staged (Script × Option ShortNames) := do
  if o.compactVariables then
    enter stop .compacting
    let ((s, short), _) ← ofCompile (Compaction.script env o.preserveNames s) p
    return (s, some short)
  else return (s, none)

end Staged

/-! ### Compiling -/

/-- **A script, compiled stage by stage**, until `stop` holds of the stages reported so
far. -/
def compileStaged (stop : List Stage → Bool) (env : Env) (o : Options) (source : String) :
    Staged Compiled := do
  Staged.enter stop .pragmas
  let o := o.withPragmas source env.lines
  Staged.enter stop .parsing
  let s ← Staged.ofParse (Script.parse source env.lines)
  let (s, p) ← Staged.runSteps stop (steps env o) s {}
  let (s, shortNames) ← Staged.compact stop env o s p
  Staged.enter stop .writing
  let code := Printer.script env.builtins o s
  Staged.enter stop .done
  return ⟨code, shortNames, o⟩

/-- **A script, compiled.** -/
def compile (env : Env) (o : Options) (source : String) : Except Failure Compiled :=
  match (compileStaged (fun _ => false) env o source).run [] with
  | .ok compiled _ => .ok compiled
  | .error failure _ => .error failure

/-- A script, compiled against the built-in names of the engine. -/
def compileSource (o : Options) (source : String) : Except Failure Compiled :=
  compile ⟨.standard, .single o.fileName⟩ o source

end FlatScript
