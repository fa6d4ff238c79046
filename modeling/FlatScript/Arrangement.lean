import FlatScript.CallGraph.Cycle
import FlatScript.CallGraph.Order
import FlatScript.Program

/-!
# Which functions are written, and where

The engine wants a function before its calls, and all declarations in the init callback. So
the functions that a callback reaches through `call` stand behind the init callback, callees
before callers, and the declarations in the bodies of functions move into it. A function that
was only ever copied to its calls is not written.

Functions that call each other in a circle have no such order; that is an error.
-/

namespace FlatScript.Arrangement

/-- The functions, with those that a callback reaches marked as used. -/
def markUsed (p : Program) : List FunctionEntry :=
  let reached := p.calls.reachableFromRoot
  p.functions.map fun e => { e with used := e.used || reached.contains e.name }

/-- **The functions that are written**, callees before callers. -/
def written (calls : CallGraph) (functions : List FunctionEntry) : List FunctionDef :=
  calls.topologicalOrder.reverse.filterMap fun name =>
    if calls.isExplicit name then
      (functions.find? fun e => e.name == name && e.used).map FunctionEntry.fn
    else none

/-- **A body with the declarations of the used functions around it**: those of globals in
front and those of locals behind, the first function outermost. -/
def hoist (functions : List FunctionEntry) (body : List Stmt) : List Stmt :=
  functions.foldr (fun e body => if e.used then e.globals ++ body ++ e.locals else body) body

/-- A used function without the declarations that have moved. -/
def withoutHoisted (e : FunctionEntry) : FunctionEntry :=
  if e.used then { e with globals := [], locals := [] } else e

/-- **A script with its functions written between the init callback and the others.** -/
def script (s : Script) : Compile Script := do
  let p ← get
  let functions := markUsed p
  match p.calls.findCycle with
  | some cycle => throw (.recursionDetected ("->".intercalate cycle))
  | none => match s.blocks with
    | .callback init :: rest =>
      set { p with functions := functions.map withoutHoisted }
      let init := { init with body := hoist functions init.body }
      return ⟨.callback init :: (written p.calls functions).map .function ++ rest⟩
    | _ => throw (.internal "module does not start with the init callback")

end FlatScript.Arrangement
