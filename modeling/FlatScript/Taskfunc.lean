import FlatScript.Frame
import FlatScript.Inlining.Substitution

/-!
# The frames of task functions

A task function keeps its state in a frame on the stack, so that the state survives when the
function is suspended. Counted from the frame pointer, a frame consists of

* the frame pointer of the caller, at offset zero,
* the local variables,
* the parameters and then the result.

The caller has stored the arguments below the stack pointer. The body starts by moving the
frame over them and ends by giving the frame back. In between, parameters and result are the
cells that belong to them, so the function has no parameters and no result any more.
-/

namespace FlatScript.Taskfunc

/-- The names of the parameters and of the result, by which the body refers to them. -/
def slotNames (f : FunctionDef) : List String :=
  (f.params.map Param.name ++ f.result.toList).map fun i => Name.firstPart i.name

/-- The number of cells of the frame of a function. -/
def frameSize (e : FunctionEntry) : Nat := (slotNames e.fn).length + e.frame.length + 1

/-- The offset of the first parameter from the frame pointer. -/
def firstSlot (e : FunctionEntry) : Nat := e.frame.length + 1

/-- The names with their cells, from an offset on. -/
def slotsFrom (span : Span) (offset : Nat) : List String → Substitution
  | [] => []
  | name :: rest =>
    (name, (Frame.slot Frame.framePointer .add offset span).toExpr) ::
      slotsFrom span (offset + 1) rest

/-- **The cells of the parameters and of the result.** When two of them have the same name,
the later one counts. -/
def slots (e : FunctionEntry) : Substitution :=
  (slotsFrom e.fn.span (firstSlot e) (slotNames e.fn)).reverse

/-- An assignment that belongs to the frame and not to the script. -/
def assign (target : VarRef) (value : Expr) (span : Span) : Stmt :=
  .written (.assign target value) span

/-- What the body of a function starts with: it saves the frame pointer of the caller, and
both pointers move to the new frame. -/
def enter (size : Nat) (span : Span) : List Stmt :=
  let fp := Frame.fixedVar Frame.framePointer span
  let sp := Frame.fixedVar Frame.stackPointer span
  [assign (Frame.slot Frame.stackPointer .sub size span) fp.toExpr span,
    assign fp (sp.toExpr.op .sub (.int (Int32.ofNat size) span)) span,
    assign sp fp.toExpr span]

/-- What the body of a function ends with: both pointers move back. -/
def leave (size : Nat) (span : Span) : List Stmt :=
  let fp := Frame.fixedVar Frame.framePointer span
  let sp := Frame.fixedVar Frame.stackPointer span
  [assign sp fp.toExpr span,
    assign fp (Frame.slot Frame.framePointer .add 0 span).toExpr span,
    assign sp (sp.toExpr.op .add (.int (Int32.ofNat size) span)) span]

/-- **A task function with its frame**, whose size has to be an integer of the engine; any
other function stays as it is. -/
def withFrame (env : Env) (e : FunctionEntry) : Except CompileError FunctionEntry := do
  if e.fn.isTaskfunc then
    let size := frameSize e
    if 2147483648 ≤ size then throw (.internal "taskfunc frame too large")
    let body ← (slots e).stmts env e.fn.body
    let body := enter size e.fn.span ++ body ++ leave size e.fn.span
    return { e with fn := { e.fn with params := [], result := none, body } }
  else return e

/-- **All task functions of the program with their frames.** -/
def program (env : Env) : Compile Unit := do
  let p ← get
  let functions ← (p.functions.mapM (withFrame env) : Except CompileError _)
  set { p with functions }

end FlatScript.Taskfunc
