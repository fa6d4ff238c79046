import FlatScript.Syntax.Stmt

/-!
# The stack of task functions

A task function can be suspended, so its variables live on a stack of their own: an array
with two pointers into it, which the script has to declare. `$sp` points behind the free
part, and `$fp` to the frame of the function that runs.
-/

namespace FlatScript.Frame

/-- The array that holds the stack. -/
def stack : String := "%p"

/-- The pointer to the running frame. -/
def framePointer : String := "$fp"

/-- The pointer behind the free part of the stack. -/
def stackPointer : String := "$sp"

/-- A reference to a variable that no namespace is put in front of. -/
def fixedVar (text : String) (span : Span) : VarRef := .plain (.fixed text span)

/-- The cell at an offset from a pointer, in one direction or the other. -/
def slot (pointer : String) (op : BinaryOp) (offset : Nat) (span : Span) : VarRef :=
  let base := (fixedVar pointer span).toExpr
  let index := if offset = 0 then base else base.op op (.int (Int32.ofNat offset) span)
  ⟨.fixed stack span, [index], span⟩

end FlatScript.Frame
