import FlatScript.Syntax.Stmt

/-!
# Scripts

A script is a list of blocks: callbacks, which the engine runs, and functions, which other
blocks call.
-/

namespace FlatScript

/-- **A callback**: what the engine runs when something happens, perhaps at one control. -/
structure Callback where
  /-- What happens. -/
  name : String
  /-- The control it happens at. -/
  control : Option Ident
  /-- What is run. -/
  body : List Stmt
  /-- Where the callback stands. -/
  span : Span
deriving Inhabited

/-- Whether the callback is the one that runs first and holds the declarations. -/
def Callback.isInit (c : Callback) : Bool := c.name == "init"

/-- A block of a script. -/
inductive Block where
  | callback (c : Callback)
  | function (f : FunctionDef)
deriving Inhabited

namespace Block

/-- The callback that a block is, if it is one. -/
def callback? : Block → Option Callback
  | callback c => some c
  | function _ => none

/-- The function that a block is, if it is one. -/
def function? : Block → Option FunctionDef
  | callback _ => none
  | function f => some f

/-- The statements of a block. -/
def body : Block → List Stmt
  | callback c => c.body
  | function f => f.body

end Block

/-- **A script**: its blocks in order. -/
structure Script where
  /-- The blocks. -/
  blocks : List Block
deriving Inhabited

namespace Script

/-- The callbacks of a script. -/
def callbacks (s : Script) : List Callback := s.blocks.filterMap Block.callback?

/-- The functions of a script. -/
def functions (s : Script) : List FunctionDef := s.blocks.filterMap Block.function?

end Script

end FlatScript
