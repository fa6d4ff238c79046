import FlatScript.Program
import FlatScript.Syntax.Rename

/-!
# Names without dots

The engine does not take dots in names, so they are written as two underscores, in the script
and among the declared variables alike.
-/

namespace FlatScript.Undotting

/-- A name without dots. -/
def ident (i : Ident) : Ident := { i with name := Name.undotted i.name }

/-- All names lose their dots. -/
def undot : Renaming := ⟨ident, ident⟩

/-- **A script without dots in its names.** -/
def script (s : Script) : Compile Script := do
  modify fun p => { p with symbols := p.symbols.renameVariables Name.undotted }
  return undot.script s

end FlatScript.Undotting
