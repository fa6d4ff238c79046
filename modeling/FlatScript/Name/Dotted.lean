import FlatScript.Name.Sigil
import FlatScript.Text.Blank

/-!
# Dotted names

Names that belong together share a first part: the members of a family, the fields of a
parameter, the names of a namespace. The parts are joined by dots, and a sigil stays in
front of the whole.
-/

namespace FlatScript

namespace Name

/-- The part of a name before the first dot. -/
def firstPart (name : String) : String :=
  String.ofList (name.toList.takeWhile (· ≠ '.'))

/-- The part of a name from the first dot on; empty when there is no dot. -/
def lastPart (name : String) : String :=
  String.ofList (name.toList.dropWhile (· ≠ '.'))

/-- The name with every dot written as two underscores, as the engine wants it. -/
def undotted (name : String) : String :=
  String.ofList (Text.replaceChar '.' ['_', '_'] name.toList)

/-- The name under a chain of namespaces, outermost first. The sigil stays in front. -/
def qualified (namespaces : List String) (name : String) : String :=
  if namespaces.isEmpty then name
  else match Sigil.split name with
    | (some sigil, bare) => sigil.text ++ ".".intercalate namespaces ++ "." ++ bare
    | (none, bare) => ".".intercalate namespaces ++ "." ++ bare

end Name

end FlatScript
