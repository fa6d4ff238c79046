import FlatScript.Name.Sorted
import FlatScript.Text.Case

/-!
# Declared names

The variables, families and properties that a script declares. Variables are stored in
lower case, with their sigils, so that letter case does not matter for them; it does for
families and properties.
-/

namespace FlatScript

/-- **The names that a script declares.** -/
structure Symbols where
  /-- Variables, in lower case. -/
  vars : List String := []
  /-- The variables that are controls. -/
  uiVariables : List String := []
  /-- Families. -/
  families : List String := []
  /-- Properties. -/
  properties : List String := []
deriving DecidableEq, Repr, Inhabited

namespace Symbols

/-- The names with a variable more, which may be a control. -/
def addVariable (s : Symbols) (name : String) (isUi : Bool) : Symbols :=
  let key := Text.lower name
  { s with
    vars := Name.insertNew s.vars key
    uiVariables := if isUi then Name.insertNew s.uiVariables key else s.uiVariables }

/-- The names without a variable. -/
def removeVariable (s : Symbols) (name : String) : Symbols :=
  let key := Text.lower name
  { s with
    vars := s.vars.filter (· != key)
    uiVariables := s.uiVariables.filter (· != key) }

/-- Whether a variable is declared, in any letter case. -/
def hasVariable (s : Symbols) (name : String) : Bool := s.vars.contains (Text.lower name)

/-- Whether a control is declared, in any letter case. -/
def isUiVariable (s : Symbols) (name : String) : Bool := s.uiVariables.contains (Text.lower name)

/-- The names with a family more. -/
def addFamily (s : Symbols) (name : String) : Symbols :=
  { s with families := Name.insertNew s.families name }

/-- Whether a family is declared. -/
def isFamily (s : Symbols) (name : String) : Bool := s.families.contains name

/-- The names with a property more. -/
def addProperty (s : Symbols) (name : String) : Symbols :=
  { s with properties := Name.insertNew s.properties name }

/-- Whether a property is declared. -/
def isProperty (s : Symbols) (name : String) : Bool := s.properties.contains name

/-- The variables in order. -/
def sortedVariables (s : Symbols) : List String := Name.sorted s.vars

/-- The names with every variable renamed. -/
def renameVariables (s : Symbols) (rename : String → String) : Symbols :=
  { s with
    vars := Name.distinct (s.vars.map rename)
    uiVariables := Name.distinct (s.uiVariables.map rename) }

end Symbols

end FlatScript
