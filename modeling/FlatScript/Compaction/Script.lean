import FlatScript.Compaction.ShortName
import FlatScript.Compaction.Table
import FlatScript.Program
import FlatScript.Syntax.Rename
import FlatScript.Text.Glob

/-!
# Giving short names

Every declared variable that is neither built in nor preserved gets its short name. The
variables are treated in lexical order, and it is an error when a short name is that of a
built-in or has been given before.
-/

namespace FlatScript.Compaction

/-! ### Preserved names -/

/-- The pattern of a name to preserve: without sigil, and without dots. -/
def pattern (name : String) : List Char :=
  let (_, bare) := Sigil.split (String.ofList (Text.trim name.toList))
  (Name.undotted bare).toList

/-- The texts that a name is matched as: with and without its sigil. -/
def matchedAs (name : String) : List (List Char) :=
  [name.toList, (Sigil.split name).2.toList]

/-- **Whether a name is preserved** by one of some patterns. -/
def isPreserved (patterns : List (List Char)) (name : String) : Bool :=
  patterns.any fun p => (matchedAs name).any (Text.globMatches p)

/-! ### The table -/

/-- The table with the short name of a variable, unless it keeps its name. -/
def addName (b : Builtins) (short : String → String) (patterns : List (List Char))
    (t : ShortNames) (name : String) : Except CompileError ShortNames :=
  if isPreserved patterns name || b.isBuiltin name then .ok t
  else if b.isBuiltin (short name) then .error (.builtinCollision name (short name))
  else t.insert name (short name)

/-- **The short names of variables**, given how names are shortened and which of them are
preserved. -/
def shortNames (b : Builtins) (short : String → String) (preserve : List String)
    (vars : List String) : Except CompileError ShortNames :=
  vars.foldlM (addName b short (preserve.map pattern)) {}

/-! ### The script -/

/-- A name with its short name in its place; a name without sigil is no variable. -/
def ident (t : ShortNames) (i : Ident) : Ident :=
  if i.sigil.isNone then i
  else match t.short? i.full with
    | some short => { i with sigil := (Sigil.split short).1, name := (Sigil.split short).2 }
    | none => i

/-- Variables get their short names, and functions keep theirs. -/
def shorten (t : ShortNames) : Renaming := ⟨ident t, id⟩

/-- A script with the short names that `short` gives, and the table of them. -/
def scriptWith (short : String → String) (env : Env) (preserve : List String) (s : Script) :
    Compile (Script × ShortNames) := do
  let symbols := (← get).symbols
  let t ← (shortNames env.builtins short preserve symbols.sortedVariables : Except CompileError _)
  modify fun p => { p with symbols := symbols.renameVariables fun v => (t.short? v).getD v }
  return ((shorten t).script s, t)

/-- **A script with short names**, and the table of them. -/
def script (env : Env) (preserve : List String) (s : Script) : Compile (Script × ShortNames) :=
  scriptWith shortName env preserve s

end FlatScript.Compaction
