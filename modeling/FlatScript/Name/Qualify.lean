import FlatScript.Program

/-!
# Names under namespaces

A name on a line that was taken in under namespaces gets them in front. Built-in names and
the parameters of the function around it stay as they are, and so does a name that has been
treated already.
-/

namespace FlatScript

namespace Ident

/-- The name under a chain of namespaces. -/
def under (i : Ident) (namespaces : List String) : Ident :=
  { i with name := Name.qualified namespaces i.name, qualified := true }

/-- The name of a declaration, under the namespaces of its line. -/
def qualifyDeclared (lines : Lines) (i : Ident) : Ident :=
  if i.qualified then i else i.under (lines.info i.span.line).namespaces

/-- Whether a reference keeps its name: to a built-in that no function of the script is
called like, or to a parameter. -/
def keepsName (b : Builtins) (written : List String) (params : List String) (i : Ident) : Bool :=
  if b.isFunction i.name then !written.contains i.name
  else b.isBuiltinUnprefixed i.name || b.isKeyword i.name ||
    params.contains (Name.firstPart i.full)

/-- **A reference, under the namespaces of its line**, in a function with given
parameters. -/
def qualify (env : Env) (written : List String) (params : List String) (i : Ident) : Ident :=
  if i.qualified then i
  else
    let namespaces := (env.lines.info i.span.line).namespaces
    if namespaces.isEmpty || i.keepsName env.builtins written params then
      { i with qualified := true }
    else i.under namespaces

end Ident

end FlatScript
