import FlatScript.Name.Qualify

/-!
# References of a body

Inside a function, a reference may be to a parameter, to a local variable, which has another
name or place by then, or to a global name. `FlatScript.Lowering.Refs` is what has to be known
to tell, and `FlatScript.Lowering.expr` changes all references of an expression.
-/

namespace FlatScript.Lowering

/-- What the references of a body are resolved by. -/
structure Refs where
  /-- The built-in names and the origin of the lines. -/
  env : Env
  /-- The functions of the script, as they are written. -/
  written : List String
  /-- The parameters of the function around the body. -/
  params : List String
  /-- What stands in the place of local variables. -/
  substitutions : List (String × VarRef)

/-- A name under its namespaces. -/
def Refs.qualify (r : Refs) (i : Ident) : Ident := i.qualify r.env r.written r.params

/-- What stands in the place of a name, if it is one of a local variable. -/
def Refs.substitute? (r : Refs) (i : Ident) : Option VarRef := r.substitutions.lookup i.name

/-- A name, or the name of what stands in its place. -/
def Refs.ident (r : Refs) (i : Ident) : Ident :=
  let i := r.qualify i
  match r.substitute? i with
  | some v => v.ident
  | none => i

/-- A reference with subscripts, or what stands in its place with the same subscripts in
front of its own. -/
def Refs.varRef (r : Refs) (i : Ident) (subscripts : List Expr) (span : Span) : VarRef :=
  let i := r.qualify i
  match r.substitute? i with
  | some v => ⟨v.ident, subscripts ++ v.subscripts, span⟩
  | none => ⟨i, subscripts, span⟩

mutual

/-- **An expression with its references resolved.** -/
def expr (r : Refs) : Expr → Expr
  | .binary op left right span => .binary op (expr r left) (expr r right) span
  | .unary op operand span => .unary op (expr r operand) span
  | .var i subscripts span => (r.varRef i (exprs r subscripts) span).toExpr
  | .call name args isProcedure usingCall span =>
    .call (r.ident name) (arguments r (Builtins.keepsFirstArgument name.name) args) isProcedure
      usingCall span
  | .int v span => .int v span
  | .real v span => .real v span
  | .str raw span => .str raw span
  | .bool v span => .bool v span
  | .raw text span => .raw text span

/-- Expressions with their references resolved. -/
def exprs (r : Refs) : List Expr → List Expr
  | [] => []
  | e :: es => expr r e :: exprs r es

/-- Arguments with their references resolved; the first one may have to stay. -/
def arguments (r : Refs) (keepFirst : Bool) : List Expr → List Expr
  | [] => []
  | e :: es => (if keepFirst then e else expr r e) :: exprs r es

end

/-- A reference resolved. -/
def varRef (r : Refs) (v : VarRef) : VarRef := r.varRef v.ident (exprs r v.subscripts) v.span

/-- A call with its references resolved. -/
def call (r : Refs) (c : Call) : Call :=
  { c with
    name := r.ident c.name
    args := arguments r (Builtins.keepsFirstArgument c.name.name) c.args }

/-- The values of a declaration with their references resolved. -/
def initializer (r : Refs) : Initializer → Initializer
  | .single e => .single (expr r e)
  | .list es => .list (exprs r es)

end FlatScript.Lowering
