import FlatScript.Syntax.Expr

/-!
# Statements and functions

The statements of a script, and the functions that they make up. The types are mutually
recursive, because a property is declared by a statement and consists of functions.

A statement remembers the calls through which it was copied into its place. The list is
empty for a statement that was written where it stands.
-/

namespace FlatScript

/-! ### Declarations and parameters -/

/-- The values that a declaration gives to its variable. -/
inductive Initializer where
  /-- One value. -/
  | single (value : Expr)
  /-- A list of values in parentheses. -/
  | list (values : List Expr)
deriving Repr, Inhabited

/-- **A declaration** of a variable. -/
structure Declaration where
  /-- The variable. -/
  name : Ident
  /-- The words between `declare` and the name. -/
  modifiers : List String
  /-- The number of elements of an array. -/
  size : Option Expr
  /-- The parameters of a control. -/
  params : List Expr
  /-- The values at the start. -/
  init : Option Initializer
deriving Repr, Inhabited

namespace Declaration

/-- Whether a modifier is present. -/
def hasModifier (d : Declaration) (modifier : String) : Bool := d.modifiers.contains modifier

/-- The declaration without a modifier. -/
def withoutModifier (d : Declaration) (modifier : String) : Declaration :=
  { d with modifiers := d.modifiers.filter (· != modifier) }

/-- Whether the declaration is of a constant. -/
def isConst (d : Declaration) : Bool := d.hasModifier "const"

/-- The kind of control that is declared, if one is. -/
def uiKind? (d : Declaration) : Option String :=
  d.modifiers.find? fun m => "ui_".toList.isPrefixOf m.toList

/-- The first value at the start, which the type can be read off. -/
def firstValue? (d : Declaration) : Option Expr :=
  match d.init with
  | some (.single value) => some value
  | some (.list values) => values.head?
  | none => none

end Declaration

/-- How an argument reaches a parameter of a task function. -/
inductive ParamKind where
  /-- Copied in only. -/
  | value
  /-- Copied out only. -/
  | out
  /-- Neither copied in nor out. -/
  | ref
  /-- Copied in and out. -/
  | var
deriving DecidableEq, Repr, Inhabited

namespace ParamKind

/-- Whether the argument is copied in before the call. -/
def copiesIn : ParamKind → Bool
  | value | var => true
  | out | ref => false

/-- Whether the parameter is copied out after the call. -/
def copiesOut : ParamKind → Bool
  | out | var => true
  | value | ref => false

/-- The word in front of a parameter of the kind. -/
def word? : ParamKind → Option String
  | value => none
  | out => some "out"
  | ref => some "ref"
  | var => some "var"

/-- The kind that a word in front of a parameter gives. -/
def ofWord? (word : String) : Option ParamKind :=
  [out, ref, var].find? (·.word? == some word)

end ParamKind

/-- A parameter of a function. -/
structure Param where
  /-- The name of the parameter. -/
  name : Ident
  /-- How its argument reaches it. -/
  kind : ParamKind
deriving DecidableEq, Repr, Inhabited

/-! ### Statements -/

mutual

/-- **A statement**, with its place and the calls it was copied through, innermost first. -/
structure Stmt where
  kind : StmtKind
  span : Span
  trace : List Span

/-- What a statement does. -/
inductive StmtKind where
  /-- A property with functions that read and write it. -/
  | property (name : Ident) (accessors : List FunctionDef)
  /-- A property that stands for a variable, with names for the subscripts. -/
  | synonym (name : Ident) (indices : List Ident) (target : VarRef)
  /-- A declaration. -/
  | declare (decl : Declaration)
  /-- An assignment. -/
  | assign (target : VarRef) (value : Expr)
  /-- A call. -/
  | call (call : Call)
  /-- A loop with a condition in front. -/
  | whileLoop (cond : Expr) (body : List Stmt)
  /-- A counting loop. -/
  | forLoop (var : VarRef) (start stop : Expr) (step : Option Expr) (downto : Bool)
      (body : List Stmt)
  /-- A family of names. -/
  | family (name : Ident) (body : List Stmt)
  /-- Conditions with their bodies, and what happens when none holds. -/
  | ifChain (branches : List Branch) (otherwise : List Stmt)
  /-- A choice by value. -/
  | select (subject : Expr) (cases : List Case)

/-- A condition and what happens when it holds. -/
structure Branch where
  cond : Expr
  body : List Stmt

/-- A value, or a range of values, and what happens for it. -/
structure Case where
  start : Expr
  stop : Option Expr
  body : List Stmt

/-- **A function.** -/
structure FunctionDef where
  name : Ident
  params : List Param
  result : Option Ident
  body : List Stmt
  isTaskfunc : Bool
  isOverride : Bool
  span : Span

end

instance : Inhabited StmtKind := ⟨.ifChain [] []⟩

instance : Inhabited Stmt := ⟨⟨default, .zero, []⟩⟩

namespace Stmt

/-- A statement that was written where it stands. -/
def written (kind : StmtKind) (span : Span) : Stmt := ⟨kind, span, []⟩

/-- A statement in the place of another one. -/
def inPlaceOf (origin : Stmt) (kind : StmtKind) : Stmt := ⟨kind, origin.span, origin.trace⟩

end Stmt

namespace FunctionDef

instance : Inhabited FunctionDef := ⟨⟨default, [], none, [], false, false, .zero⟩⟩

/-- The names of the parameters, followed by the name of the result. -/
def paramNames (f : FunctionDef) : List String :=
  f.params.map (·.name.full) ++ (f.result.map Ident.full).toList

end FunctionDef

end FlatScript
