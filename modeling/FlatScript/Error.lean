import FlatScript.Name.Sigil
import FlatScript.Text.Span

/-!
# What can be wrong with a program

The faults that are found while a parsed script is compiled. All of them end the
compilation. A fault says what is wrong in terms of the script, and nearly all of them say
where.
-/

namespace FlatScript

/-- What a fault has to do with. -/
inductive ErrorCategory where
  /-- A name that cannot be bound. -/
  | resolution
  /-- A construct in a shape that the engine cannot express. -/
  | contract
  /-- Recursion. -/
  | graph
  /-- Short names that are not different. -/
  | resource
  /-- A broken invariant of the compiler. -/
  | internal
deriving DecidableEq, Repr, Inhabited

/-- **A fault at a place.** -/
inductive Fault where
  | undeclaredName (name : String)
  | ambiguousType (name candidates : String)
  | duplicateFunction (name : String)
  | localRedeclared (name : String)
  | duplicateParameter (function : String)
  | sigilConflict (name : String) (declared used : Sigil)
  | unknownFunction (name : String)
  | invalidAccessor (found : String)
  | missingAccessors (property : String)
  | getterWithoutResult (property : String)
  | setterWithResult (property : String)
  | setterWithoutParameter (property : String)
  | propertyNotReadable (property : String)
  | propertyReadOnly (property : String)
  | argumentCountMismatch (function : String) (expected got : Nat)
  | noReturnValue (function : String)
  | taskfuncInExpression (function : String)
  | callInInit (function : String)
  | callWithParameters (function : String)
  | callInExpression (function : String)
  | notSingleAssignment (function : String)
  | assignTargetNotVariable
  | tooManySubscripts (name : String)
  | functionNameExpected (parameter : String)
  | invalidEventParArgument (function caller : String)
  | recursiveCall (chain : String)
deriving DecidableEq, Repr, Inhabited

namespace Fault

/-- What a fault has to do with. -/
def category : Fault → ErrorCategory
  | undeclaredName _ | ambiguousType _ _ | duplicateFunction _ | localRedeclared _
  | duplicateParameter _ | sigilConflict _ _ _ | unknownFunction _ => .resolution
  | recursiveCall _ => .graph
  | invalidAccessor _ | missingAccessors _ | getterWithoutResult _ | setterWithResult _
  | setterWithoutParameter _ | propertyNotReadable _ | propertyReadOnly _
  | argumentCountMismatch _ _ _ | noReturnValue _ | taskfuncInExpression _ | callInInit _
  | callWithParameters _ | callInExpression _ | notSingleAssignment _
  | assignTargetNotVariable | tooManySubscripts _ | functionNameExpected _
  | invalidEventParArgument _ _ => .contract

/-- The text of a fault, without its place. -/
def text : Fault → String
  | undeclaredName name => name ++ " has not been declared"
  | ambiguousType name candidates =>
    "type of " ++ name ++ " is ambiguous, its sigil could be any of: " ++ candidates
  | duplicateFunction name => "function " ++ name ++ " already declared"
  | localRedeclared name => "local variable " ++ name ++ " redeclared"
  | duplicateParameter function =>
    "function " ++ function ++ " has duplicate parameter names"
  | sigilConflict name declared used =>
    name ++ " is declared with sigil '" ++ declared.text ++ "' but used with '" ++ used.text ++
      "'"
  | unknownFunction name => "unknown function " ++ name
  | invalidAccessor found =>
    "expected property function named 'get' or 'set', found '" ++ found ++ "'"
  | missingAccessors property =>
    "property " ++ property ++ " defines neither a 'get' nor a 'set' function"
  | getterWithoutResult property =>
    "the 'get' function of property " ++ property ++ " needs a return value"
  | setterWithResult property =>
    "the 'set' function of property " ++ property ++ " cannot have a return value"
  | setterWithoutParameter property =>
    "the 'set' function of property " ++ property ++ " needs at least one parameter"
  | propertyNotReadable property =>
    "property " ++ property ++ " has no get function and cannot be read"
  | propertyReadOnly property =>
    "property " ++ property ++ " has no set function and is read-only"
  | argumentCountMismatch function expected got =>
    "wrong number of parameters for " ++ function ++ "(), expected " ++ toString expected ++
      ", got " ++ toString got
  | noReturnValue function =>
    "function " ++ function ++ " does not return a value and cannot be used in an expression"
  | taskfuncInExpression function =>
    "taskfunc " ++ function ++
      " must be the only thing on the right-hand side of an assignment"
  | callInInit function =>
    "'call' of " ++ function ++ " is not allowed inside the init callback"
  | callWithParameters function =>
    "function " ++ function ++ " has parameters and cannot be invoked with 'call'"
  | callInExpression function =>
    "'call' of " ++ function ++ " cannot be used inside an expression"
  | notSingleAssignment function =>
    "function " ++ function ++
      " must consist of a single 'result := <expr>' line to be used in an expression"
  | assignTargetNotVariable =>
    "the left-hand side of an assignment must be a variable reference"
  | tooManySubscripts name =>
    "too many subscripts on " ++ name ++ ", an array takes at most one"
  | functionNameExpected parameter =>
    "parameter " ++ parameter ++
      " is called as a function but its argument is not a function name"
  | invalidEventParArgument function caller =>
    function ++ " cannot be used as an argument of " ++ caller
  | recursiveCall chain => "recursive call not allowed: " ++ chain

end Fault

/-- **A fault in a program.** -/
inductive CompileError where
  /-- A fault at a place. -/
  | fault (fault : Fault) (loc : Location)
  /-- Functions that call each other in a circle. -/
  | recursionDetected (cycle : String)
  /-- A short name that the engine has taken. -/
  | builtinCollision (name short : String)
  /-- Two variables with the same short name. -/
  | compactionCollision (first second short : String)
  /-- A broken invariant of the compiler. -/
  | internal (message : String)
deriving DecidableEq, Repr, Inhabited

namespace CompileError

/-- What a fault has to do with. -/
def category : CompileError → ErrorCategory
  | fault f _ => f.category
  | recursionDetected _ => .graph
  | builtinCollision _ _ | compactionCollision _ _ _ => .resource
  | internal _ => .internal

/-- Where a fault is, if it has a place. -/
def location? : CompileError → Option Location
  | fault _ loc => some loc
  | recursionDetected _ | builtinCollision _ _ | compactionCollision _ _ _ | internal _ => none

/-- **The text of a fault.** -/
def message : CompileError → String
  | fault f loc => "at " ++ loc.text ++ ": " ++ f.text
  | recursionDetected cycle => "recursion detected: " ++ cycle
  | builtinCollision name short =>
    "compacting " ++ name ++ " produced " ++ short ++ ", which is a built-in name"
  | compactionCollision first second short =>
    "compacting " ++ first ++ " and " ++ second ++ " both produced " ++ short
  | internal message => "internal error: " ++ message

end CompileError

end FlatScript
