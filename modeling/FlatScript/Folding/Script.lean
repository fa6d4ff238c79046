import FlatScript.Folding.Expr
import FlatScript.Syntax.Script

/-!
# Folding of scripts

The constants of a script are collected first, over all blocks. Then the expressions are
folded, and statements that are never run are dropped: branches and loops whose conditions
are never true, the branches behind a condition that is always true, and the cases that a
constant choice does not take.

A script may wrap statements in `if (1=1)` to break up a long body for the engine, so that
condition is kept when it is the first one of its chain.
-/

namespace FlatScript.Folding

/-! ### Constants -/

/-- The constants with that of a declaration, if it declares one whose value is known. -/
def addConstant (constants : Constants) (d : Declaration) : Constants :=
  if d.isConst && d.size.isNone then
    match d.init with
    | some (.single value) => match value.eval constants with
      | .ok value => (Text.lower d.name.full, value) :: constants
      | .error _ => constants
    | _ => constants
  else constants

mutual

/-- The constants with those of a statement. Only branches are looked into. -/
def constantsOfStmt (constants : Constants) : Stmt → Constants
  | ⟨.declare d, _, _⟩ => addConstant constants d
  | ⟨.ifChain branches otherwise, _, _⟩ =>
    constantsOfStmts (constantsOfBranches constants branches) otherwise
  | ⟨.property _ _, _, _⟩ | ⟨.synonym _ _ _, _, _⟩ | ⟨.assign _ _, _, _⟩ | ⟨.call _, _, _⟩
  | ⟨.whileLoop _ _, _, _⟩ | ⟨.forLoop _ _ _ _ _ _, _, _⟩ | ⟨.family _ _, _, _⟩
  | ⟨.select _ _, _, _⟩ => constants

/-- The constants with those of statements. -/
def constantsOfStmts (constants : Constants) : List Stmt → Constants
  | [] => constants
  | s :: ss => constantsOfStmts (constantsOfStmt constants s) ss

/-- The constants with those of branches. -/
def constantsOfBranches (constants : Constants) : List Branch → Constants
  | [] => constants
  | ⟨_, body⟩ :: rest => constantsOfBranches (constantsOfStmts constants body) rest

end

/-- **The constants of a script.** -/
def constantsOf (s : Script) : Constants :=
  s.blocks.foldl (fun constants b => constantsOfStmts constants b.body) []

/-! ### Choices -/

/-- Whether an expression is the condition that is always kept. -/
def isKeptCondition : Expr → Bool
  | .binary .equal left right _ => left.isInt 1 && right.isInt 1
  | _ => false

/-- Whether a value is in a case. -/
def inCase (value : Int32) (c : Case) : Bool :=
  match c.stop.bind int? with
  | some stop => (int? c.start).any fun start => start ≤ value && value ≤ stop
  | none => int? c.start == some value

/-- Whether the bounds of a case are known. -/
def isKnownCase (c : Case) : Bool :=
  (int? c.start).isSome && c.stop.all fun stop => (int? stop).isSome

/-- **A choice, resolved** if its subject and all its cases are known. -/
def choose (subject : Expr) (cases : List Case) (span : Span) (trace : List Span) : List Stmt :=
  match int? subject with
  | none => [⟨.select subject cases, span, trace⟩]
  | some value =>
    if cases.all isKnownCase then ((cases.find? (inCase value)).map Case.body).getD []
    else [⟨.select subject cases, span, trace⟩]

/-- **A chain of branches**, which is its last part when no condition is left. -/
def chain (branches : List Branch) (otherwise : List Stmt) (span : Span) (trace : List Span) :
    List Stmt :=
  if branches.isEmpty then otherwise else [⟨.ifChain branches otherwise, span, trace⟩]

/-! ### Statements -/

mutual

/-- **A statement, folded**, which may leave none or several. -/
def stmt (constants : Constants) : Stmt → List Stmt
  | ⟨.property name accessors, span, trace⟩ =>
    [⟨.property name (functions constants accessors), span, trace⟩]
  | ⟨.synonym name indices target, span, trace⟩ =>
    [⟨.synonym name indices (varRef constants target), span, trace⟩]
  | ⟨.declare d, span, trace⟩ => [⟨.declare (declaration constants d), span, trace⟩]
  | ⟨.assign target value, span, trace⟩ =>
    [⟨.assign (varRef constants target) (expr constants value), span, trace⟩]
  | ⟨.call c, span, trace⟩ => [⟨.call (call constants c), span, trace⟩]
  | ⟨.whileLoop cond body, span, trace⟩ =>
    if truth? (expr constants cond) = some false then []
    else [⟨.whileLoop (expr constants cond) (stmts constants body), span, trace⟩]
  | ⟨.forLoop var start stop step downto body, span, trace⟩ =>
    [⟨.forLoop (varRef constants var) (expr constants start) (expr constants stop)
      (step.map (expr constants)) downto (stmts constants body), span, trace⟩]
  | ⟨.family name body, span, trace⟩ => [⟨.family name (stmts constants body), span, trace⟩]
  | ⟨.ifChain [] otherwise, _, _⟩ => stmts constants otherwise
  | ⟨.ifChain (⟨cond, body⟩ :: rest) otherwise, span, trace⟩ =>
    if isKeptCondition cond then chain [⟨cond, stmts constants body⟩] [] span trace
    else
      let (branches, last) := branches constants (⟨cond, body⟩ :: rest)
      chain branches (last.getD (stmts constants otherwise)) span trace
  | ⟨.select subject cases', span, trace⟩ =>
    choose (expr constants subject) (cases constants cases') span trace

/-- Statements, folded. -/
def stmts (constants : Constants) : List Stmt → List Stmt
  | [] => []
  | s :: ss => stmt constants s ++ stmts constants ss

/-- Branches, folded: those whose conditions may hold, and the body of the first one whose
condition always holds, which takes the place of all that follows. -/
def branches (constants : Constants) : List Branch → List Branch × Option (List Stmt)
  | [] => ([], none)
  | ⟨cond, body⟩ :: rest =>
    match truth? (expr constants cond) with
    | some true => ([], some (stmts constants body))
    | some false => branches constants rest
    | none =>
      let (kept, last) := branches constants rest
      (⟨expr constants cond, stmts constants body⟩ :: kept, last)

/-- Cases, folded. -/
def cases (constants : Constants) : List Case → List Case
  | [] => []
  | ⟨start, stop, body⟩ :: rest =>
    ⟨expr constants start, stop.map (expr constants), stmts constants body⟩ ::
      cases constants rest

/-- Functions, with their bodies folded. -/
def functions (constants : Constants) : List FunctionDef → List FunctionDef
  | [] => []
  | ⟨name, params, result, body, isTaskfunc, isOverride, span⟩ :: rest =>
    ⟨name, params, result, stmts constants body, isTaskfunc, isOverride, span⟩ ::
      functions constants rest

end

/-! ### Scripts -/

/-- A block with its body folded. -/
def block (constants : Constants) : Block → Block
  | .callback c => .callback { c with body := stmts constants c.body }
  | .function f => .function { f with body := stmts constants f.body }

/-- **A script, folded.** -/
def script (s : Script) : Script := ⟨s.blocks.map (block (constantsOf s))⟩

end FlatScript.Folding
