import FlatScript.Parser.Expr
import FlatScript.Syntax.Stmt

/-!
# Parsing statements and functions

Statements end with their line. A body goes on until a word that closes or divides it, and
the closing word has to fit the opening one.

The only place where the parser goes back is the list of values of a declaration: a
parenthesis there can open a list or belong to the first expression, and the list is
tried first.
-/

namespace FlatScript.Parser

/-! ### Pieces of statements -/

/-- The closing words of a body that a keyword has opened, with the end of their line. -/
def expectEnd (keyword : Keyword) : Parse Unit := do
  let start ← expect (.keyword .endKw)
  let closing ← peek
  if closing.kind ≠ .keyword keyword then
    failAt .mismatchedEnd (start.span.merge closing.span)
      ("expected 'end " ++ keyword.spelling ++ "', found 'end " ++ closing.lexeme ++ "'")
  let _ ← advance
  expectLineEnd

/-- The modifiers of a declaration: the names that another name follows. -/
def modifiersOf (eof : Token) : List Token → List String × List Token
  | t :: ts =>
    if t.kind = .identifier ∧ (ts.headD eof).kind = .identifier then
      let (words, rest) := modifiersOf eof ts
      (t.lexeme :: words, rest)
    else ([], t :: ts)
  | [] => ([], [])

/-- Take the modifiers of a declaration. -/
def modifiers : Parse (List String) := do
  let s ← get
  let (words, rest) := modifiersOf s.eof s.rest
  set { s with rest, lineStart := s.lineStart && words.isEmpty }
  return words

/-- The list of values in parentheses that fills the rest of the line, if there is one and it
is a list: of an array, or with several values. -/
def valueList? (isArray : Bool) : Parse (Option (List Expr)) := do
  let mark ← get
  match argumentList.run mark with
  | .ok (values, _) s =>
    let atLineEnd := s.peek.kind == .newline || s.peek.kind == .eof
    if atLineEnd && (isArray || 1 < values.length) then
      set s
      return some values
    return none
  | .error _ _ => return none

/-- The values after `:=` in a declaration. -/
def initializer (isArray : Bool) : Parse Initializer := do
  if ← check (.sign .leftParen) then
    match ← valueList? isArray with
    | some values => return .list values
    | none => return .single (← expression)
  else return .single (← expression)

/-- The number of elements of a declared array, in brackets. -/
def declaredSize : Parse (Option Expr) := do
  if ← eat (.sign .leftBracket) then
    let size ← expression
    let _ ← expect (.sign .rightBracket)
    return some size
  else return none

/-- The parameters of a declared control, in parentheses. -/
def declaredParams : Parse (List Expr) := do
  if ← check (.sign .leftParen) then return (← argumentList).1 else return []

/-- The values of a declaration, with the sign in front of them. -/
def declaredInit (isArray : Bool) : Parse (Option Initializer) := do
  if ← eat (.sign .assign) then return some (← initializer isArray) else return none

/-- A declaration. -/
def declaration : Parse StmtKind := do
  let _ ← expect (.keyword .declareKw)
  let modifiers ← modifiers
  let token ← expect .identifier
  let size ← declaredSize
  let params ← declaredParams
  let init ← declaredInit size.isSome
  expectLineEnd
  return .declare ⟨.ofText token.lexeme token.span, modifiers, size, params, init⟩

/-- An assignment, or a call without the keyword `call`. -/
def assignOrCall : Parse StmtKind := do
  let token ← advance
  let ident := Ident.ofText token.lexeme token.span
  let next := (← peek).kind
  if next = .sign .leftParen then
    let (args, close) ← argumentList
    expectLineEnd
    return .call ⟨ident, args, true, false, token.span.merge close⟩
  else if next = .sign .assign ∨ next = .sign .leftBracket then
    let target ← varRefRest ident
    let _ ← expect (.sign .assign)
    let value ← expression
    expectLineEnd
    return .assign target value
  else
    expectLineEnd
    return .call (.plain ident [] true)

/-- The call with the keyword `call` that is a statement. -/
def callStatement : Parse StmtKind := do
  let call ← callWithKeyword true
  expectLineEnd
  return .call call

/-- The head of a counting loop. -/
structure LoopHead where
  /-- The counting variable. -/
  var : VarRef
  /-- Its first value. -/
  start : Expr
  /-- Its last value. -/
  stop : Expr
  /-- By how much it moves. -/
  step : Option Expr
  /-- Whether it counts down. -/
  downto : Bool

/-- The first line of a counting loop. -/
def loopHead : Parse LoopHead := do
  let _ ← expect (.keyword .forKw)
  let var ← varRef
  let _ ← expect (.sign .assign)
  let start ← expression
  let direction := (← peek).kind
  if direction ≠ .keyword .toKw ∧ direction ≠ .keyword .downtoKw then
    failExpected "'to' or 'downto'"
  let _ ← advance
  let stop ← expression
  let step ← if ← eat (.keyword .stepKw) then pure (some (← expression)) else pure none
  expectLineEnd
  return ⟨var, start, stop, step, direction == .keyword .downtoKw⟩

/-- The values of a case, after its keyword. -/
def caseHead : Parse (Expr × Option Expr) := do
  let start ← expression
  let stop ← if ← eat (.keyword .toKw) then pure (some (← expression)) else pure none
  expectLineEnd
  return (start, stop)

/-- A keyword, a condition, and the end of the line. -/
def condition (keyword : Keyword) : Parse Expr := do
  let _ ← expect (.keyword keyword)
  let cond ← expression
  expectLineEnd
  return cond

/-- Names with commas between them. The bound is never reached when it is larger than the
number of tokens ahead. -/
def nameList : Nat → Parse (List Ident)
  | 0 => exhausted
  | fuel + 1 => do
    let token ← expect .identifier
    let ident := Ident.ofText token.lexeme token.span
    if ← eat (.sign .comma) then return ident :: (← nameList fuel) else return [ident]

/-- The rest of the line of a property that stands for a variable. -/
def synonymRest (name : Ident) : Parse StmtKind := do
  let indices ← if ← eat (.sign .leftBracket) then
      let indices ← nameList (bound (← get))
      let _ ← expect (.sign .rightBracket)
      pure indices
    else pure []
  let _ ← expect (.sign .arrow)
  let target ← varRef
  expectLineEnd
  return .synonym name indices target

/-! ### Heads of functions -/

/-- A parameter, with the word that tells how its argument reaches it. -/
def param : Parse Param := do
  let first ← expect .identifier
  match ParamKind.ofWord? first.lexeme with
  | some kind =>
    if ← check .identifier then
      let name ← advance
      return ⟨Ident.ofText name.lexeme name.span, kind⟩
    else return ⟨Ident.ofText first.lexeme first.span, .value⟩
  | none => return ⟨Ident.ofText first.lexeme first.span, .value⟩

/-- Parameters with commas between them. The bound is never reached when it is larger than
the number of tokens ahead. -/
def paramList : Nat → Parse (List Param)
  | 0 => exhausted
  | fuel + 1 => do
    let p ← param
    if ← eat (.sign .comma) then return p :: (← paramList fuel) else return [p]

/-- Parameters in parentheses, if there are any. -/
def params : Parse (List Param) := do
  if ← eat (.sign .leftParen) then
    let params ← if ← check (.sign .rightParen) then pure [] else paramList (bound (← get))
    let _ ← expect (.sign .rightParen)
    return params
  else return []

/-- The first line of a function: the closing keyword, and the function without its body. -/
def functionHead (isOverride : Bool) : Parse (Keyword × FunctionDef) := do
  let keyword ← advance
  let closing ← match keyword.kind with
    | .keyword .functionKw => pure Keyword.functionKw
    | .keyword .taskfuncKw => pure Keyword.taskfuncKw
    | kind => throw (.expected keyword.span "'function' or 'taskfunc'" kind.description)
  let token ← expect .identifier
  let name := Ident.ofText token.lexeme token.span
  let params ← params
  let result ← if ← eat (.sign .arrow) then
      let token ← expect .identifier
      pure (some (Ident.ofText token.lexeme token.span))
    else pure none
  expectLineEnd
  return (closing, ⟨name, params, result, [], closing == .taskfuncKw, isOverride,
    keyword.span.merge token.span⟩)

/-! ### Statements -/

/-- Whether a token closes or divides a body. -/
def endsBody : TokenKind → Bool
  | .keyword .endKw | .keyword .elseKw | .keyword .caseKw | .eof => true
  | _ => false

mutual

/-- Statements up to a token that closes or divides the body. -/
def statements : Nat → Parse (List Stmt)
  | 0 => exhausted
  | fuel + 1 => do
    skipNewlines
    if endsBody (← peek).kind then return []
    let s ← statementFrom fuel
    return s :: (← statements fuel)

/-- A statement. -/
def statementFrom : Nat → Parse Stmt
  | 0 => exhausted
  | fuel + 1 => do
    let token ← peek
    let kind ← match token.kind with
      | .keyword .declareKw => declaration
      | .keyword .propertyKw => propertyFrom fuel
      | .keyword .whileKw => do
        let cond ← condition .whileKw
        let body ← statements fuel
        expectEnd .whileKw
        pure (.whileLoop cond body)
      | .keyword .forKw => do
        let head ← loopHead
        let body ← statements fuel
        expectEnd .forKw
        pure (.forLoop head.var head.start head.stop head.step head.downto body)
      | .keyword .ifKw => do
        let (branches, otherwise) ← branchesFrom fuel
        expectEnd .ifKw
        pure (.ifChain branches otherwise)
      | .keyword .selectKw => do
        let subject ← condition .selectKw
        let cases ← casesFrom fuel
        expectEnd .selectKw
        pure (.select subject cases)
      | .keyword .familyKw => do
        let _ ← expect (.keyword .familyKw)
        let name ← expect .identifier
        expectLineEnd
        let body ← statements fuel
        expectEnd .familyKw
        pure (.family (Ident.ofText name.lexeme name.span) body)
      | .keyword .callKw => callStatement
      | .identifier => assignOrCall
      | kind =>
        failAt .expectedStatement token.span ("expected statement, found " ++ kind.description)
    return .written kind token.span

/-- A condition with its body, the further ones behind `else if`, and the body behind
`else`. -/
def branchesFrom : Nat → Parse (List Branch × List Stmt)
  | 0 => exhausted
  | fuel + 1 => do
    let cond ← condition .ifKw
    let body ← statements fuel
    if ← eat (.keyword .elseKw) then
      if ← check (.keyword .ifKw) then
        let (branches, otherwise) ← branchesFrom fuel
        return (⟨cond, body⟩ :: branches, otherwise)
      else
        expectLineEnd
        return ([⟨cond, body⟩], ← statements fuel)
    else return ([⟨cond, body⟩], [])

/-- The cases of a choice by value. -/
def casesFrom : Nat → Parse (List Case)
  | 0 => exhausted
  | fuel + 1 => do
    skipNewlines
    if ← eat (.keyword .caseKw) then
      let (start, stop) ← caseHead
      let body ← statements fuel
      return ⟨start, stop, body⟩ :: (← casesFrom fuel)
    else return []

/-- A property: one that stands for a variable, or one with functions. -/
def propertyFrom : Nat → Parse StmtKind
  | 0 => exhausted
  | fuel + 1 => do
    let _ ← expect (.keyword .propertyKw)
    let token ← expect .identifier
    let name := Ident.ofText token.lexeme token.span
    let next := (← peek).kind
    if next = .sign .leftBracket ∨ next = .sign .arrow then synonymRest name
    else
      expectLineEnd
      let accessors ← accessorsFrom fuel
      expectEnd .propertyKw
      return .property name accessors

/-- The functions of a property. -/
def accessorsFrom : Nat → Parse (List FunctionDef)
  | 0 => exhausted
  | fuel + 1 => do
    skipNewlines
    if ← check (.keyword .functionKw) then
      let f ← functionFrom fuel false
      return f :: (← accessorsFrom fuel)
    else return []

/-- A function. -/
def functionFrom : Nat → Bool → Parse FunctionDef
  | 0, _ => exhausted
  | fuel + 1, isOverride => do
    let (closing, f) ← functionHead isOverride
    let body ← statements fuel
    expectEnd closing
    return { f with body }

end

/-- **A body**: statements up to a token that closes or divides it. -/
def body : Parse (List Stmt) := do statements (bound (← get))

/-- **A statement.** -/
def statement : Parse Stmt := do statementFrom (bound (← get))

/-- **A function**, behind the word `override` or not. -/
def function (isOverride : Bool) : Parse FunctionDef := do
  functionFrom (bound (← get)) isOverride

end FlatScript.Parser
