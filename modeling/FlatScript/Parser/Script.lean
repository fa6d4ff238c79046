import FlatScript.Parser.Stmt
import FlatScript.Syntax.Script
import FlatScript.Token.Scan

/-!
# Parsing scripts

A script is parsed block by block. A block with a fault is given up, the fault is noted, and
parsing goes on at the next line that can start a block, so that one run finds as many
faults as it can.

`FlatScript.Script.parse` answers with the script, or with everything that is wrong with it:
first the faults of the text, then those of the blocks.
-/

namespace FlatScript

namespace Parser

/-- The control of a callback, in parentheses. -/
def control : Parse (Option Ident) := do
  if ← eat (.sign .leftParen) then
    let token ← expect .identifier
    let _ ← expect (.sign .rightParen)
    return some (.ofText token.lexeme token.span)
  else return none

/-- A callback. -/
def callback : Parse Callback := do
  let start ← expect (.keyword .onKw)
  let name ← expect .identifier
  let control ← control
  expectLineEnd
  let body ← body
  expectEnd .onKw
  return ⟨name.lexeme, control, body, start.span.merge name.span⟩

/-- **A block.** -/
def block : Parse Block := do
  let token ← peek
  match token.kind with
  | .keyword .onKw => return .callback (← callback)
  | .keyword .overrideKw => do
    let _ ← advance
    return .function (← function true)
  | .keyword .functionKw | .keyword .taskfuncKw => return .function (← function false)
  | kind =>
    failAt .expectedBlock token.span
      ("expected 'on', 'function' or 'taskfunc', found " ++ kind.description)

/-- The blocks of a script, and the faults of those that were given up. The bound is never
reached when it is larger than the number of tokens ahead. -/
def blocks : Nat → State → List Block × List ParseFault
  | 0, _ => ([], [])
  | fuel + 1, s =>
    let s := s.skipNewlines
    if s.rest.isEmpty then ([], [])
    else match block.run s with
      | .ok b s =>
        let (bs, faults) := blocks fuel s
        (b :: bs, faults)
      | .error fault s =>
        let (bs, faults) := blocks fuel s.synchronize
        (bs, fault :: faults)

end Parser

/-- **The script that a text spells**, or what is wrong with it. -/
def Script.parse (source : String) (lines : Lines) : Except (List ParseError) Script :=
  let (tokens, lexErrors) := tokenize source
  let (blocks, faults) := Parser.blocks (tokens.length + 1) (.ofTokens tokens)
  let errors := (lexErrors.map LexError.toFault ++ faults).map (·.locate lines)
  if errors.isEmpty then .ok ⟨blocks⟩ else .error errors

end FlatScript
