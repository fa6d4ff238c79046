import FlatScript.Lines
import FlatScript.Token.Basic

/-!
# The state of the parser

The parser works on the tokens that are still ahead. A step either succeeds or fails, and in
both cases it leaves the state it has reached, so that parsing can go on behind a fault.

* `FlatScript.Parser.State` holds the tokens ahead, the end mark, and whether the parser is
  at the start of a line.
* `FlatScript.Parse` is the type of steps.
* `FlatScript.Parser.synchronize` skips to the next line that can start a block.

The end mark is kept apart from the other tokens, so no step can go past it.
-/

namespace FlatScript

/-! ### What can be wrong -/

/-- The kinds of faults in the structure of a script. -/
inductive ParseErrorKind where
  | invalidToken | expectedToken | unexpectedEof | expectedExpression | expectedStatement
  | expectedBlock | mismatchedEnd
deriving DecidableEq, Repr, Inhabited

/-- The kind as messages name it. -/
def ParseErrorKind.text : ParseErrorKind → String
  | invalidToken => "invalid token"
  | expectedToken => "expected token"
  | unexpectedEof => "unexpected end of file"
  | expectedExpression => "expected expression"
  | expectedStatement => "expected statement"
  | expectedBlock => "expected callback or function"
  | mismatchedEnd => "mismatched end"

/-- A fault and the span it is at. -/
structure ParseFault where
  /-- What is wrong. -/
  kind : ParseErrorKind
  /-- Where it is. -/
  span : Span
  /-- What was expected and found. -/
  message : String
deriving DecidableEq, Repr, Inhabited

/-- **A fault in a script**, with the file it is in. -/
structure ParseError where
  /-- What is wrong. -/
  kind : ParseErrorKind
  /-- Where it is. -/
  loc : Location
  /-- What was expected and found. -/
  message : String
deriving DecidableEq, Repr, Inhabited

/-- The fault with the file of its line. -/
def ParseFault.locate (lines : Lines) (f : ParseFault) : ParseError :=
  ⟨f.kind, lines.location f.span [], f.message⟩

/-- The fault as a reader sees it. -/
def ParseError.text (e : ParseError) : String :=
  e.kind.text ++ " at " ++ e.loc.text ++ ": " ++ e.message

/-- A fault in the text of a script, as a fault in the script. -/
def LexError.toFault (e : LexError) : ParseFault := ⟨.invalidToken, e.span, e.message⟩

/-- The fault that one thing was expected and another one found. -/
def ParseFault.expected (span : Span) (expected found : String) : ParseFault :=
  ⟨.expectedToken, span, "expected " ++ expected ++ ", found " ++ found⟩

namespace Parser

/-! ### States -/

/-- **The state of the parser.** -/
structure State where
  /-- The tokens ahead, less the end mark. -/
  rest : List Token
  /-- The end mark. -/
  eof : Token
  /-- Whether the last token taken was the end of a line, or none was taken. -/
  lineStart : Bool
deriving DecidableEq, Repr, Inhabited

namespace State

/-- The state before the first of the tokens, the last of which is the end mark. -/
def ofTokens (tokens : List Token) : State :=
  ⟨tokens.dropLast, tokens.getLastD default, true⟩

/-- The token `n` places ahead; past the end it is the end mark. -/
def peekNth (s : State) (n : Nat) : Token := s.rest.getD n s.eof

/-- The next token. -/
def peek (s : State) : Token := s.rest.headD s.eof

/-- The state after the next token; at the end it stays. -/
def advance (s : State) : State :=
  match s.rest with
  | [] => s
  | t :: ts => { s with rest := ts, lineStart := t.kind == .newline }

/-- The state before the first of the tokens ahead that does not end a line. -/
def skipNewlines (s : State) : State :=
  match s.rest with
  | ⟨.newline, _, _⟩ :: ts =>
    { s with rest := ts.dropWhile (·.kind == .newline), lineStart := true }
  | _ => s

/-- Whether a token can start a block. -/
def startsBlock : TokenKind → Bool
  | .keyword .onKw | .keyword .functionKw | .keyword .taskfuncKw | .keyword .overrideKw => true
  | _ => false

/-- The tokens from the first line on that can start a block. -/
def seekBlock (lineStart : Bool) : List Token → Bool × List Token
  | [] => (lineStart, [])
  | t :: ts =>
    if lineStart && startsBlock t.kind then (lineStart, t :: ts)
    else seekBlock (t.kind == .newline) ts

/-- The state at the next line that can start a block. At least one token is skipped. -/
def synchronize (s : State) : State :=
  match s.rest with
  | [] => s
  | t :: ts =>
    let (lineStart, rest) := seekBlock (t.kind == .newline) ts
    { s with rest, lineStart }

end State

end Parser

/-! ### Steps -/

/-- **A step of the parser.** A failing step keeps the state it has reached. -/
abbrev Parse (α : Type) := EStateM ParseFault Parser.State α

namespace Parser

/-- Fail with a fault of a kind. -/
def failAt {α : Type} (kind : ParseErrorKind) (span : Span) (message : String) : Parse α :=
  throw ⟨kind, span, message⟩

/-- Fail because one thing was expected where the next token is. -/
def failExpected {α : Type} (expected : String) : Parse α := do
  let token := (← get).peek
  throw (.expected token.span expected token.kind.description)

/-- The next token. -/
def peek : Parse Token := return (← get).peek

/-- Take the next token. -/
def advance : Parse Token := do
  let s ← get
  set s.advance
  return s.peek

/-- Whether the next token is of a kind. -/
def check (kind : TokenKind) : Parse Bool := return (← get).peek.kind == kind

/-- Take the next token if it is of a kind, and tell whether it was. -/
def eat (kind : TokenKind) : Parse Bool := do
  if ← check kind then
    let _ ← advance
    return true
  return false

/-- Take the next token, which has to be of a kind. -/
def expect (kind : TokenKind) : Parse Token := do
  if ← check kind then advance else failExpected kind.description

/-- Take the end of the line, unless the script ends here. -/
def expectLineEnd : Parse Unit := do
  let s ← get
  if s.peek.kind == .newline then set s.advance
  else if s.peek.kind == .eof then return
  else failExpected (TokenKind.description .newline)

/-- Take all line ends ahead. -/
def skipNewlines : Parse Unit := modify State.skipNewlines

/-- Skip to the next line that can start a block. -/
def synchronize : Parse Unit := modify State.synchronize

/-- What a step that has used up its bound answers. The bounds are larger than the number of
tokens ahead, so no step does. -/
def exhausted {α : Type} : Parse α := do
  failAt .expectedExpression (← peek).span "nested too deeply"

/-- A bound on the steps that the tokens ahead can be worth. -/
def bound (s : State) : Nat := 8 * s.rest.length + 8

end Parser

end FlatScript
