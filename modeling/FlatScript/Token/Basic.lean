import FlatScript.Text.Span

/-!
# Tokens

The words that a script is made of. A token has a kind, the text it was written with, and
its place. Keywords and signs are types of their own, each with its spelling, so that
the spelling is given in one place for reading, for writing and for messages.
-/

namespace FlatScript

/-! ### Keywords -/

/-- **A keyword.** -/
inductive Keyword where
  | onKw | endKw | functionKw | taskfuncKw | overrideKw | declareKw | propertyKw | familyKw
  | ifKw | elseKw | whileKw | forKw | toKw | downtoKw | stepKw | selectKw | caseKw | callKw
  | andKw | orKw | xorKw | notKw | modKw
deriving DecidableEq, Repr, Inhabited

namespace Keyword

/-- All keywords. -/
def all : List Keyword :=
  [onKw, endKw, functionKw, taskfuncKw, overrideKw, declareKw, propertyKw, familyKw, ifKw,
    elseKw, whileKw, forKw, toKw, downtoKw, stepKw, selectKw, caseKw, callKw, andKw, orKw,
    xorKw, notKw, modKw]

theorem mem_all (k : Keyword) : k ∈ all := by cases k <;> decide

/-- The spelling of a keyword. -/
def spelling : Keyword → String
  | onKw => "on"
  | endKw => "end"
  | functionKw => "function"
  | taskfuncKw => "taskfunc"
  | overrideKw => "override"
  | declareKw => "declare"
  | propertyKw => "property"
  | familyKw => "family"
  | ifKw => "if"
  | elseKw => "else"
  | whileKw => "while"
  | forKw => "for"
  | toKw => "to"
  | downtoKw => "downto"
  | stepKw => "step"
  | selectKw => "select"
  | caseKw => "case"
  | callKw => "call"
  | andKw => "and"
  | orKw => "or"
  | xorKw => "xor"
  | notKw => "not"
  | modKw => "mod"

/-- The keyword with a given spelling. -/
def ofSpelling? (text : String) : Option Keyword := all.find? (·.spelling == text)

end Keyword

/-! ### Signs -/

/-- **A sign**: an operator or a mark of punctuation that is no word. -/
inductive Sign where
  | assign | arrow | plus | minus | star | slash | amp | equal | notEqual
  | less | greater | lessEqual | greaterEqual
  | bitAnd | bitOr | bitXor | bitNot
  | leftParen | rightParen | leftBracket | rightBracket | comma
deriving DecidableEq, Repr, Inhabited

/-- The spelling of a sign. -/
def Sign.spelling : Sign → String
  | assign => ":="
  | arrow => "->"
  | plus => "+"
  | minus => "-"
  | star => "*"
  | slash => "/"
  | amp => "&"
  | equal => "="
  | notEqual => "#"
  | less => "<"
  | greater => ">"
  | lessEqual => "<="
  | greaterEqual => ">="
  | bitAnd => ".and."
  | bitOr => ".or."
  | bitXor => ".xor."
  | bitNot => ".not."
  | leftParen => "("
  | rightParen => ")"
  | leftBracket => "["
  | rightBracket => "]"
  | comma => ","

/-! ### Kinds and tokens -/

/-- **The kind of a token.** -/
inductive TokenKind where
  /-- A decimal integer. -/
  | int
  /-- A hexadecimal integer. -/
  | hex
  /-- A real number. -/
  | real
  /-- A quoted string. -/
  | string
  /-- A name, with its sigil and its dotted parts. -/
  | identifier
  /-- A keyword. -/
  | keyword (k : Keyword)
  /-- A sign. -/
  | sign (s : Sign)
  /-- The end of a logical line. -/
  | newline
  /-- Text that is no token. -/
  | invalid
  /-- The end of the script. -/
  | eof
deriving DecidableEq, Repr, Inhabited

namespace TokenKind

/-- Whether the kind is a literal. -/
def isLiteral : TokenKind → Bool
  | int | hex | real | string => true
  | _ => false

/-- Whether the kind is a keyword. -/
def isKeyword : TokenKind → Bool
  | keyword _ => true
  | _ => false

/-- The kind as messages name it. -/
def description : TokenKind → String
  | int | hex => "integer literal"
  | real => "real literal"
  | string => "string literal"
  | identifier => "identifier"
  | keyword k => "'" ++ k.spelling ++ "'"
  | sign s => "'" ++ s.spelling ++ "'"
  | newline => "end of line"
  | invalid => "invalid token"
  | eof => "end of file"

end TokenKind

/-- **A token.** -/
structure Token where
  /-- What the token is. -/
  kind : TokenKind
  /-- How it is written. -/
  lexeme : String
  /-- Where it stands. -/
  span : Span
deriving DecidableEq, Repr, Inhabited

/-! ### Faults -/

/-- What can be wrong with the text of a script. -/
inductive LexFault where
  /-- A character that starts no token. -/
  | unexpectedChar (c : Char)
  /-- A string that is not closed on its line. -/
  | unterminatedString
  /-- A comment that is not closed at all. -/
  | unterminatedComment
  /-- A number that letters are stuck to, or without digits. -/
  | invalidNumber (detail : String)
deriving DecidableEq, Repr, Inhabited

/-- A fault and where it is. -/
structure LexError where
  /-- What is wrong. -/
  fault : LexFault
  /-- The offending text. -/
  span : Span
deriving DecidableEq, Repr, Inhabited

/-- The text of a fault. -/
def LexError.message (e : LexError) : String :=
  match e.fault with
  | .unexpectedChar c => "unexpected character '" ++ c.toString ++ "' at " ++ e.span.text
  | .unterminatedString => "unterminated string at " ++ e.span.text
  | .unterminatedComment => "unterminated comment at " ++ e.span.text
  | .invalidNumber detail => "invalid number at " ++ e.span.text ++ ": " ++ detail

end FlatScript
