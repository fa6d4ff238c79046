import FlatScript.Name.Sigil
import FlatScript.Token.Basic

/-!
# From text to tokens

A script is read from left to right. In front of every token stands a **gap**: blanks,
comments, and continuations, which join a line to the next one. What follows the gap is
a line feed, or a lexeme, which one look at the first characters classifies.

Every scanner answers with the *number of characters* it takes. The text it has taken and
the text that remains are then `List.take` and `List.drop` of one list, so nothing of the
script can be lost or read twice, and positions are computed from the text taken, by
`FlatScript.Position.after`.

* `FlatScript.Scan.gap` measures a gap, and `FlatScript.Scan.lexeme` a lexeme.
* `FlatScript.tokenize` gives all tokens and all faults of a script.

Lines matter: a run of line feeds is one token, line feeds before the first token are none,
and a script that does not end with a line feed gets one.
-/

namespace FlatScript

namespace Scan

/-! ### Characters -/

/-- Whether a decimal digit. -/
def isDigit (c : Char) : Bool := '0' ≤ c && c ≤ '9'

/-- Whether a hexadecimal digit. -/
def isHexDigit (c : Char) : Bool :=
  isDigit c || ('a' ≤ c && c ≤ 'f') || ('A' ≤ c && c ≤ 'F')

/-- Whether a name may start with the character. -/
def startsName (c : Char) : Bool :=
  c == '_' || ('a' ≤ c && c ≤ 'z') || ('A' ≤ c && c ≤ 'Z')

/-- Whether a name may go on with the character. -/
def continuesName (c : Char) : Bool := startsName c || isDigit c

/-- Whether a blank within a line. -/
def isLineBlank (c : Char) : Bool := c == ' ' || c == '\t' || c == '\r'

/-- Whether a text starts with a character that satisfies `p`. -/
def starts (p : Char → Bool) : List Char → Bool
  | [] => false
  | c :: _ => p c

/-- The length of the longest piece at the front whose characters satisfy `p`. -/
def run (p : Char → Bool) (cs : List Char) : Nat := (cs.takeWhile p).length

/-! ### Gaps -/

/-- The length of the text up to and including the first `close`, if there is one. -/
def through (close : List Char) : List Char → Option Nat
  | [] => none
  | c :: cs =>
    if close.isPrefixOf (c :: cs) then some close.length
    else (through close cs).map (· + 1)

/-- **A piece of a gap**: how many characters it takes, and how many of these open a
comment that is never closed. -/
structure Piece where
  /-- The characters of the piece. -/
  length : Nat
  /-- The length of the opening of an unclosed comment. -/
  unclosed : Option Nat := none
deriving DecidableEq, Repr

/-- The comment whose opening takes `opening` characters and whose text is `cs`. -/
def comment (opening : Nat) (close cs : List Char) : Piece :=
  match through close cs with
  | some n => ⟨opening + n, none⟩
  | none => ⟨opening + cs.length, some opening⟩

/-- The blank or comment that a text starts with. -/
def blankOrComment : List Char → Option Piece
  | '\x7b' :: cs => some (comment 1 ['\x7d'] cs)
  | '/' :: '*' :: cs => some (comment 2 ['*', '/'] cs)
  | '/' :: '/' :: cs => some ⟨2 + run (· ≠ '\n') cs, none⟩
  | c :: _ => if isLineBlank c then some ⟨1, none⟩ else none
  | [] => none

/-- **The extent of a gap**: its length, and where in it an unclosed comment opens and by how
many characters. -/
structure Gap where
  /-- The characters of the gap. -/
  length : Nat
  /-- The offset and the length of the opening of an unclosed comment. -/
  unclosed : Option (Nat × Nat) := none
deriving DecidableEq, Repr

/-- The gap that a piece and what follows it make up. -/
def Piece.andThen (p : Piece) (rest : Gap) : Gap where
  length := p.length + rest.length
  unclosed := match p.unclosed with
    | some opening => some (0, opening)
    | none => rest.unclosed.map fun (offset, opening) => (p.length + offset, opening)

/-- The gap that two gaps make up. -/
def Gap.append (g h : Gap) : Gap where
  length := g.length + h.length
  unclosed := g.unclosed <|> h.unclosed.map fun (offset, opening) => (g.length + offset, opening)

/-- What a continuation takes after its three dots, once `skip` characters have been taken:
blanks and comments, and then the line feed, if one follows. -/
def restOfContinuation : Nat → List Char → Gap
  | _, [] => ⟨0, none⟩
  | skip + 1, _ :: cs => restOfContinuation skip cs
  | 0, c :: cs => match blankOrComment (c :: cs) with
    | some piece => piece.andThen (restOfContinuation (piece.length - 1) cs)
    | none => ⟨if c = '\n' then 1 else 0, none⟩

/-- The blanks, comments and continuations at the front of a text, once `skip` characters
have been taken. -/
def trivia : Nat → List Char → Gap
  | _, [] => ⟨0, none⟩
  | skip + 1, _ :: cs => trivia skip cs
  | 0, c :: cs => match blankOrComment (c :: cs) with
    | some piece => piece.andThen (trivia (piece.length - 1) cs)
    | none =>
      if ['.', '.', '.'].isPrefixOf (c :: cs) then
        let line := restOfContinuation 0 (cs.drop 2)
        Piece.andThen ⟨3, none⟩ (line.append (trivia (2 + line.length) cs))
      else ⟨0, none⟩

/-- **The gap at the front of a text.** A byte-order mark may stand before the rest of it. -/
def gap : List Char → Gap
  | '\ufeff' :: cs => Piece.andThen ⟨1, none⟩ (trivia 0 cs)
  | cs => trivia 0 cs

/-! ### Lexemes -/

/-- **The extent of a lexeme**: its kind, its length, and what is wrong with it. -/
structure Lexeme where
  /-- What the lexeme is. -/
  kind : TokenKind
  /-- The characters of the lexeme. -/
  length : Nat
  /-- What is wrong with it, when its kind is `invalid`. -/
  fault : Option LexFault := none
deriving DecidableEq, Repr

/-- A lexeme that is a number gone wrong. -/
def badNumber (detail : String) (length : Nat) : Lexeme :=
  ⟨.invalid, length, some (.invalidNumber detail)⟩

/-- The dotted operator that a text starts with, in any letter case. -/
def dottedOperator (cs : List Char) : Option Sign :=
  [Sign.bitAnd, .bitOr, .bitXor, .bitNot].find? fun s =>
    s.spelling.toList.isPrefixOf ((cs.take 5).map Char.toLower)

/-- The length of what follows the first part of a name: dots and further parts. A dotted
operator ends the name, and so does a dot that no part follows. -/
def dottedParts : List Char → Nat
  | [] => 0
  | c :: cs =>
    if continuesName c then 1 + dottedParts cs
    else if c = '.' && starts continuesName cs && (dottedOperator (c :: cs)).isNone then
      1 + dottedParts cs
    else 0

/-- The name that a text starts with, sigil included. A word without sigil and dots may be a
keyword. -/
def name (cs : List Char) : Lexeme :=
  let sigil := if starts (fun c => (Sigil.ofChar? c).isSome) cs then 1 else 0
  let first := sigil + run continuesName (cs.drop sigil)
  let dotted := dottedParts (cs.drop first)
  let kind :=
    if sigil = 0 ∧ dotted = 0 then
      match Keyword.ofSpelling? (String.ofList (cs.take first)) with
      | some k => .keyword k
      | none => .identifier
    else .identifier
  ⟨kind, first + dotted, none⟩

/-- The length of the power of ten that a text starts with, or zero. -/
def exponent : List Char → Nat
  | e :: cs =>
    if e == 'e' || e == 'E' then
      let sign := if starts (fun c => c == '+' || c == '-') cs then 1 else 0
      let digits := run isDigit (cs.drop sign)
      if digits = 0 then 0 else 1 + sign + digits
    else 0
  | [] => 0

/-- The number whose first `length` characters are `kind`, unless letters are stuck to it. -/
def closedNumber (kind : TokenKind) (cs : List Char) (length : Nat) : Lexeme :=
  let stuck := run continuesName (cs.drop length)
  if stuck = 0 then ⟨kind, length, none⟩
  else badNumber "unexpected letters in number" (length + stuck)

/-- The number that a text starts with: `123`, `1.5`, `1.5e3`, `0x1F` or `01Fh`. -/
def number (cs : List Char) : Lexeme :=
  if ['0', 'x'].isPrefixOf cs || ['0', 'X'].isPrefixOf cs then
    let digits := run isHexDigit (cs.drop 2)
    if digits = 0 || starts continuesName (cs.drop (2 + digits)) then
      badNumber "malformed hexadecimal literal" (2 + digits)
    else ⟨.hex, 2 + digits, none⟩
  else
    let digits := run isHexDigit cs
    match cs.drop digits with
    | rest@(mark :: after) =>
      if (mark == 'h' || mark == 'H') && !starts continuesName after then
        ⟨.hex, digits + 1, none⟩
      else if !(cs.take digits).all isDigit then
        badNumber "unexpected letters in number" (digits + run continuesName rest)
      else if mark == '.' && starts isDigit after then
        let mantissa := digits + 1 + run isDigit after
        closedNumber .real cs (mantissa + exponent (cs.drop mantissa))
      else closedNumber .int cs digits
    | [] =>
      if (cs.take digits).all isDigit then ⟨.int, digits, none⟩
      else badNumber "unexpected letters in number" digits

/-- The length of the text of a string after its opening quote, and whether it is closed. A
backslash takes the character after it along, but no string goes past its line. -/
def stringRest (quote : Char) : List Char → Nat × Bool
  | [] => (0, false)
  | '\n' :: _ => (0, false)
  | '\\' :: c :: cs =>
    if c = '\n' then (1, false)
    else
      let (n, closed) := stringRest quote cs
      (n + 2, closed)
  | c :: cs =>
    if c = quote then (1, true)
    else
      let (n, closed) := stringRest quote cs
      (n + 1, closed)

/-- The string that a text starts with. -/
def string (quote : Char) (rest : List Char) : Lexeme :=
  match stringRest quote rest with
  | (n, true) => ⟨.string, n + 1, none⟩
  | (n, false) => ⟨.invalid, n + 1, some .unterminatedString⟩

/-- The sign that a text starts with. -/
def sign : List Char → Option (Sign × Nat)
  | ':' :: '=' :: _ => some (.assign, 2)
  | '-' :: '>' :: _ => some (.arrow, 2)
  | '<' :: '=' :: _ => some (.lessEqual, 2)
  | '>' :: '=' :: _ => some (.greaterEqual, 2)
  | '-' :: _ => some (.minus, 1)
  | '+' :: _ => some (.plus, 1)
  | '*' :: _ => some (.star, 1)
  | '/' :: _ => some (.slash, 1)
  | '&' :: _ => some (.amp, 1)
  | '=' :: _ => some (.equal, 1)
  | '#' :: _ => some (.notEqual, 1)
  | '<' :: _ => some (.less, 1)
  | '>' :: _ => some (.greater, 1)
  | '(' :: _ => some (.leftParen, 1)
  | ')' :: _ => some (.rightParen, 1)
  | '[' :: _ => some (.leftBracket, 1)
  | ']' :: _ => some (.rightBracket, 1)
  | ',' :: _ => some (.comma, 1)
  | _ => none

/-- The operator or mark that a text starts with. -/
def operator (first : Char) (rest : List Char) : Lexeme :=
  match dottedOperator (first :: rest) with
  | some s => ⟨.sign s, s.spelling.length, none⟩
  | none => match sign (first :: rest) with
    | some (s, n) => ⟨.sign s, n, none⟩
    | none => ⟨.invalid, 1, some (.unexpectedChar first)⟩

/-- **The lexeme at the front of a text** that starts with `first`. -/
def lexeme (first : Char) (rest : List Char) : Lexeme :=
  if first == '"' || first == '\'' then string first rest
  else if isDigit first then number (first :: rest)
  else if startsName first then name (first :: rest)
  else if (Sigil.ofChar? first).isSome && starts continuesName rest then name (first :: rest)
  else operator first rest

/-! ### Tokens -/

/-- The number of bytes of a text. -/
def byteLength (cs : List Char) : Nat := cs.foldr (fun c n => c.utf8Size + n) 0

/-- The tokens and faults at the end of a script: the last line is closed if it is open. -/
def finish (p : Position) (lineOpen : Bool) : List Token :=
  let eof : Token := ⟨.eof, "", .starting p 0⟩
  if lineOpen then [⟨.newline, "", .starting p 0⟩, eof] else [eof]

/-- The fault of an unclosed comment in a gap that starts at `p`. -/
def gapErrors (p : Position) (cs : List Char) (g : Gap) : List LexError :=
  match g.unclosed with
  | some (offset, opening) =>
    [⟨.unterminatedComment, .starting (p.after (cs.take offset)) opening⟩]
  | none => []

/-- The tokens and faults of a text that starts at `p`, on a line that holds tokens already
or not. The bound on the number of steps is never reached when it is larger than the
length of the text. -/
def tokens : Nat → Position → Bool → List Char → List Token × List LexError
  | 0, p, lineOpen, _ => (finish p lineOpen, [])
  | fuel + 1, p, lineOpen, cs =>
    let g := gap cs
    let errors := gapErrors p cs g
    let p := p.after (cs.take g.length)
    match cs.drop g.length with
    | [] => (finish p lineOpen, errors)
    | first :: rest =>
      if first = '\n' then
        let (ts, es) := tokens fuel (p.step first) false rest
        if lineOpen then (⟨.newline, "\n", .starting p 1⟩ :: ts, errors ++ es)
        else (ts, errors ++ es)
      else
        let l := lexeme first rest
        let text := (first :: rest).take l.length
        let span := Span.starting p (byteLength text)
        let (ts, es) := tokens fuel (p.after text) true ((first :: rest).drop l.length)
        (⟨l.kind, String.ofList text, span⟩ :: ts,
          errors ++ (l.fault.toList.map fun fault => ⟨fault, span⟩) ++ es)

end Scan

/-- **The tokens of a script**, with everything that is wrong with its text. The last token is
the only one of kind `eof`, and a line feed stands before it unless it is alone. -/
def tokenize (source : String) : List Token × List LexError :=
  let cs := source.toList
  Scan.tokens (cs.length + 1) .start false cs

end FlatScript
