/-!
# Places in a script

Every node of a script remembers where it was written, and every message says
where it applies. A `FlatScript.Span` is the start of a piece of text together
with its length; a `FlatScript.Location` adds the file and the calls through
which the text was copied.

Lines and columns count from one, and columns and lengths count the bytes of the
encoded text. Only the start of a span is ever shown to a reader, so the end is
not stored.
-/

namespace FlatScript

/-! ### Positions and spans -/

/-- A position between two characters: the line it is on, and one plus the number
of bytes of that line before it. -/
structure Position where
  /-- The line, from one. -/
  line : Nat
  /-- The byte column, from one. -/
  column : Nat
deriving DecidableEq, Repr, Inhabited

namespace Position

/-- The position before the first character. -/
def start : Position := ⟨1, 1⟩

/-- The position after one more character: a line feed opens the next line, and
any other character moves by its width. -/
def step (p : Position) (c : Char) : Position :=
  if c = '\n' then ⟨p.line + 1, 1⟩ else ⟨p.line, p.column + c.utf8Size⟩

/-- **The position after a text**, read from left to right. -/
def after (p : Position) (text : List Char) : Position :=
  text.foldl step p

@[simp] theorem after_nil (p : Position) : p.after [] = p := rfl

@[simp] theorem after_cons (p : Position) (c : Char) (text : List Char) :
    p.after (c :: text) = (p.step c).after text := rfl

theorem after_append (p : Position) (s t : List Char) :
    p.after (s ++ t) = (p.after s).after t :=
  List.foldl_append

end Position

/-- **A span**: where a piece of text starts, and how many bytes it covers. -/
structure Span where
  /-- The line, from one. -/
  line : Nat
  /-- The byte column, from one. -/
  column : Nat
  /-- The number of bytes. -/
  length : Nat
deriving DecidableEq, Repr, Inhabited

namespace Span

/-- The span of nothing, for nodes that were never written down. -/
def zero : Span := ⟨0, 0, 0⟩

/-- The span of `length` bytes from a position on. -/
def starting (p : Position) (length : Nat) : Span := ⟨p.line, p.column, length⟩

/-- Whether the span covers no text. -/
def isEmpty (s : Span) : Bool := s.length == 0

/-- The smallest span that covers both, when they share a line. Across lines the
start of the first is kept and the lengths are added. -/
def merge (s t : Span) : Span :=
  if s.line ≠ t.line then ⟨s.line, s.column, s.length + t.length⟩
  else
    let column := min s.column t.column
    ⟨s.line, column, max (s.column + s.length) (t.column + t.length) - column⟩

/-- The start of the span, as a reader sees it. -/
def text (s : Span) : String := toString s.line ++ ":" ++ toString s.column

end Span

/-! ### Locations -/

/-- **A location**: the file and the span a message is about, and the calls through
which the statement was copied, innermost first. -/
structure Location where
  /-- The file, if the script came from one. -/
  file : Option String
  /-- The offending text. -/
  span : Span
  /-- The call sites the text was copied through. -/
  trace : List Span
deriving DecidableEq, Repr, Inhabited

namespace Location

/-- The call sites of a location, after the position. -/
def traceText : List Span → String
  | [] => ""
  | sites => " (inlined from " ++ " <- ".intercalate (sites.map Span.text) ++ ")"

/-- The location as a reader sees it. -/
def text (l : Location) : String :=
  (match l.file with
    | some file => file ++ ":"
    | none => "") ++ l.span.text ++ traceText l.trace

end Location

end FlatScript
