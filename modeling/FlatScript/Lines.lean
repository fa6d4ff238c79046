import FlatScript.Text.Span

/-!
# Where lines come from

A script may be put together from several files, and a file may be taken in under a chain
of namespaces. What is known of a line is the file and that chain. Lines beyond the
table are all alike.
-/

namespace FlatScript

/-- What is known of a line. -/
structure LineInfo where
  /-- The file the line came from. -/
  file : Option String
  /-- The namespaces it was taken in under, outermost first. -/
  namespaces : List String
deriving DecidableEq, Repr, Inhabited

/-- **The table of lines**: the lines from the first one on, and what holds for the others. -/
structure Lines where
  /-- The known lines. -/
  known : List LineInfo
  /-- What holds of every other line. -/
  other : LineInfo
deriving DecidableEq, Repr, Inhabited

namespace Lines

/-- No known lines, no file and no namespaces. -/
def empty : Lines := ⟨[], ⟨none, []⟩⟩

/-- Every line comes from one file, outside all namespaces. -/
def single (file : Option String) : Lines := ⟨[], ⟨file, []⟩⟩

/-- The table with `count` more lines that are alike. -/
def push (l : Lines) (count : Nat) (info : LineInfo) : Lines :=
  { l with known := l.known ++ List.replicate count info }

/-- What is known of a line, counting from one. -/
def info (l : Lines) : Nat → LineInfo
  | 0 => l.other
  | n + 1 => l.known.getD n l.other

/-- The location of a span, with the calls it was copied through. -/
def location (l : Lines) (span : Span) (trace : List Span) : Location :=
  ⟨(l.info span.line).file, span, trace⟩

end Lines

end FlatScript
