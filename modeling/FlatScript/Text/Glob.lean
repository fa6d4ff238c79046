import FlatScript.Text.Case

/-!
# Glob patterns

A glob is a text in which `*` stands for any run of characters within one line. All
other characters stand for themselves, up to letter case.

A pattern is compared with all end parts of a text at once. The answers are a *row*: its
first entry is about the whole text, the next one about the text without its first
character, and the last one about the empty text. The row of a pattern is computed from the
row of the pattern without its first character.
-/

namespace FlatScript.Text

/-- Whether two characters agree up to letter case. -/
def sameFolded (c d : Char) : Bool := foldChar c == foldChar d

/-- The row of the empty pattern, which matches the empty text only. -/
def emptyRow : List Char → List Bool
  | [] => [true]
  | _ :: cs => false :: emptyRow cs

/-- The row of a pattern that starts with the character `p`, from the row of the rest. -/
def charRow (p : Char) : List Char → List Bool → List Bool
  | c :: cs, _ :: row => (sameFolded p c && row.headD false) :: charRow p cs row
  | _, _ => [false]

/-- The row of a pattern that starts with `*`, from the row of the rest: the rest matches
here, or after a character that does not end the line. -/
def starRow : List Char → List Bool → List Bool
  | c :: cs, here :: row =>
    let later := starRow cs row
    (here || (c != '\n' && later.headD false)) :: later
  | _, row => row

/-- The row of a pattern. -/
def globRow (text : List Char) : List Char → List Bool
  | [] => emptyRow text
  | '*' :: pattern => starRow text (globRow text pattern)
  | p :: pattern => charRow p text (globRow text pattern)

/-- **Whether a glob matches the whole of a text**, up to letter case. -/
def globMatches (pattern text : List Char) : Bool := (globRow text pattern).headD false

end FlatScript.Text
