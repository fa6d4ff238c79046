/-!
# Sigils

The name of a variable starts with one character that tells the kind of its values and
whether it is an array. A name in a script may leave the sigil out where it can be
found out.
-/

namespace FlatScript

/-- **A sigil**: the type tag in front of a variable name. -/
inductive Sigil where
  /-- `$`, an integer. -/
  | integer
  /-- `%`, an array of integers. -/
  | integerArray
  /-- `@`, a string. -/
  | string
  /-- `!`, an array of strings. -/
  | stringArray
  /-- `?`, an array of reals. -/
  | realArray
  /-- `~`, a real. -/
  | real
deriving DecidableEq, Repr, Inhabited

namespace Sigil

/-- All sigils, in the order in which messages list them. -/
def all : List Sigil := [integer, integerArray, string, stringArray, realArray, real]

theorem mem_all (s : Sigil) : s ∈ all := by cases s <;> decide

/-- The character of a sigil. -/
def toChar : Sigil → Char
  | integer => '$'
  | integerArray => '%'
  | string => '@'
  | stringArray => '!'
  | realArray => '?'
  | real => '~'

/-- The sigil with a given character. -/
def ofChar? (c : Char) : Option Sigil :=
  match c with
  | '$' => some integer
  | '%' => some integerArray
  | '@' => some string
  | '!' => some stringArray
  | '?' => some realArray
  | '~' => some real
  | _ => none

@[simp] theorem ofChar?_toChar (s : Sigil) : ofChar? s.toChar = some s := by
  cases s <;> rfl

/-- Whether the sigil marks an array, which may take a subscript. -/
def isArray : Sigil → Bool
  | integerArray | stringArray | realArray => true
  | integer | string | real => false

/-- The sigil as a text. -/
def text (s : Sigil) : String := s.toChar.toString

/-- A name divided into its leading sigil, if it has one, and the rest. -/
def split (name : String) : Option Sigil × String :=
  match name.toList with
  | [] => (none, name)
  | c :: rest => match ofChar? c with
    | some sigil => (some sigil, String.ofList rest)
    | none => (none, name)

end Sigil

end FlatScript
