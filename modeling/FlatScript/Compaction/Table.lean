import FlatScript.Error
import FlatScript.Text.Case

/-!
# The table of short names

Which variable has which short name, in both directions, so that the short names in a text,
a message of the engine for instance, can be replaced by the names of the script.
-/

namespace FlatScript

/-- **The short names that were given**: pairs of a name and its short name. -/
structure ShortNames where
  /-- The pairs, the latest first. -/
  pairs : List (String × String) := []
deriving DecidableEq, Repr, Inhabited

namespace ShortNames

/-- The number of short names. -/
def size (t : ShortNames) : Nat := t.pairs.length

/-- The short name of a variable, whose letter case does not matter. -/
def short? (t : ShortNames) (name : String) : Option String :=
  let key := Text.lower name
  t.pairs.findSome? fun (long, short) => if long == key then some short else none

/-- The variable with a short name. -/
def long? (t : ShortNames) (short : String) : Option String :=
  t.pairs.findSome? fun (long, s) => if s == short then some long else none

/-- The table with a name more; it is an error if its short name has been given before. -/
def insert (t : ShortNames) (name short : String) : Except CompileError ShortNames :=
  match t.long? short with
  | some first => .error (.compactionCollision first name short)
  | none => .ok ⟨(name, short) :: t.pairs⟩

/-! ### Texts -/

/-- Whether a character may follow the sigil in a name that is looked up. -/
def isNameChar (c : Char) : Bool := c.isAlphanum || c == '_'

/-- Whether a character is a sigil. -/
def isSigil (c : Char) : Bool := (Sigil.ofChar? c).isSome

/-- A text in which every short name is replaced, once `pending` characters have been skipped,
which belong to a name that is replaced already. -/
def expandFrom (t : ShortNames) : Nat → List Char → List Char
  | _, [] => []
  | pending + 1, _ :: cs => t.expandFrom pending cs
  | 0, c :: cs =>
    let name := cs.takeWhile isNameChar
    if isSigil c && !name.isEmpty then
      let word := String.ofList (c :: name)
      ((t.long? word).getD word).toList ++ t.expandFrom name.length cs
    else c :: t.expandFrom 0 cs

/-- **A text with the names of the script in the place of short names.** -/
def expand (t : ShortNames) (text : String) : String :=
  String.ofList (t.expandFrom 0 text.toList)

end ShortNames

end FlatScript
