import FlatScript.Name.Sigil
import FlatScript.Text.Case
import FlatScript.Text.Digest

/-!
# Short names

The short name of a variable is its sigil and five characters, which are taken from the
digest of the name in lower case. Names that differ in letter case only have the same short
name.
-/

namespace FlatScript.Compaction

/-- The characters of short names. -/
def alphabet : List Char := "abcdefghijklmnopqrstuvwxyz012345".toList

/-- The character of the alphabet for the five lowest bits of a number. -/
def letter (n : Nat) : Char := alphabet.getD (n % 32) 'a'

/-- A character for each of the lowest `count` bytes of a number, the lowest byte first. -/
def letters : Nat → Nat → List Char
  | 0, _ => []
  | count + 1, n => letter n :: letters count (n / 256)

/-- The sigil of a name as text, if it has one. -/
def sigilText (name : String) : String :=
  match (Sigil.split name).1 with
  | some sigil => sigil.text
  | none => ""

/-- **The short name of a variable.** -/
def shortName (name : String) : String :=
  sigilText name ++ String.ofList (letters 5 (Text.digest (Text.lower name)).toNat)

end FlatScript.Compaction
