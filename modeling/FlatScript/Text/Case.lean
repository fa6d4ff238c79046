import FlatScript.Text.CaseTable

/-!
# Lower case and case folding

Names of variables are compared without regard to letter case, and a name is stored
in lower case. `FlatScript.Text.lower` is the full lower-case mapping of a text: every
character goes to its lower-case form, a dotted capital I to two characters, and a
capital sigma to the form it has at the end of a word when it stands at one.

`FlatScript.Text.foldChar` is simple case folding, one character to one character, by
which glob patterns compare letters.
-/

namespace FlatScript.Text

/-! ### Looking a character up -/

/-- Whether a code point lies in one of the ranges. -/
def inRows (rows : List (Nat × Nat)) (n : Nat) : Bool :=
  rows.any fun row => row.1 ≤ n && n ≤ row.2

/-- The image of a code point under the first row that covers it. -/
def mapRows (rows : List (Nat × Nat × Nat × Int)) (n : Nat) : Option Nat :=
  (rows.find? fun (lo, hi, step, _) => lo ≤ n && n ≤ hi && (n - lo) % step == 0).map
    fun (_, _, _, shift) => ((n : Int) + shift).toNat

/-- Whether the character is a letter with case that a case context does not look
through. -/
def isCased (c : Char) : Bool := inRows casedRows c.toNat

/-- Whether a case context looks through the character. -/
def isCaseIgnorable (c : Char) : Bool := inRows caseIgnorableRows c.toNat

/-- The simple lower-case form of one character. -/
def lowerChar (c : Char) : Char :=
  if c.toNat < 128 then c.toLower
  else match mapRows lowerRows c.toNat with
    | some n => Char.ofNat n
    | none => c

/-- The simple case folding of one character. -/
def foldChar (c : Char) : Char :=
  if c.toNat < 128 then c.toLower
  else if inRows unfoldedRows c.toNat then c
  else match mapRows foldRows c.toNat with
    | some n => Char.ofNat n
    | none => lowerChar c

/-! ### Lower case of a text -/

/-- Whether a case context meets a letter with case first. -/
def meetsCased (cs : List Char) : Bool :=
  match cs.dropWhile isCaseIgnorable with
  | c :: _ => isCased c
  | [] => false

/-- The lower-case form of `c` between the text before it, read backwards, and the text
after it. -/
def lowerIn (before : List Char) (c : Char) (after : List Char) : List Char :=
  if c = 'Σ' then [if meetsCased before && !meetsCased after then 'ς' else 'σ']
  else if c = 'İ' then ['i', '\u0307']
  else [lowerChar c]

/-- The lower-case form of a text, with the text before it read backwards. -/
def lowerAfter (before : List Char) : List Char → List Char
  | [] => []
  | c :: cs => lowerIn before c cs ++ lowerAfter (c :: before) cs

/-- **The lower-case form of a text.** -/
def lower (s : String) : String := String.ofList (lowerAfter [] s.toList)

end FlatScript.Text
