/-!
# White space, lines and pieces of text

The characters that count as white space between words of a table or of a directive,
and the small operations on texts that are stated through it: trimming, splitting at a
character, and splitting into lines.

Everything works on lists of characters, and the versions on `String` wrap those.
-/

namespace FlatScript.Text

/-! ### White space -/

/-- **White space**, in the sense of the Unicode property of that name. -/
def isBlank (c : Char) : Bool :=
  let n := c.toNat
  (9 ≤ n && n ≤ 13) || n == 32 || n == 133 || n == 160 || n == 5760 ||
    (8192 ≤ n && n ≤ 8202) || n == 8232 || n == 8233 || n == 8239 || n == 8287 || n == 12288

/-- A list without the elements at its end that satisfy `p`. -/
def dropEndWhile (p : Char → Bool) (cs : List Char) : List Char :=
  (cs.reverse.dropWhile p).reverse

/-- A list without the elements at either end that satisfy `p`. -/
def trimWhile (p : Char → Bool) (cs : List Char) : List Char :=
  dropEndWhile p (cs.dropWhile p)

/-- A text without white space at its ends. -/
def trim (cs : List Char) : List Char := trimWhile isBlank cs

/-! ### Pieces -/

/-- The text before the first `c` and the text after it, if there is one. -/
def splitFirst (c : Char) : List Char → Option (List Char × List Char)
  | [] => none
  | d :: ds =>
    if d = c then some ([], ds)
    else (splitFirst c ds).map fun (head, tail) => (d :: head, tail)

/-- The text before the last `c` and the text after it, if there is one. -/
def splitLast (c : Char) (cs : List Char) : Option (List Char × List Char) :=
  (splitFirst c cs.reverse).map fun (tail, head) => (head.reverse, tail.reverse)

/-- The pieces between the characters that satisfy `p`; there is one more piece than
there are such characters. -/
def pieces (p : Char → Bool) : List Char → List (List Char)
  | [] => [[]]
  | c :: cs =>
    if p c then [] :: pieces p cs
    else match pieces p cs with
      | [] => [[c]]
      | first :: rest => (c :: first) :: rest

/-- The text without a carriage return at its end. -/
def dropReturn (cs : List Char) : List Char :=
  match cs.reverse with
  | '\r' :: before => before.reverse
  | _ => cs

/-- The lines of a text, without their line ends. A line feed at the very end closes the
last line and opens none, and a carriage return before a line feed belongs to it. -/
def lines (cs : List Char) : List (List Char) :=
  match (pieces (· == '\n') cs).reverse with
  | [] => []
  | last :: before =>
    (before.reverse.map dropReturn) ++ if last.isEmpty then [] else [last]

/-- The text with every `c` replaced by `text`. -/
def replaceChar (c : Char) (text : List Char) (cs : List Char) : List Char :=
  cs.flatMap fun d => if d = c then text else [d]

/-- Whether a word occurs anywhere in a text. -/
def occursIn (word : List Char) : List Char → Bool
  | [] => word.isEmpty
  | c :: cs => word.isPrefixOf (c :: cs) || occursIn word cs

end FlatScript.Text
