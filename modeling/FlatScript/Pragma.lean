import FlatScript.Lines
import FlatScript.Name.Sigil
import FlatScript.Options
import FlatScript.Text.Blank

/-!
# Directives in a script

A comment that starts with `#pragma` can set a switch, clear one, or name variables that
keep their names. Directives are found in the text of a script, before it is parsed.

For every switch the first directive that sets it wins, and if there is none the first one
that clears it. Names are preserved under the namespaces of the line they are written on.
-/

namespace FlatScript

/-- **A directive.** -/
inductive Pragma where
  /-- Set or clear a switch. -/
  | switch (value : Bool) (name : String)
  /-- Preserve the names of a list, which stands on a line. -/
  | preserve (line : Nat) (list : List Char)
deriving DecidableEq, Repr

namespace Pragma

/-! ### Finding directives -/

/-- What follows a word at the front of a text. -/
def afterWord? (word : String) (cs : List Char) : Option (List Char) :=
  if word.toList.isPrefixOf cs then some (cs.drop word.length) else none

/-- What follows one or more blanks at the front of a text. -/
def afterBlanks? : List Char → Option (List Char)
  | c :: cs => if Text.isBlank c then some (cs.dropWhile Text.isBlank) else none
  | [] => none

/-- What follows the mark of a directive and the word of its kind. -/
def afterHead? (word : String) (cs : List Char) : Option (List Char) := do
  let cs ← afterWord? "\x7b" cs
  let cs ← afterWord? "#pragma" (cs.dropWhile Text.isBlank)
  let cs ← afterBlanks? cs
  let cs ← afterWord? word cs
  afterBlanks? cs

/-- What follows the end of a directive, with blanks in front of it. -/
def afterEnd? (cs : List Char) : Option (List Char) :=
  afterWord? "\x7d" (cs.dropWhile Text.isBlank)

/-- Whether a character may be part of the name of a switch. -/
def isSwitchChar (c : Char) : Bool := c.isAlphanum || c == '_'

/-- The directive about a switch at the front of a text, and what follows it. -/
def switchAt? (value : Bool) (word : String) (cs : List Char) : Option (Pragma × List Char) := do
  let cs ← afterHead? word cs
  let name := cs.takeWhile isSwitchChar
  let rest ← afterEnd? (cs.dropWhile isSwitchChar)
  if name.isEmpty then none else some (.switch value (String.ofList name), rest)

/-- The shortest text within a line that the end of a directive follows, and what follows
that end. -/
def upToEnd? : List Char → Option (List Char × List Char)
  | [] => none
  | c :: cs => match afterEnd? (c :: cs) with
    | some rest => some ([], rest)
    | none =>
      if c = '\n' then none
      else (upToEnd? cs).map fun (list, rest) => (c :: list, rest)

/-- The directive about names at the front of a text, and what follows it. -/
def preserveAt? (line : Nat) (cs : List Char) : Option (Pragma × List Char) := do
  let cs ← afterHead? "preserve_names" cs
  let (list, rest) ← upToEnd? cs
  some (.preserve line list, rest)

/-- The directives of a text that `at?` finds at the front of its pieces, once `skip`
characters have been taken. They do not overlap. -/
def find (at? : Nat → List Char → Option (Pragma × List Char)) :
    Nat → Nat → List Char → List Pragma
  | _, _, [] => []
  | skip + 1, line, c :: cs => find at? skip (if c = '\n' then line + 1 else line) cs
  | 0, line, c :: cs =>
    let next := if c = '\n' then line + 1 else line
    match at? line (c :: cs) with
    | some (pragma, rest) => pragma :: find at? (cs.length - rest.length) next cs
    | none => find at? 0 next cs

/-- The directives of a script about names. -/
def preserves (source : String) : List Pragma := find preserveAt? 0 1 source.toList

/-- The directives of a script about switches. -/
def switches (source : String) : List Pragma :=
  find (fun _ cs => switchAt? true "compile_with" cs <|> switchAt? false "compile_without" cs)
    0 1 source.toList

/-! ### Applying directives -/

/-- The names in a list, without sigils. -/
def namesIn (list : List Char) : List String :=
  let bare := list.filter fun c => (Sigil.ofChar? c).isNone
  (Text.pieces (fun c => Text.isBlank c || c == ',') bare).filterMap fun piece =>
    if piece.isEmpty then none else some (String.ofList piece)

/-- The options with one name more that is preserved. -/
def preserveName (o : Options) (name : String) : Options :=
  if o.preserveNames.contains name then o
  else { o with preserveNames := o.preserveNames ++ [name] }

/-- The options with the names of a directive preserved. -/
def applyPreserve (lines : Lines) (o : Options) : Pragma → Options
  | .preserve line list =>
    let namespaces := (lines.info line).namespaces
    (namesIn list).foldl (fun o name =>
      preserveName o (if namespaces.isEmpty then name
        else ".".intercalate namespaces ++ "." ++ name)) o
  | .switch _ _ => o

/-- The options and the switches that are decided, after the directives about switches that
ask for `value`. -/
def applySwitches (value : Bool) (state : Options × List String) (pragmas : List Pragma) :
    Options × List String :=
  pragmas.foldl (fun (o, decided) pragma =>
    match pragma with
    | .switch v name =>
      if v ≠ value ∨ decided.contains name then (o, decided)
      else match o.setSwitch? name value with
        | some o => (o, name :: decided)
        | none => (o, decided)
    | .preserve _ _ => (o, decided)) state

end Pragma

/-- **The options after the directives of a script.** -/
def Options.withPragmas (o : Options) (source : String) (lines : Lines) : Options :=
  let o := (Pragma.preserves source).foldl (Pragma.applyPreserve lines) o
  if o.forceOptions then o
  else
    let pragmas := Pragma.switches source
    (Pragma.applySwitches false (Pragma.applySwitches true (o, []) pragmas) pragmas).1

end FlatScript
