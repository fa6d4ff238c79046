import FlatScript.Name.Sigil
import FlatScript.Text.Blank

/-!
# Built-in names

The engine brings variables, functions, keywords and callbacks of its own. They are listed
in a table, which can be written as a text: a line in brackets opens a section, every
other line is an entry of it, and empty lines and lines with a `#` in front are skipped.

* `FlatScript.Builtins` is the table.
* `FlatScript.Builtins.parse` reads its text.

Built-in names are looked up as they are spelled, and a variable is listed with its sigil.
-/

namespace FlatScript

/-- The types of the parameters and of the result of a built-in function, as the table
writes them. -/
structure Signature where
  /-- The types of the parameters. -/
  params : List String
  /-- The type of the result. -/
  returns : Option String
deriving DecidableEq, Repr, Inhabited

/-- **The table of built-in names.** -/
structure Builtins where
  /-- Variables, with their sigils. -/
  vars : List String := []
  /-- Functions. -/
  functions : List (String × Signature) := []
  /-- Words that no variable may have as its name. -/
  keywords : List String := []
  /-- Callbacks. -/
  callbacks : List String := []
  /-- Functions that are written with parentheses also without arguments. -/
  forcedParentheses : List String := []
  /-- Functions whose result is the same for the same arguments. -/
  constantReturn : List String := []
deriving DecidableEq, Repr, Inhabited

namespace Builtins

/-! ### Looking names up -/

/-- The names of the functions. -/
def functionNames (b : Builtins) : List String := b.functions.map Prod.fst

/-- All variables, functions and keywords. -/
def all (b : Builtins) : List String := b.vars ++ b.functionNames ++ b.keywords

/-- Whether a function has the name. -/
def isFunction (b : Builtins) (name : String) : Bool := b.functionNames.contains name

/-- The signature of a function. -/
def signature? (b : Builtins) (name : String) : Option Signature := b.functions.lookup name

/-- Whether a keyword. -/
def isKeyword (b : Builtins) (name : String) : Bool := b.keywords.contains name

/-- Whether a callback has the name. -/
def isCallback (b : Builtins) (name : String) : Bool := b.callbacks.contains name

/-- Whether a variable, with its sigil, or a function or a keyword has the name. -/
def isBuiltin (b : Builtins) (name : String) : Bool := b.all.contains name

/-- Whether a built-in has the name once its sigil is left out. -/
def isBuiltinUnprefixed (b : Builtins) (name : String) : Bool :=
  b.all.any fun n => (Sigil.split n).2 == name

/-- Whether the function is written with parentheses also without arguments. -/
def forcesParentheses (b : Builtins) (name : String) : Bool := b.forcedParentheses.contains name

/-- Whether the result of the function is the same for the same arguments. -/
def hasConstantReturn (b : Builtins) (name : String) : Bool := b.constantReturn.contains name

/-- The functions whose first argument is the name of a key or a condition, and no
expression. -/
def rawFirstArgument : List String :=
  ["SET_CONDITION", "RESET_CONDITION", "USE_CODE_IF", "USE_CODE_IF_NOT", "_pgs_create_key",
    "_pgs_key_exists", "_pgs_set_key_val", "_pgs_get_key_val", "pgs_create_key",
    "pgs_key_exists", "pgs_set_key_val", "pgs_get_key_val", "pgs_create_str_key",
    "pgs_str_key_exists", "pgs_set_str_key_val", "pgs_get_str_key_val"]

/-- Whether the first argument of the function is a name that is passed on as it is. -/
def keepsFirstArgument (name : String) : Bool := rawFirstArgument.contains name

/-! ### Reading a table -/

/-- The sections of a table. -/
inductive Section where
  | vars | functions | keywords | callbacks | forcedParentheses | constantReturn
deriving DecidableEq, Repr

/-- The section that a line in brackets opens. -/
def Section.ofName? : String → Option Section
  | "variables" => some vars
  | "functions" => some functions
  | "keywords" => some keywords
  | "callbacks" => some callbacks
  | "functions_with_forced_parentheses" => some forcedParentheses
  | "functions_with_constant_return" => some constantReturn
  | _ => none

/-- What can be wrong with a table. -/
inductive TableError where
  /-- An entry before the first section. -/
  | noSection (line : Nat)
  /-- A section that does not exist. -/
  | unknownSection (name : String) (line : Nat)
  /-- An entry that is no signature of a function. -/
  | malformedSignature (text : String) (line : Nat)
deriving DecidableEq, Repr

/-- The text of a fault. -/
def TableError.message : TableError → String
  | noSection line => "line " ++ toString line ++ ": entry outside of any section"
  | unknownSection name line =>
    "line " ++ toString line ++ ": unknown section [" ++ name ++ "]"
  | malformedSignature text line =>
    "line " ++ toString line ++ ": malformed function signature '" ++ text ++ "'"

/-- Whether a character may be part of the name of a function. -/
def isNameChar (c : Char) : Bool := c.isAlphanum || c == '_'

/-- The types in a list of parameters, without the angle brackets around them. -/
def paramTypes (inner : List Char) : List String :=
  ((Text.pieces (· == ',') inner).map fun piece =>
      Text.trimWhile (fun c => c == '<' || c == '>') (Text.trim piece)).filterMap fun piece =>
    if piece.isEmpty then none else some (String.ofList piece)

/-- The text without the closing parenthesis at its end. -/
def dropClosing? (cs : List Char) : Option (List Char) :=
  match (Text.dropEndWhile Text.isBlank cs).reverse with
  | ')' :: before => some before.reverse
  | _ => none

/-- The name, the types of the parameters and the type of the result in
`name(type, …):type`, of which all but the name may be missing. -/
def parseSignature (line : List Char) : Option (String × Signature) := do
  let (head, returns) := match Text.splitLast ':' line with
    | some (head, type) =>
      if type.contains ')' then (line, none) else (head, some (String.ofList (Text.trim type)))
    | none => (line, none)
  let (name, params) ← match Text.splitFirst '(' head with
    | some (name, rest) => do
      let inner ← dropClosing? rest
      pure (Text.trim name, paramTypes inner)
    | none => pure (Text.trim head, [])
  if name.isEmpty || !name.all isNameChar then none
  else some (String.ofList name, ⟨params, returns⟩)

/-- The list with an entry more, unless it is in it already. -/
def withEntry (entries : List String) (entry : String) : List String :=
  if entries.contains entry then entries else entries ++ [entry]

/-- The table with an entry more in a section. A signature replaces an earlier one. -/
def addEntry (b : Builtins) (line : Nat) (entry : List Char) :
    Section → Except TableError Builtins
  | .vars => .ok { b with vars := withEntry b.vars (String.ofList entry) }
  | .functions => match parseSignature entry with
    | some (name, signature) =>
      .ok { b with functions := b.functions.filter (·.1 != name) ++ [(name, signature)] }
    | none => .error (.malformedSignature (String.ofList entry) line)
  | .keywords => .ok { b with keywords := withEntry b.keywords (String.ofList entry) }
  | .callbacks => .ok { b with callbacks := withEntry b.callbacks (String.ofList entry) }
  | .forcedParentheses =>
    .ok { b with forcedParentheses := withEntry b.forcedParentheses (String.ofList entry) }
  | .constantReturn =>
    .ok { b with constantReturn := withEntry b.constantReturn (String.ofList entry) }

/-- The text between brackets that fill a line. -/
def bracketed? : List Char → Option (List Char)
  | '[' :: rest => match rest.reverse with
    | ']' :: inner => some inner.reverse
    | _ => none
  | _ => none

/-- The table with the entries of further lines, the first of which has the number `line`. -/
def parseLines (b : Builtins) (current : Option Section) (line : Nat) :
    List (List Char) → Except TableError Builtins
  | [] => .ok b
  | raw :: rest =>
    let text := Text.trim raw
    match text with
    | [] | '#' :: _ => parseLines b current (line + 1) rest
    | _ => match bracketed? text with
      | some inner =>
        let name := String.ofList (Text.trim inner)
        match Section.ofName? name with
        | some opened => parseLines b (some opened) (line + 1) rest
        | none => .error (.unknownSection name line)
      | none => match current with
        | none => .error (.noSection line)
        | some s => do parseLines (← b.addEntry line text s) current (line + 1) rest

/-- The keyword that every table has. -/
def commonKeyword : String := "async_complete"

/-- **The table that a text spells.** -/
def parse (text : String) : Except TableError Builtins := do
  let b ← parseLines {} none 1 (Text.lines text.toList)
  return { b with keywords := withEntry b.keywords commonKeyword }

end Builtins

end FlatScript
