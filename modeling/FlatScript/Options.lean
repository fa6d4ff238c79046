/-!
# Options

What can be chosen about a compilation. The four switches have names, by which directives
in a script set them.
-/

namespace FlatScript

/-- **The options of a compilation.** -/
structure Options where
  /-- Write without indentation. -/
  removeWhitespace : Bool := true
  /-- Give variables short names. -/
  compactVariables : Bool := false
  /-- Join callbacks that are written more than once. -/
  combineCallbacks : Bool := false
  /-- Evaluate constants and drop what is never run. -/
  optimizeCode : Bool := false
  /-- The number of blanks per level of indentation. -/
  indentWidth : Nat := 2
  /-- Patterns of the names that stay as they are. -/
  preserveNames : List String := []
  /-- Do not let directives in the script set the switches. -/
  forceOptions : Bool := false
  /-- The file that messages name. -/
  fileName : Option String := none
deriving DecidableEq, Repr, Inhabited

/-- The options with the switch of a name set; none when there is no such switch. -/
def Options.setSwitch? (o : Options) (name : String) (value : Bool) : Option Options :=
  match name with
  | "remove_whitespace" => some { o with removeWhitespace := value }
  | "compact_variables" => some { o with compactVariables := value }
  | "combine_callbacks" => some { o with combineCallbacks := value }
  | "optimize_code" => some { o with optimizeCode := value }
  | _ => none

end FlatScript
