/-!
# Sorted names

Names are shown in the order of their code points. The sort is by insertion, and it keeps
equal names.
-/

namespace FlatScript.Name

/-- A name put into a sorted list, before the first name that is not smaller. -/
def insertSorted (name : String) : List String → List String
  | [] => [name]
  | n :: ns => if name ≤ n then name :: n :: ns else n :: insertSorted name ns

/-- **The names of a list in order.** -/
def sorted (names : List String) : List String := names.foldr insertSorted []

/-- The list with a name more at its end, unless it is in it already. -/
def insertNew (names : List String) (name : String) : List String :=
  if names.contains name then names else names ++ [name]

/-- The names of a list, each once, in the order of their first occurrence. -/
def distinct (names : List String) : List String := names.foldl insertNew []

end FlatScript.Name
