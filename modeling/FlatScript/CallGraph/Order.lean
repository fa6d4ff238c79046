import FlatScript.CallGraph.Basic

/-!
# Callers before callees

A linear order of the functions in which every caller stands before the functions it calls.
It is the reverse of the order in which a depth-first search leaves the functions. The
search starts at the root and then at the functions in lexical order, and it follows calls
in the order in which they were recorded.

There is no such order when functions call each other in a circle; the answer is empty
then. Few functions have to be asked whether they lie on a circle: a function that calls
only functions which are known to lie on none lies on none itself, and the same goes for a
function that is called by such functions only. The order of the search is one in which
these two rules find what they can.
-/

namespace FlatScript.CallGraph

/-! ### Depth first -/

/-- All callers: the root, and the functions in lexical order. -/
def sortedCallers (g : CallGraph) : List Caller :=
  none :: (Name.sorted g.functions).map some

/-- How far a depth-first search has come. -/
structure Walk where
  /-- The callers that have been entered. -/
  entered : List Caller := []
  /-- The callers that have been left, in that order. -/
  left : List Caller := []

/-- A search that has entered and left `caller` and everything that it leads to, unless it
was entered before. The bound is on the length of chains of calls. -/
def visit (g : CallGraph) : Nat → Walk → Caller → Walk
  | 0, w, _ => w
  | fuel + 1, w, caller =>
    if w.entered.contains caller then w
    else
      let w := ((g.callees caller).map some).foldl (g.visit fuel)
        { w with entered := caller :: w.entered }
      { w with left := w.left ++ [caller] }

/-- The callers in the order in which a depth-first search leaves them. -/
def leavingOrder (g : CallGraph) : List Caller :=
  (g.sortedCallers.foldl (g.visit (g.functions.length + 1)) {}).left

/-! ### Circles -/

/-- The callers of a function. -/
def callers (g : CallGraph) : Caller → List Caller
  | none => []
  | some name => g.calls.filterMap fun (c, callee) => if callee = name then some c else none

/-- The callers that can be dismissed one after the other, because all that come `next` to
them have been dismissed before. -/
def dismissed (next : Caller → List Caller) (order : List Caller) : List Caller :=
  order.foldl (fun gone c => if (next c).all gone.contains then c :: gone else gone) []

/-- The functions that may lie on a circle: those that are neither dismissed on account of
the functions they call nor on account of their callers. -/
def suspects (g : CallGraph) : List String :=
  let order := g.leavingOrder
  let leadNowhere := dismissed (fun c => (g.callees c).map some) order
  let comeFromNowhere := dismissed g.callers order.reverse
  g.functions.filter fun name =>
    !leadNowhere.contains (some name) && !comeFromNowhere.contains (some name)

/-- **The functions, callers before callees**; empty when there is a circle of calls. -/
def topologicalOrder (g : CallGraph) : List String :=
  if g.suspects.any g.onCycle then [] else g.leavingOrder.reverse.filterMap id

end FlatScript.CallGraph
