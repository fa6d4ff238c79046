import FlatScript.Name.Sorted

/-!
# Who calls whom

The calls among the functions of a script. All callbacks together are one caller, the
*root*. A call is recorded once for every place it is written at, in order, so the graph may
have parallel edges.

* `FlatScript.CallGraph` is the graph.
* `FlatScript.CallGraph.reachableFrom` lists what can be reached from some callers.
-/

namespace FlatScript

/-- A caller: a function, or the root for all callbacks. -/
abbrev Caller := Option String

/-- **The calls of a script.** -/
structure CallGraph where
  /-- The functions, in the order in which they were first mentioned. -/
  functions : List String := []
  /-- The calls, in the order in which they were recorded. -/
  calls : List (Caller × String) := []
  /-- The functions that are called with the keyword `call`. -/
  explicit : List String := []
deriving DecidableEq, Repr, Inhabited

namespace CallGraph

/-! ### Recording -/

/-- The graph with a function in it. -/
def ensure (g : CallGraph) (name : String) : CallGraph :=
  { g with functions := Name.insertNew g.functions name }

/-- The graph with a call more. -/
def addCall (g : CallGraph) (caller : Caller) (callee : String) : CallGraph :=
  let g := match caller with
    | some name => g.ensure name
    | none => g
  let g := g.ensure callee
  { g with calls := g.calls ++ [(caller, callee)] }

/-- The graph in which a function is called with the keyword `call`. -/
def markExplicit (g : CallGraph) (name : String) : CallGraph :=
  { g with explicit := Name.insertNew g.explicit name }

/-- Whether a function is called with the keyword `call`. -/
def isExplicit (g : CallGraph) (name : String) : Bool := g.explicit.contains name

/-! ### Following calls -/

/-- The functions that a caller calls, in the order in which the calls were recorded. -/
def callees (g : CallGraph) (caller : Caller) : List String :=
  g.calls.filterMap fun (c, callee) => if c = caller then some callee else none

/-- The functions that can be reached from those in the first list, on top of those in the
second one, which are done. Every step takes one function off the list. -/
def reach (g : CallGraph) : Nat → List String → List String → List String
  | 0, _, done => done
  | _ + 1, [], done => done
  | fuel + 1, n :: ns, done =>
    if done.contains n then g.reach fuel ns done
    else g.reach fuel (g.callees (some n) ++ ns) (done ++ [n])

/-- **The functions that can be reached from some functions**, those included. -/
def reachableFrom (g : CallGraph) (starts : List String) : List String :=
  g.reach (starts.length + g.calls.length) starts []

/-- The functions that can be reached from a callback. -/
def reachableFromRoot (g : CallGraph) : List String := g.reachableFrom (g.callees none)

/-- Whether one function can be reached from another one. -/
def reaches (g : CallGraph) (start goal : String) : Bool :=
  (g.reachableFrom [start]).contains goal

/-- Whether a function can be reached from itself by at least one call. -/
def onCycle (g : CallGraph) (name : String) : Bool :=
  (g.reachableFrom (g.callees (some name))).contains name

end CallGraph

end FlatScript
