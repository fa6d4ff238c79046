import FlatScript.CallGraph.Order
import FlatScript.CallGraph.Queue

/-!
# Circles of calls

A circle is reported as a list of functions, each of which calls the next one, that starts
and ends with the same function. The function is the first one in lexical order that lies on
any circle, and the circle is a shortest one through the first call that leads back to it.
-/

namespace FlatScript.CallGraph

/-- What is known during the search for a shortest chain: the names still to be looked at, by
distance, and every name that has been met, with the one before it. -/
structure Search where
  /-- The names still to be looked at. -/
  queue : Queue
  /-- The names that have been met, each with the name it was met from. -/
  met : List (String × String)

/-- The chain that leads to a name, in reverse. -/
def chainBack (met : List (String × String)) (start : String) : Nat → String → List String
  | 0, n => [n]
  | fuel + 1, n =>
    if n = start then [n]
    else match met.lookup n with
      | some before => n :: chainBack met start fuel before
      | none => [n]

/-- The search after the functions that `n` calls have been met, at a distance. -/
def meet (n : String) (distance : Nat) (s : Search) (callee : String) : Search :=
  if (s.met.lookup callee).isSome then s
  else ⟨s.queue.push (distance, callee), (callee, n) :: s.met⟩

/-- A shortest chain of calls to `goal`. Calls are followed from the latest one on, and
every step takes one name off the queue. -/
def chainTo (g : CallGraph) (start goal : String) : Nat → Search → Option (List String)
  | 0, _ => none
  | fuel + 1, s => match s.queue.pop? with
    | none => none
    | some ((distance, n), queue) =>
      if n = goal then some (chainBack s.met start (s.met.length + 1) n).reverse
      else
        g.chainTo start goal fuel
          ((g.callees (some n)).reverse.foldl (meet n (distance + 1)) { s with queue })

/-- A shortest chain of calls from one function to another one, both included. -/
def shortestChain (g : CallGraph) (start goal : String) : Option (List String) :=
  g.chainTo start goal (g.functions.length + 1) ⟨({} : Queue).push (0, start), [(start, start)]⟩

/-- **A circle of calls**, if there is one. -/
def findCycle (g : CallGraph) : Option (List String) := do
  let start ← (Name.sorted g.suspects).find? g.onCycle
  let next ← (g.callees (some start)).find? fun n => n == start || g.reaches n start
  if next = start then return [start, start]
  return start :: (← g.shortestChain next start)

end FlatScript.CallGraph
