/-!
# A queue by distance

A binary heap of names, each with its distance; the nearest comes out first. Among names at
the same distance the order is that of the heap, in which a name moves up past strictly
farther ones only, and a gap is filled from the right child when both are equally near.
-/

namespace FlatScript.CallGraph

/-- **A queue**: a heap in an array, the children of place `i` at `2 * i + 1` and
`2 * i + 2`. -/
structure Queue where
  /-- The distances and names. -/
  items : Array (Nat × String) := #[]
deriving DecidableEq, Repr, Inhabited

namespace Queue

/-- The distance at a place. -/
def distance (items : Array (Nat × String)) (i : Nat) : Nat := (items.getD i (0, "")).1

/-- The heap with the item at place `i` moved up as long as its parent is strictly
farther. -/
def siftUp : Nat → Array (Nat × String) → Nat → Array (Nat × String)
  | 0, items, _ => items
  | fuel + 1, items, i =>
    let parent := (i - 1) / 2
    if i = 0 ∨ distance items parent ≤ distance items i then items
    else siftUp fuel (items.swapIfInBounds i parent) parent

/-- The heap with the item at place `i` moved down to the bottom, along the nearer children,
and the place it has reached. -/
def siftDown : Nat → Array (Nat × String) → Nat → Array (Nat × String) × Nat
  | 0, items, i => (items, i)
  | fuel + 1, items, i =>
    let left := 2 * i + 1
    let right := 2 * i + 2
    if right < items.size then
      let child := if distance items right ≤ distance items left then right else left
      siftDown fuel (items.swapIfInBounds i child) child
    else if left < items.size then (items.swapIfInBounds i left, left)
    else (items, i)

/-- The queue with an item more. -/
def push (q : Queue) (item : Nat × String) : Queue :=
  ⟨siftUp (q.items.size + 1) (q.items.push item) q.items.size⟩

/-- The nearest item, and the queue without it. -/
def pop? (q : Queue) : Option ((Nat × String) × Queue) :=
  match q.items.back? with
  | none => none
  | some last =>
    let rest := q.items.pop
    match rest[0]? with
    | none => some (last, ⟨rest⟩)
    | some first =>
      let (items, i) := siftDown rest.size (rest.setIfInBounds 0 last) 0
      some (first, ⟨siftUp (i + 1) items i⟩)

end Queue

end FlatScript.CallGraph
