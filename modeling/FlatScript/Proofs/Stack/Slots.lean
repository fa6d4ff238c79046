import FlatScript.Inlining.Expand
import FlatScript.Taskfunc
import FlatScript.Proofs.Rule
import Mathlib

/-!
# References to the stack

A script that has task functions leaves the variables of the stack to them. What is generated
for a task function refers to the stack in two ways only, as a cell of its own frame or as a
cell below the stack pointer, apart from the few statements that move the pointers. The rules
of this file say so.

* `FlatScript.Stack.reserved` holds of a source that leaves the stack alone.
* `FlatScript.Stack.cells` holds where all that is referred to is the cells of a frame with a
  given number of variables.
* `FlatScript.Stack.slotted` also allows the assignments that pass a value to a cell below the
  stack pointer, or take it from there.
-/

namespace FlatScript.Stack

/-! ### The names of the stack -/

/-- Whether a name without sigil is one of the stack, in any letter case. -/
def isStackName (name : String) : Bool := ["p", "sp", "fp"].contains (Text.lower name)

theorem dot_mem_lowerAfter {cs : List Char} (h : '.' ∈ cs) (before : List Char) :
    '.' ∈ Text.lowerAfter before cs := by
  induction cs generalizing before with
  | nil => cases h
  | cons c cs ih =>
    rw [Text.lowerAfter, List.mem_append]
    rcases List.mem_cons.mp h with rfl | h
    · exact .inl (by simp [Text.lowerIn, Text.lowerChar, Char.toLower])
    · exact .inr (ih h _)

theorem dot_notMem_of_isStackName {name : String} (h : isStackName name = true) :
    '.' ∉ name.toList := by
  intro hdot
  have hlower : '.' ∈ (Text.lower name).toList := by
    rw [Text.lower, String.toList_ofList]
    exact dot_mem_lowerAfter hdot []
  simp only [isStackName, List.contains_eq_mem, decide_eq_true_eq, List.mem_cons,
    List.not_mem_nil, or_false] at h
  rcases h with h | h | h <;> rw [h] at hlower <;> revert hlower <;> decide

/-- A name with a dot in it is none of the stack. -/
theorem isStackName_of_dot {name : String} (h : '.' ∈ name.toList) :
    isStackName name = false := by
  rw [← Bool.not_eq_true]
  exact fun hstack => dot_notMem_of_isStackName hstack h

/-- A name with an underscore in front is none of the stack. -/
theorem isStackName_underscore (rest : List Char) :
    isStackName (String.ofList ('_' :: rest)) = false := by
  have hlower : Text.lower (String.ofList ('_' :: rest)) =
      String.ofList ('_' :: Text.lowerAfter ['_'] rest) := by
    simp [Text.lower, Text.lowerAfter, Text.lowerIn, Text.lowerChar, Char.toLower]
  have hne : ∀ c cs ds, c ≠ '_' → String.ofList ('_' :: ds) ≠ String.ofList (c :: cs) := by
    intro c cs ds hc heq
    have hlist := congrArg String.toList heq
    rw [String.toList_ofList, String.toList_ofList] at hlist
    exact hc (List.cons.inj hlist).1.symm
  simp only [isStackName, hlower, List.contains_eq_mem, decide_eq_false_iff_not, List.mem_cons,
    List.not_mem_nil, or_false, not_or]
  exact ⟨hne 'p' [] _ (by decide), hne 's' ['p'] _ (by decide), hne 'f' ['p'] _ (by decide)⟩

/-- A field of something is none of the names of the stack, unless it is no field. -/
theorem isStackName_append_lastPart {rep name : String}
    (h : isStackName (rep ++ Name.lastPart name) = true) : isStackName rep = true := by
  have hdot := dot_notMem_of_isStackName h
  rw [String.toList_append, List.mem_append, not_or] at hdot
  have hempty : Name.lastPart name = "" := by
    have hrest := hdot.2
    rw [Name.lastPart, String.toList_ofList] at hrest
    cases hcs : name.toList.dropWhile (· ≠ '.') with
    | nil => rw [Name.lastPart, hcs]
    | cons c cs =>
      have hc := List.head?_dropWhile_not (p := (· ≠ '.')) (l := name.toList)
      rw [hcs] at hc hrest
      have hc' : c = '.' := by simpa using hc
      simp [hc'] at hrest
  rw [hempty, String.append_empty] at h
  exact h

/-! ### Rules -/

/-- No parameter of a function is called like the stack, and neither is the result. What counts
is the part of the name in front of a dot, by which the body refers to them. -/
def Reserved (f : FunctionDef) : Prop := ∀ key ∈ Taskfunc.slotNames f, isStackName key = false

/-- **The stack is left alone**: no variable is called like it, and no parameter. -/
def reserved : Rule where
  expr
    | .var i _ _ => isStackName i.name = false
    | _ => True
  stmt
    | .property _ functions => ∀ f ∈ functions, Reserved f
    | .synonym _ indices _ => ∀ i ∈ indices, isStackName (Name.firstPart i.name) = false
    | _ => True
  list _ := True
  skips _ := false
  atom _ _ _ := False

/-- **An index of a cell** of the running frame, which has `k` variables. -/
inductive IsOffset (k : Nat) : BinaryOp → Expr → Expr → Prop
  | mk {j span span'} (hj : 1 ≤ j) (hk : j ≤ k) :
    IsOffset k .add (Frame.fixedVar Frame.framePointer span).toExpr (.int (Int32.ofNat j) span')

/-- The last one of some subscripts is the index of a cell. -/
def EndsInCell (k : Nat) (subscripts : List Expr) : Prop :=
  ∃ init op left right span, subscripts = init ++ [.binary op left right span] ∧
    IsOffset k op left right

/-- **All that is referred to is cells** of a frame with `k` variables. The frame pointer occurs
in the indices of cells only. -/
def cells (k : Nat) : Rule where
  expr
    | .var i subscripts _ => isStackName i.name = true → EndsInCell k subscripts
    | _ => True
  stmt _ := True
  list _ := True
  skips _ := false
  atom := IsOffset k

/-- The `j`-th cell of the free part, counted down from the stack pointer. -/
def freeCell (j : Nat) (span : Span) : VarRef := Frame.slot Frame.stackPointer .sub j span

/-- **A value goes to the free part of the stack, or comes from it.** -/
inductive IsTransfer (k : Nat) : VarRef → Expr → Prop
  | store {j span value} (hj : 1 ≤ j) (hbound : j < 2 ^ 31) (hv : value.Meets (cells k)) :
    IsTransfer k (freeCell j span) value
  | load {j span target} (hj : 1 ≤ j) (hbound : j < 2 ^ 31) (ht : target.Meets (cells k)) :
    IsTransfer k target (freeCell j span).toExpr

/-- **All that is referred to is cells** of a frame with `k` variables, apart from what goes to
the free part of the stack or comes from it. -/
def slotted (k : Nat) : Rule := { cells k with whole := IsTransfer k }

/-! ### The rules among each other -/

theorem IsOffset.mono {k k' : Nat} (hk : k ≤ k') {op : BinaryOp} {left right : Expr}
    (h : IsOffset k op left right) : IsOffset k' op left right := by
  cases h with
  | mk hj hle => exact .mk hj (Nat.le_trans hle hk)

theorem EndsInCell.append {k : Nat} {own : List Expr} (h : EndsInCell k own) (es : List Expr) :
    EndsInCell k (es ++ own) := by
  obtain ⟨init, op, left, right, span, rfl, hoff⟩ := h
  exact ⟨es ++ init, op, left, right, span, by simp, hoff⟩

theorem cells_mono {k k' : Nat} (hk : k ≤ k') : (cells k).Implies (cells k') := by
  refine ⟨?_, fun _ h => h, fun _ h => h, fun _ h => h, fun _ _ _ h => h.mono hk, fun _ _ h => h⟩
  intro e he
  cases e with
  | var i subscripts span =>
    intro hi
    obtain ⟨init, op, left, right, span, hsubs, hoff⟩ := he hi
    exact ⟨init, op, left, right, span, hsubs, hoff.mono hk⟩
  | _ => trivial

/-- Of expressions the two rules ask the same. -/
theorem meets_slotted_iff {k : Nat} {e : Expr} : e.Meets (slotted k) ↔ e.Meets (cells k) := by
  have hto : (slotted k).ImpliesExpr (cells k) := ⟨fun _ h => h, fun _ h => h, fun _ _ _ h => h⟩
  have hof : (cells k).ImpliesExpr (slotted k) := ⟨fun _ h => h, fun _ h => h, fun _ _ _ h => h⟩
  exact ⟨fun h => h.imp hto, fun h => h.imp hof⟩

theorem cells_implies_slotted (k : Nat) : (cells k).Implies (slotted k) :=
  ⟨fun _ h => h, fun _ h => h, fun _ h => h, fun _ h => h, fun _ _ _ h => h, fun _ _ h => h.elim⟩

/-- Where the stack is left alone, no cells are needed. -/
theorem reserved_impliesExpr (k : Nat) : reserved.ImpliesExpr (cells k) := by
  refine ⟨?_, fun _ h => h, fun _ _ _ h => h.elim⟩
  intro e he
  cases e with
  | var i subscripts span =>
    intro hi
    rw [show isStackName i.name = false from he] at hi
    cases hi
  | _ => trivial

/-- In the place of a reference may stand one with more subscripts in front. -/
theorem cells_var {k : Nat} {i i' : Ident} {es own : List Expr} {span span' : Span}
    (hname : isStackName i'.name = true → isStackName i.name = true)
    (h : (cells k).expr (.var i own span)) : (cells k).expr (.var i' (es ++ own) span') :=
  fun hi => (h (hname hi)).append es

/-! ### Cells -/

theorem freeCell_eq {j : Nat} (hj : 1 ≤ j) (span : Span) :
    freeCell j span = ⟨.fixed Frame.stack span,
      [(Frame.fixedVar Frame.stackPointer span).toExpr.op .sub (.int (Int32.ofNat j) span)],
      span⟩ := by
  simp [freeCell, Frame.slot, Nat.ne_of_gt hj]

theorem isStackName_stack : isStackName "p" = true := by decide

/-- A cell of the free part is none of the frame. -/
theorem not_meets_freeCell {k j : Nat} (hj : 1 ≤ j) (span : Span) :
    ¬ (freeCell j span).Meets (cells k) := by
  rw [freeCell_eq hj]
  intro h
  obtain ⟨init, op, left, right, s, heq, hoff⟩ := h.1 isStackName_stack
  have hlast := congrArg List.getLast? heq
  simp only [List.getLast?_singleton, List.getLast?_append, Option.some_or, Expr.op,
    Option.some.injEq, Expr.binary.injEq] at hlast
  obtain ⟨rfl, -⟩ := hlast
  cases hoff

/-- Cells of the frame are referred to by cells of the frame. -/
theorem meets_slot {k j : Nat} (hj : 1 ≤ j) (hk : j ≤ k) (span : Span) :
    (Frame.slot Frame.framePointer .add j span).Meets (cells k) := by
  have heq : Frame.slot Frame.framePointer .add j span = ⟨.fixed Frame.stack span,
      [(Frame.fixedVar Frame.framePointer span).toExpr.op .add (.int (Int32.ofNat j) span)],
      span⟩ := by
    simp [Frame.slot, Nat.ne_of_gt hj]
  rw [heq]
  exact ⟨fun _ => ⟨[], _, _, _, _, rfl, .mk hj hk⟩, .inl (.mk hj hk), trivial⟩

end FlatScript.Stack
