import FlatScript.Parser.Script
import FlatScript.Proofs.Characters
import FlatScript.Proofs.Lowering.Declared
import FlatScript.Proofs.Mentions
import FlatScript.Proofs.Passes
import FlatScript.Proofs.Stack.Discipline
import Mathlib.Data.List.DropRight
import Mathlib.Data.List.Induction
import Mathlib.Data.List.Nodup

/-!
# What the references of a task function denote

A task function gets its frame when the functions it calls have been copied into it. In the
place of each reference to a parameter then stands a cell of the frame. References are told by
their names, so this is right only as long as no function that is copied refers to something
else by the name of a parameter.

* `FlatScript.Referent` is what a reference denotes, a variable or a cell of the running frame,
  and `FlatScript.stmtsReferents` reads it off statements.
* `FlatScript.WrittenIn` holds of the references of a body, and of those that stand in the place of
  the parameters of a copied function, which got them from there as arguments.
* `FlatScript.frames_hygienic` says that the cells are those of the references that are written
  in the function and name a parameter, and that all others denote what they did.
-/

namespace FlatScript

open Stack (Reserved isStackName parameterCell slots_eq)

/-! ### Names -/

theorem takeWhile_append_dropWhile_eq {α : Type} (q : α → Bool) (as bs : List α) :
    (as ++ bs.dropWhile q).takeWhile q = as.takeWhile q := by
  induction as with
  | nil =>
    induction bs with
    | nil => rfl
    | cons b bs ih => cases hb : q b <;> simp_all
  | cons a as ih => cases ha : q a <;> simp_all

/-- A field of something has the first part of its name. -/
theorem Name.firstPart_append_lastPart (a b : String) :
    firstPart (a ++ lastPart b) = firstPart a := by
  unfold firstPart lastPart
  rw [String.toList_append, String.toList_ofList, takeWhile_append_dropWhile_eq]

theorem Name.lastPart_append_lastPart {a : String} (ha : '.' ∉ a.toList) (b : String) :
    lastPart (a ++ lastPart b) = lastPart b := by
  unfold lastPart
  rw [String.toList_append, String.toList_ofList, List.dropWhile_append_of_pos,
    List.dropWhile_idempotent]
  intro c hc
  simpa using fun heq : c = '.' => ha (heq ▸ hc)

/-! ### Referents -/

/-- **What a reference denotes.** -/
inductive Referent where
  /-- The variable with its name. -/
  | variable (i : Ident)
  /-- The cell at an offset in the running frame, or a field of it. -/
  | cell (offset : Int) (field : String)

/-- The offset from the frame pointer, if an expression is one. -/
def Expr.offset? : Expr → Option Int
  | .binary .add (.var i [] _) (.int v _) _ =>
    if i.sigil = some .integer ∧ i.name = "fp" then some v.toInt else none
  | _ => none

/-- The cell that a reference with some subscripts denotes, if it denotes one. -/
def cell? (i : Ident) (subscripts : List Expr) : Option Referent :=
  if i.sigil = some .integerArray ∧ Name.firstPart i.name = "p" then
    (subscripts.getLast?.bind Expr.offset?).map (.cell · (Name.lastPart i.name))
  else none

mutual

/-- What the references of an expression denote. The frame pointer in the index of a cell is no
reference of its own. -/
def Expr.referents : Expr → List Referent
  | .binary _ left right _ => left.referents ++ right.referents
  | .unary _ operand _ => operand.referents
  | .var i subscripts _ =>
    match cell? i subscripts with
    | some c => c :: (exprsReferents subscripts).dropLast
    | none => .variable i :: exprsReferents subscripts
  | .call _ args _ _ _ => exprsReferents args
  | .int _ _ | .real _ _ | .str _ _ | .bool _ _ | .raw _ _ => []

/-- What the references of expressions denote. -/
def exprsReferents : List Expr → List Referent
  | [] => []
  | e :: es => e.referents ++ exprsReferents es

end

/-- **What the references of statements denote**, in the order in which they are written. -/
def stmtsReferents (ss : List Stmt) : List Referent := (stmtsLeaves ss).flatMap Expr.referents

theorem exprsReferents_append (es es' : List Expr) :
    exprsReferents (es ++ es') = exprsReferents es ++ exprsReferents es' := by
  induction es with
  | nil => rfl
  | cons e es ih => simp [exprsReferents, ih]

mutual

theorem Expr.mem_mentions : ∀ (e : Expr) {i : Ident},
    .variable i ∈ e.referents → i ∈ e.mentions
  | .binary _ left right _, _, h => by
    rcases List.mem_append.mp h with h | h
    · exact List.mem_append_left _ (left.mem_mentions h)
    · exact List.mem_append_right _ (right.mem_mentions h)
  | .unary _ operand _, _, h => operand.mem_mentions h
  | .var j subscripts span, i, h => by
    simp only [Expr.referents] at h
    have hsubscripts : .variable i ∈ exprsReferents subscripts →
        i ∈ (Expr.var j subscripts span).mentions :=
      fun h => List.mem_cons_of_mem _ (mem_exprsMentions subscripts h)
    split at h
    · next c hc =>
      rcases List.mem_cons.mp h with rfl | h
      · simp only [cell?] at hc
        split at hc
        · obtain ⟨offset, -, hc⟩ := Option.map_eq_some_iff.mp hc
          cases hc
        · cases hc
      · exact hsubscripts (List.dropLast_subset _ h)
    · rcases List.mem_cons.mp h with h | h
      · cases h
        exact List.mem_cons_self
      · exact hsubscripts h
  | .call _ args _ _ _, _, h => mem_exprsMentions args h
  | .int _ _, _, h | .real _ _, _, h | .str _ _, _, h | .bool _ _, _, h | .raw _ _, _, h => nomatch h

theorem mem_exprsMentions : ∀ (es : List Expr) {i : Ident},
    .variable i ∈ exprsReferents es → i ∈ exprsMentions es
  | [], _, h => nomatch h
  | e :: es, _, h => by
    rcases List.mem_append.mp h with h | h
    · exact List.mem_append_left _ (e.mem_mentions h)
    · exact List.mem_append_right _ (mem_exprsMentions es h)

end

/-! ### Leaves of statements with arguments in the place of parameters -/

namespace Substitution

variable {env : Env} {s : Substitution} {trace : List Span}

/-- Targets and calls change like the expressions they would be. -/
theorem expr_of_step {x x' : Expr} (h : (leafMap env s).Step x x') :
    ∃ trace, expr env s trace x = .ok x' := by
  cases h with
  | @expr scope _ _ h => exact ⟨scope.trace, h⟩
  | @target scope _ _ h => exact ⟨scope.trace, expr_of_target h⟩
  | @call scope _ _ h => exact ⟨scope.trace, expr_of_call h⟩

section Mention

variable {P Q : Ident → Prop}

/-- **A substitution leaves mentions of one kind**: those it does not replace are, and so is what
it puts in their place. -/
structure Leaves (s : Substitution) (Q P : Ident → Prop) : Prop where
  kept : ∀ i, Q i → s.find? i.name = none → P i
  values : ∀ b ∈ s, b.2.Meets (mention P)
  fields : ∀ i j, Q j → (s.find? j.name).isSome = true → P i → P (mergeIdent j i)

/-- Then it carries over the rule on what is mentioned. -/
theorem Leaves.carries (hs : s.Leaves Q P) (env : Env) :
    Carries env s (mention Q) (mention P) where
  value _ hfind := hs.values _ (mem_of_find? hfind)
  atom h := h.elim
  binary _ := trivial
  unary _ := trivial
  literal {x} hlit _ := by
    cases x with
    | binary _ _ _ _ | unary _ _ _ | var _ _ _ | call _ _ _ _ _ => cases hlit
    | _ => trivial
  var h hfind _ := hs.kept _ h hfind
  merged h hfind := hs.fields _ _ h (by rw [hfind]; rfl) (hs.values _ (mem_of_find? hfind)).1
  call _ _ _ := ⟨trivial, id⟩

theorem Leaves.meets_stmts (hs : s.Leaves Q P) {body body' : List Stmt}
    (hbody : stmtsMeet (mention Q) body) (h : s.stmts env body = .ok body') :
    stmtsMeet (mention P) body' := by
  rw [stmtsMeet_mention_iff] at hbody ⊢
  intro x' hx'
  obtain ⟨x, hx, hstep⟩ := exists_mem_of_forall₂ (LeafMap.leaves_step body h) hx'
  obtain ⟨trace, hexpr⟩ := expr_of_step hstep
  exact (hs.carries env).ofExpr x (hbody x hx) hexpr

end Mention

end Substitution

/-! ### Cells in the place of parameters -/

/-- The last place where a name stands in a list of names. -/
def IsLast (names : List String) (name : String) (k : Nat) : Prop :=
  names[k]? = some name ∧ ∀ j, k < j → names[j]? ≠ some name

/-- **What becomes of a referent** of a task function, and of which references it may be a cell. -/
inductive Framed (e : FunctionEntry) (own : Ident → Prop) : Referent → Referent → Prop
  /-- A reference that names a parameter, or the result, becomes the cell of it. -/
  | slot {i : Ident} {k : Nat} (hown : own i)
    (hk : IsLast (Taskfunc.slotNames e.fn) (Name.firstPart i.name) k) :
    Framed e own (.variable i) (.cell (Taskfunc.firstSlot e + k : Nat) (Name.lastPart i.name))
  /-- Any other reference still denotes its variable. -/
  | kept {i : Ident} (h : Name.firstPart i.name ∉ Taskfunc.slotNames e.fn) :
    Framed e own (.variable i) (.variable i)
  /-- A cell stays a cell. -/
  | cell {offset : Int} {field : String} : Framed e own (.cell offset field) (.cell offset field)

/-- What is put in the place of a name is decided by the last place where it stands. -/
theorem lookup_reverse_mapIdx {β : Type} (g : Nat → β) (key : String) (names : List String) :
    (∃ k, IsLast names key k ∧
        (names.mapIdx fun i name => (name, g i)).reverse.lookup key = some (g k)) ∨
      key ∉ names ∧ (names.mapIdx fun i name => (name, g i)).reverse.lookup key = none := by
  induction names using List.reverseRecOn with
  | nil => exact .inr ⟨by simp, rfl⟩
  | append_singleton names name ih =>
    simp only [List.mapIdx_append, List.mapIdx_cons, List.mapIdx_nil, List.reverse_append,
      List.reverse_cons, List.reverse_nil, List.nil_append, List.singleton_append,
      List.lookup_cons, Nat.zero_add]
    by_cases hname : key = name
    · refine .inl ⟨names.length, ⟨by simp [hname], fun j hj => ?_⟩, by simp [hname]⟩
      rw [List.getElem?_eq_none (by simpa using Nat.succ_le_of_lt hj)]
      exact nofun
    · have hbeq : (key == name) = false := by simpa using hname
      simp only [hbeq]
      rcases ih with ⟨k, ⟨hk, hlast⟩, hlookup⟩ | ⟨hnot, hlookup⟩
      · have hlt : k < names.length := (List.getElem?_eq_some_iff.mp hk).1
        refine .inl ⟨k, ⟨by rw [List.getElem?_append_left hlt, hk], fun j hj => ?_⟩, hlookup⟩
        rcases Nat.lt_or_ge j names.length with hj' | hj'
        · rw [List.getElem?_append_left hj']
          exact hlast j hj
        · rw [List.getElem?_append_right hj']
          intro heq
          have hmem := List.mem_of_getElem? heq
          exact hname (List.mem_singleton.mp hmem)
      · refine .inr ⟨?_, hlookup⟩
        rw [List.mem_append, List.mem_singleton, not_or]
        exact ⟨hnot, hname⟩

section Slots

variable {env : Env} {e : FunctionEntry} {trace : List Span}

/-- The index of the cell of the `k`-th parameter. -/
def parameterIndex (e : FunctionEntry) (k : Nat) : Expr :=
  (Frame.fixedVar Frame.framePointer e.fn.span).toExpr.op .add
    (.int (Int32.ofNat (Taskfunc.firstSlot e + k)) e.fn.span)

theorem parameterCell_eq (e : FunctionEntry) (k : Nat) :
    parameterCell e k =
      .var (.fixed Frame.stack e.fn.span) [parameterIndex e k] e.fn.span := by
  have hne : Taskfunc.firstSlot e + k ≠ 0 := by
    unfold Taskfunc.firstSlot
    omega
  simp only [parameterCell, parameterIndex, Frame.slot, VarRef.toExpr, if_neg hne]

theorem offset?_parameterIndex {k : Nat} (h : Taskfunc.firstSlot e + k < 2 ^ 31) :
    (parameterIndex e k).offset? = some ((Taskfunc.firstSlot e + k : Nat) : Int) := by
  rw [← Int32.toInt_ofNat_of_lt h]
  rfl

/-- **What stands in the place of a name**: the cell of a parameter, or the name itself. -/
theorem find?_slots (e : FunctionEntry) (name : String) :
    (∃ k, IsLast (Taskfunc.slotNames e.fn) (Name.firstPart name) k ∧
        (Taskfunc.slots e).find? name = some (parameterCell e k)) ∨
      Name.firstPart name ∉ Taskfunc.slotNames e.fn ∧ (Taskfunc.slots e).find? name = none := by
  unfold Substitution.find?
  rw [slots_eq]
  exact lookup_reverse_mapIdx _ _ _

theorem find?_slots_of_notMem {name : String}
    (h : Name.firstPart name ∉ Taskfunc.slotNames e.fn) : (Taskfunc.slots e).find? name = none := by
  rcases find?_slots e name with ⟨k, ⟨hk, -⟩, -⟩ | ⟨-, hnone⟩
  · exact absurd (List.mem_of_getElem? hk) h
  · exact hnone

/-- **What becomes of an expression when cells are put in the place of parameters.** -/
inductive Placed (env : Env) (e : FunctionEntry) (trace : List Span) : Expr → Expr → Prop
  | binary {op : BinaryOp} {left right left' right' : Expr} {span : Span}
    (hleft : Substitution.expr env (Taskfunc.slots e) trace left = .ok left')
    (hright : Substitution.expr env (Taskfunc.slots e) trace right = .ok right') :
    Placed env e trace (.binary op left right span) (.binary op left' right' span)
  | unary {op : UnaryOp} {operand operand' : Expr} {span : Span}
    (h : Substitution.expr env (Taskfunc.slots e) trace operand = .ok operand') :
    Placed env e trace (.unary op operand span) (.unary op operand' span)
  | slot {i : Ident} {es es' : List Expr} {span : Span} {k : Nat}
    (hk : IsLast (Taskfunc.slotNames e.fn) (Name.firstPart i.name) k)
    (hes : Substitution.exprs env (Taskfunc.slots e) trace es = .ok es') :
    Placed env e trace (.var i es span)
      (.var (Substitution.mergeIdent i (.fixed Frame.stack e.fn.span))
        (es' ++ [parameterIndex e k]) span)
  | var {i : Ident} {es es' : List Expr} {span : Span}
    (hnot : Name.firstPart i.name ∉ Taskfunc.slotNames e.fn)
    (hes : Substitution.exprs env (Taskfunc.slots e) trace es = .ok es') :
    Placed env e trace (.var i es span) (.var i es' span)
  | call {name name' : Ident} {args args' : List Expr} {isProcedure usingCall : Bool} {span : Span}
    (hargs : Substitution.exprs env (Taskfunc.slots e) trace args = .ok args') :
    Placed env e trace (.call name args isProcedure usingCall span)
      (.call name' args' isProcedure usingCall span)
  | literal {x : Expr} (h : x.isLiteral = true) : Placed env e trace x x

theorem placed_of_expr {x x' : Expr}
    (h : Substitution.expr env (Taskfunc.slots e) trace x = .ok x') : Placed env e trace x x' := by
  cases x with
  | binary op left right span =>
    obtain ⟨left', hleft, h⟩ := Except.bind_eq_ok.mp h
    obtain ⟨right', hright, h⟩ := Except.bind_eq_ok.mp h
    cases h
    exact .binary hleft hright
  | unary op operand span =>
    obtain ⟨operand', hoperand, h⟩ := Except.bind_eq_ok.mp h
    cases h
    exact .unary hoperand
  | var i es span =>
    simp only [Substitution.expr] at h
    rcases find?_slots e i.name with ⟨k, hk, hfind⟩ | ⟨hnot, hfind⟩
    · rw [hfind, parameterCell_eq] at h
      obtain ⟨es', hes', h⟩ := Except.bind_eq_ok.mp h
      cases h
      exact .slot hk hes'
    · rw [hfind] at h
      obtain ⟨es', hes', h⟩ := Except.bind_eq_ok.mp h
      cases h
      exact .var hnot hes'
  | call name args isProcedure usingCall span =>
    obtain ⟨name', -, h⟩ := Except.bind_eq_ok.mp h
    obtain ⟨args', hargs, h⟩ := Except.bind_eq_ok.mp h
    cases h
    exact .call hargs
  | _ =>
    cases h
    exact .literal rfl

theorem Expr.offset?_eq_some {x : Expr} {n : Int} : x.offset? = some n ↔
    ∃ i v s₁ s₂ s₃, x = .binary .add (.var i [] s₁) (.int v s₂) s₃ ∧ i.sigil = some .integer ∧
      i.name = "fp" ∧ v.toInt = n := by
  constructor
  · intro h
    unfold offset? at h
    split at h
    · next i s₁ v s₂ s₃ =>
      split at h
      · next hi =>
        cases h
        exact ⟨i, v, s₁, s₂, s₃, rfl, hi.1, hi.2, rfl⟩
      · cases h
    · cases h
  · rintro ⟨i, v, s₁, s₂, s₃, rfl, hsigil, hname, rfl⟩
    simp [offset?, hsigil, hname]

/-- A variable without subscripts is no cell, so it was there before. -/
theorem Placed.eq_plain {x : Expr} {i : Ident} {span : Span}
    (h : Placed env e trace x (.var i [] span)) : x = .var i [] span := by
  generalize hx' : Expr.var i [] span = x' at h
  cases h with
  | slot => simp at hx'
  | @var j es es' _ hnot hes =>
    cases hx'
    cases es with
    | nil => rfl
    | cons y es =>
      obtain ⟨y', rest, -, -, hnil⟩ := Substitution.exprs_eq_cons hes
      cases hnil
  | literal => rfl
  | _ => cases hx'

/-- **The index of a cell stays the index of this cell**, and no other expression becomes one. -/
theorem offset?_of_expr (hfp : "fp" ∉ Taskfunc.slotNames e.fn) {x x' : Expr}
    (h : Substitution.expr env (Taskfunc.slots e) trace x = .ok x') : x'.offset? = x.offset? := by
  refine Option.ext fun n => ?_
  rw [Expr.offset?_eq_some, Expr.offset?_eq_some]
  constructor
  · rintro ⟨i, v, s₁, s₂, s₃, rfl, hi⟩
    rcases placed_of_expr h with ⟨hleft, hright⟩ | _ | _ | _ | _ | ⟨⟨⟩⟩
    have hpointer := (placed_of_expr hleft).eq_plain
    cases placed_of_expr hright with
    | literal => exact ⟨i, v, s₁, s₂, s₃, by rw [hpointer], hi⟩
  · rintro ⟨i, v, s₁, s₂, s₃, rfl, hsigil, hname, hv⟩
    have hfind : (Taskfunc.slots e).find? i.name = none :=
      find?_slots_of_notMem (hname ▸ hfp)
    simp only [Substitution.expr, Substitution.exprs, hfind] at h
    cases h
    exact ⟨i, v, s₁, s₂, s₃, rfl, hsigil, hname, hv⟩

theorem getLast?_of_exprs (hfp : "fp" ∉ Taskfunc.slotNames e.fn) {es es' : List Expr}
    (h : Substitution.exprs env (Taskfunc.slots e) trace es = .ok es') :
    es'.getLast?.bind Expr.offset? = es.getLast?.bind Expr.offset? := by
  induction es generalizing es' with
  | nil =>
    cases h
    rfl
  | cons x es ih =>
    obtain ⟨x', rest, hx, hrest, rfl⟩ := Substitution.exprs_eq_cons h
    cases es with
    | nil =>
      cases hrest
      exact offset?_of_expr hfp hx
    | cons y es =>
      have hlast := ih hrest
      obtain ⟨y', rest', -, -, rfl⟩ := Substitution.exprs_eq_cons hrest
      rw [List.getLast?_cons_cons, List.getLast?_cons_cons]
      exact hlast

theorem notMem_slotNames (hreserved : Reserved e.fn) {name : String}
    (h : isStackName name = true) : name ∉ Taskfunc.slotNames e.fn := by
  intro hmem
  rw [hreserved name hmem] at h
  cases h

/-- A cell of the frame denotes itself. -/
theorem cell?_slot {k : Nat} (hbound : Taskfunc.firstSlot e + k < 2 ^ 31) (i : Ident)
    (es : List Expr) :
    cell? (Substitution.mergeIdent i (.fixed Frame.stack e.fn.span)) (es ++ [parameterIndex e k]) =
      some (.cell (Taskfunc.firstSlot e + k : Nat) (Name.lastPart i.name)) := by
  have hname : (Substitution.mergeIdent i (.fixed Frame.stack e.fn.span)).name =
      "p" ++ Name.lastPart i.name := rfl
  have hfirst : Name.firstPart ("p" ++ Name.lastPart i.name) = "p" := by
    rw [Name.firstPart_append_lastPart]
    decide
  rw [cell?, if_pos ⟨rfl, hname ▸ hfirst⟩, hname, Name.lastPart_append_lastPart (by decide),
    List.getLast?_concat, Option.bind_some, offset?_parameterIndex hbound]
  rfl

theorem eq_cell_of_cell? {i : Ident} {es : List Expr} {c : Referent} (h : cell? i es = some c) :
    ∃ offset field, c = .cell offset field := by
  unfold cell? at h
  split at h
  · obtain ⟨offset, -, rfl⟩ := Option.map_eq_some_iff.mp h
    exact ⟨offset, _, rfl⟩
  · cases h

theorem referents_parameterIndex (e : FunctionEntry) (k : Nat) :
    exprsReferents [parameterIndex e k] =
      [.variable (.fixed Frame.framePointer e.fn.span)] := by
  have hcell : cell? (.fixed Frame.framePointer e.fn.span) [] = none := if_neg nofun
  simp [exprsReferents, parameterIndex, Expr.op, Expr.referents, Frame.fixedVar, VarRef.plain,
    VarRef.toExpr, hcell]

mutual

/-- **The references of an expression with its cells.** -/
theorem framed_of_expr (hreserved : Reserved e.fn) (hbound : Taskfunc.frameSize e < 2 ^ 31) :
    ∀ (x : Expr) {x' : Expr},
    Substitution.expr env (Taskfunc.slots e) trace x = .ok x' →
      List.Forall₂ (Framed e fun _ => True) x.referents x'.referents
  | .binary op left right span, _, h => by
    cases placed_of_expr h with
    | binary hleft hright =>
      exact List.rel_append (framed_of_expr hreserved hbound left hleft)
        (framed_of_expr hreserved hbound right hright)
    | literal hlit => cases hlit
  | .unary op operand span, _, h => by
    cases placed_of_expr h with
    | unary hoperand =>
      have hrest := framed_of_expr hreserved hbound operand hoperand
      exact hrest
    | literal hlit => cases hlit
  | .var i es span, _, h => by
    cases placed_of_expr h with
    | @slot _ _ es' _ k hk hes =>
      have hplain : cell? i es = none := by
        refine if_neg fun hstack => ?_
        have hreservedName : isStackName (Name.firstPart i.name) = true := by
          rw [hstack.2]
          decide
        exact notMem_slotNames hreserved hreservedName (List.mem_of_getElem? hk.1)
      have hoffset : Taskfunc.firstSlot e + k < 2 ^ 31 := by
        have hk' := (List.getElem?_eq_some_iff.mp hk.1).1
        unfold Taskfunc.frameSize at hbound
        unfold Taskfunc.firstSlot
        omega
      simp only [Expr.referents, hplain, cell?_slot hoffset, exprsReferents_append,
        referents_parameterIndex, List.dropLast_concat]
      exact .cons (.slot trivial hk) (framed_of_exprs hreserved hbound es hes)
    | @var _ _ es' _ hnot hes =>
      have hsame : cell? i es' = cell? i es := by
        unfold cell?
        rw [getLast?_of_exprs (notMem_slotNames hreserved (by decide)) hes]
      have hrest := framed_of_exprs hreserved hbound es hes
      simp only [Expr.referents, hsame]
      split
      · next c hc =>
        obtain ⟨offset, field, rfl⟩ := eq_cell_of_cell? hc
        rw [List.dropLast_eq_take, List.dropLast_eq_take, ← hrest.length_eq]
        exact .cons .cell (List.forall₂_take _ hrest)
      · exact .cons (.kept hnot) hrest
    | literal hlit => cases hlit
  | .call name args isProcedure usingCall span, _, h => by
    cases placed_of_expr h with
    | call hargs => exact framed_of_exprs hreserved hbound args hargs
    | literal hlit => cases hlit
  | .int _ _, _, h | .real _ _, _, h | .str _ _, _, h | .bool _ _, _, h | .raw _ _, _, h => by
    cases h
    exact .nil

theorem framed_of_exprs (hreserved : Reserved e.fn) (hbound : Taskfunc.frameSize e < 2 ^ 31) :
    ∀ (es : List Expr) {es' : List Expr},
    Substitution.exprs env (Taskfunc.slots e) trace es = .ok es' →
      List.Forall₂ (Framed e fun _ => True) (exprsReferents es) (exprsReferents es')
  | [], _, h => by
    cases h
    exact .nil
  | x :: es, _, h => by
    obtain ⟨x', rest, hx, hrest, rfl⟩ := Substitution.exprs_eq_cons h
    exact List.rel_append (framed_of_expr hreserved hbound x hx)
      (framed_of_exprs hreserved hbound es hrest)

end

/-- **The references of a body with its cells**, told by their names alone. -/
theorem framed_of_stmts (hreserved : Reserved e.fn) (hbound : Taskfunc.frameSize e < 2 ^ 31)
    {body body' : List Stmt}
    (h : (Taskfunc.slots e).stmts env body = .ok body') :
    List.Forall₂ (Framed e fun _ => True) (stmtsReferents body) (stmtsReferents body') := by
  refine List.rel_flatMap (LeafMap.leaves_step body h) fun x x' hx => ?_
  obtain ⟨trace, hexpr⟩ := Substitution.expr_of_step hx
  exact framed_of_expr hreserved hbound x hexpr

end Slots

/-! ### Where references come from -/

/-- **The references that are written in a body**, and those that a function which is copied into
it got as arguments from there: in the place of a reference `j` that is written in this function
and names one of its own parameters, or its result, stands the argument, or a field of it. -/
inductive WrittenIn (p : Program) (body : List Stmt) : Ident → Prop
  | here {i : Ident} (h : i ∈ stmtsMentions body) : WrittenIn p body i
  | passed {i j : Ident} {g : FunctionEntry} (hg : g ∈ p.functions)
    (hcopied : g.fn.isTaskfunc = false) (hj : j ∈ stmtsMentions g.fn.body)
    (hslot : Name.firstPart j.name ∈ Taskfunc.slotNames g.fn) (h : WrittenIn p body i) :
    WrittenIn p body (Substitution.mergeIdent j i)

/-- **The names of a task function are its own**: it does not name a parameter like the stack,
and the functions that may be copied refer to nothing but their own parameters by such a name. -/
structure Apart (p : Program) (t : FunctionEntry) : Prop where
  stack : Reserved t.fn
  others : ∀ g ∈ p.functions, g.fn.isTaskfunc = false → ∀ i ∈ stmtsMentions g.fn.body,
    Name.firstPart i.name ∈ Taskfunc.slotNames t.fn →
      ∃ param ∈ g.fn.params, Name.firstPart param.name.name = Name.firstPart i.name

instance (p : Program) (t : FunctionEntry) : Decidable (Apart p t) :=
  decidable_of_iff ((∀ key ∈ Taskfunc.slotNames t.fn, isStackName key = false) ∧
      ∀ g ∈ p.functions, g.fn.isTaskfunc = false → ∀ i ∈ stmtsMentions g.fn.body,
        Name.firstPart i.name ∈ Taskfunc.slotNames t.fn →
          ∃ param ∈ g.fn.params, Name.firstPart param.name.name = Name.firstPart i.name)
    ⟨fun h => ⟨h.1, h.2⟩, fun h => ⟨h.1, h.2⟩⟩

/-- What is asked of the references in a block while functions are copied into it. -/
def Owned (p : Program) (t : FunctionEntry) (top : Inlining.Top) (i : Ident) : Prop :=
  top = .function t.name → Name.firstPart i.name ∈ Taskfunc.slotNames t.fn →
    WrittenIn p t.fn.body i

theorem Owned.passed {p : Program} {t g : FunctionEntry} {top : Inlining.Top} {i j : Ident}
    (h : Owned p t top i) (hg : g ∈ p.functions) (hcopied : g.fn.isTaskfunc = false)
    (hj : j ∈ stmtsMentions g.fn.body)
    (hslot : Name.firstPart j.name ∈ Taskfunc.slotNames g.fn) :
    Owned p t top (Substitution.mergeIdent j i) := by
  intro htop hname
  refine .passed hg hcopied hj hslot (h htop ?_)
  rw [← Name.firstPart_append_lastPart i.name j.name]
  exact hname

theorem owned_of_isStackName {p : Program} {t : FunctionEntry} (hreserved : Reserved t.fn)
    (top : Inlining.Top) {i : Ident} (h : isStackName (Name.firstPart i.name) = true) :
    Owned p t top i :=
  fun _ hname => absurd hname (notMem_slotNames hreserved h)

/-- What passes values on the stack refers to the stack only. -/
theorem owned_argumentSlot {p : Program} {t : FunctionEntry} (hreserved : Reserved t.fn)
    (top : Inlining.Top) (count i : Nat) (span : Span) :
    (Inlining.argumentSlot count i span).Meets (mention (Owned p t top)) := by
  have hstack : Owned p t top (.fixed Frame.stack span) :=
    owned_of_isStackName hreserved top (show isStackName (Name.firstPart "p") = true by decide)
  have hpointer : Owned p t top (.fixed Frame.stackPointer span) :=
    owned_of_isStackName hreserved top (show isStackName (Name.firstPart "sp") = true by decide)
  unfold Inlining.argumentSlot Frame.slot
  dsimp only
  split
  · exact ⟨hstack, ⟨hpointer, trivial⟩, trivial⟩
  · exact ⟨hstack, .inr ⟨trivial, ⟨hpointer, trivial⟩, trivial⟩, trivial⟩

/-- **Copying keeps the names of a task function its own.** -/
def ownership (env : Env) {p₀ : Program} {t : FunctionEntry} (hapart : Apart p₀ t) :
    Inlining.Scheme env p₀ where
  src top := mention (Owned p₀ t top)
  dst _ top := mention (Owned p₀ t top)
  site _ _ _ _ := True
  here _ _ := True
  ready at' body _ := stmtsMeet (mention (Owned p₀ t at'.top)) body
  mono _ := .refl _
  skips := rfl
  back h := h
  raw _ h := .inr h
  atom h := h.elim
  binary _ := trivial
  unary _ := trivial
  var _ h _ := h
  literal _ h := h
  builtin _ _ _ _ _ := trivial
  builtinStmt _ _ _ _ _ := ⟨trivial, fun _ _ => trivial⟩
  siteOfCall _ := trivial
  siteOfStmt _ := trivial
  siteOfName _ _ := trivial
  siteOfGetter _ _ _ := trivial
  siteOfSetter _ _ _ := trivial
  nil := trivial
  append _ _ := trivial
  assign _ _ := ⟨trivial, fun _ _ => trivial⟩
  reshape _ _ := ⟨trivial, fun _ _ => trivial⟩
  kept _ _ _ _ _ _ _ := ⟨trivial, fun _ _ => trivial⟩
  noWhole h := h
  stored _ _ hv _ := .inr ⟨trivial, owned_argumentSlot hapart.stack .., hv⟩
  loaded _ _ ht _ := .inr ⟨trivial, ht, owned_argumentSlot hapart.stack ..⟩
  single h := by
    obtain ⟨-, h | ⟨-, -, hv⟩, -⟩ := h
    · exact h.elim
    · exact hv
  taskfunc _ _ _ _ _ _ _ _ _ _ := ⟨trivial, trivial⟩
  readyNil _ _ _ _ := trivial
  readyDecls {_ top _ _ _ _} _ _ _ _ _ hinit := by
    refine (stmtsMeet_mention _).mpr fun i _ (htop : top = _) => ?_
    rw [htop] at hinit
    cases hinit
  readyBody {_ top _ _ _ e s _ _} hp _ he htask _ hs hparams h := by
    obtain ⟨e₀, he₀, hgrows⟩ := hp.exists_before he
    rw [hgrows.fn] at htask hparams h
    have hg := (Program.mem_functions_of_function? he₀).1
    have hleaves : s.Leaves (fun i => i ∈ stmtsMentions e₀.fn.body) (Owned p₀ t top) := by
      refine ⟨fun i hi hnone _ hname => ?_, fun b hb => (hs b hb).2, fun i j hj hsome hi => ?_⟩
      · -- The reference is to a parameter, and so it does not stay.
        obtain ⟨param, hparam, hsame⟩ := hapart.others e₀ hg htask i hi hname
        have hsome := hparams param hparam
        unfold Substitution.find? at hsome hnone
        rw [hsame, hnone] at hsome
        cases hsome
      · obtain ⟨value, hvalue⟩ := Option.isSome_iff_exists.mp hsome
        have hslot := (hs _ (Substitution.mem_of_find? hvalue)).1
        rw [hgrows.fn] at hslot
        exact hi.passed hg htask hj hslot
    refine hleaves.meets_stmts (stmtsMeet_copiedTo (mention_shallow _) _ ?_) h
    exact (stmtsMeet_mention _).mpr fun i hi => hi

theorem ownership_closed (env : Env) {p₀ : Program} {t : FunctionEntry} (hapart : Apart p₀ t) :
    (ownership env hapart).Closed :=
  fun _ _ _ hready => ⟨trivial, hready⟩

/-- The bodies that copying starts on: in the task function itself, all references are written. -/
theorem ownership_starts (env : Env) {p₀ : Program} {t : FunctionEntry} (hapart : Apart p₀ t)
    (hnodup : (p₀.functions.map FunctionEntry.name).Nodup) (ht : t ∈ p₀.functions)
    (blocks : List Block) :
    (ownership env hapart).Starts (Inlining.expand env) (Inlining.expand env) blocks := by
  have hclosed := ownership_closed env hapart
  refine ⟨fun c _ q hq => ?_, fun e he _ q hq => ?_⟩
  · exact hclosed.expand_runs trivial ((stmtsMeet_mention _).mpr fun _ _ htop => by cases htop) hq
  · refine hclosed.expand_runs trivial ((stmtsMeet_mention _).mpr fun i hi htop _ => ?_) hq
    have hname : e.name = t.name := Inlining.Top.function.inj htop
    rw [List.inj_on_of_nodup_map hnodup he ht hname] at hi
    exact .here hi

/-! ### Task functions -/

/-- References keep their places, and cells are only those of references that may become one. -/
theorem Framed.forall₂_own {e e' : FunctionEntry} {own : Ident → Prop} {l l' : List Referent}
    (hnames : Taskfunc.slotNames e.fn = Taskfunc.slotNames e'.fn)
    (hfirst : Taskfunc.firstSlot e = Taskfunc.firstSlot e')
    (h : List.Forall₂ (Framed e fun _ => True) l l')
    (hown : ∀ i, .variable i ∈ l → Name.firstPart i.name ∈ Taskfunc.slotNames e'.fn → own i) :
    List.Forall₂ (Framed e' own) l l' := by
  induction h with
  | nil => exact .nil
  | cons hx _ ih =>
    refine .cons ?_ (ih fun i hi => hown i (List.mem_cons_of_mem _ hi))
    cases hx with
    | slot _ hk =>
      rw [hnames] at hk
      rw [hfirst]
      exact .slot (hown _ List.mem_cons_self (List.mem_of_getElem? hk.1)) hk
    | kept hnot => exact .kept (hnames ▸ hnot)
    | cell => exact .cell

section Steps

variable {env : Env} {s s₁ s₂ s₃ : Script} {p₁ p₂ p₃ p₄ : Program} {t : FunctionEntry}

/-- **A task function behind expansion**: apart from its body it is what it was, and what is written
in the function itself mentions names of its own. -/
theorem expanded_task (hlower : (Lowering.script env s).run {} = .ok (s₁, p₁))
    (hsigils : (Sigils.script env s₁).run p₁ = .ok (s₂, p₂))
    (hexpand : (Inlining.script env s₂).run p₂ = .ok (s₃, p₃))
    (ht : t ∈ p₂.functions) (htask : t.fn.isTaskfunc = true) (hapart : Apart p₂ t) :
    ∃ t₃, p₃.function? t.name = some t₃ ∧ t₃.fn = { t.fn with body := t₃.fn.body } ∧
      t₃.frame = t.frame ∧
      ∀ i ∈ stmtsMentions t₃.fn.body, Owned p₂ t (.function t.name) i := by
  have hnodup : (p₂.functions.map FunctionEntry.name).Nodup := by
    obtain ⟨-, functions, rfl, hfunctions⟩ := Sigils.script_run hsigils
    rw [Sigils.names_eq hfunctions]
    exact (Lowering.table_of_script hlower).nodup
  obtain ⟨p, bodies, hgrows, rfl, -, hbodies⟩ :=
    Inlining.Scheme.script_run (ownership_starts env hapart hnodup ht s₂.blocks) hexpand
  obtain ⟨t₁, ht₁, hgrow⟩ := hgrows.exists_after (Program.function?_of_mem hnodup ht)
  have hfound : Program.function? { p with functions := p.functions.map (Inlining.withBody bodies) }
      t.name = some (Inlining.withBody bodies t₁) := by
    rw [Inlining.function?_withBody, ht₁]
    rfl
  refine ⟨Inlining.withBody bodies t₁, hfound, ?_, ?_, ?_⟩
  · rw [← hgrow.fn]
    exact Inlining.withBody_fn bodies t₁
  · rw [← hgrow.frame]
    exact Inlining.withBody_frame bodies t₁
  · have hstand : Inlining.isStandalone t₁.fn = true := by
      simp [Inlining.isStandalone, hgrow.fn, htask]
    have hmem := Inlining.mem_of_withBody
      (hbodies.total t₁ (Program.mem_functions_of_function? ht₁).1 hstand)
    rw [hgrow.name] at hmem
    exact (stmtsMeet_mention _).mp (hbodies.meets _ hmem).2

/-- **Frames are hygienic.** Take any script that is lowered, gets its sigils, is expanded and gets
its frames, and a task function whose names are its own. Of the references in its expanded body,
those that are written in the function itself and name a parameter or the result become the
cells of these, and every other one denotes the variable, or the cell, that it did. -/
theorem frames_hygienic (hlower : (Lowering.script env s).run {} = .ok (s₁, p₁))
    (hsigils : (Sigils.script env s₁).run p₁ = .ok (s₂, p₂))
    (hexpand : (Inlining.script env s₂).run p₂ = .ok (s₃, p₃))
    (hframes : (Taskfunc.program env).run p₃ = .ok ((), p₄))
    (ht : t ∈ p₂.functions) (htask : t.fn.isTaskfunc = true) (hapart : Apart p₂ t) :
    ∃ t₃ t₄ body, p₃.function? t.name = some t₃ ∧ p₄.function? t.name = some t₄ ∧
      t₄.fn.body = Taskfunc.enter (Taskfunc.frameSize t) t.fn.span ++ body ++
        Taskfunc.leave (Taskfunc.frameSize t) t.fn.span ∧
      List.Forall₂ (Framed t (WrittenIn p₂ t.fn.body)) (stmtsReferents t₃.fn.body)
        (stmtsReferents body) := by
  obtain ⟨t₃, hfound, hfn, hframe, hbody⟩ :=
    expanded_task hlower hsigils hexpand ht htask hapart
  obtain ⟨functions, rfl, hwith⟩ := Taskfunc.program_run hframes
  obtain ⟨t₄, ht₄, hwith⟩ := Stack.find?_withFrame hwith hfound
  -- Expansion changes the body of the function and not the layout of its frame.
  have hnames : Taskfunc.slotNames t₃.fn = Taskfunc.slotNames t.fn := by
    rw [hfn]
    rfl
  have hfirst : Taskfunc.firstSlot t₃ = Taskfunc.firstSlot t := by
    rw [Taskfunc.firstSlot, Taskfunc.firstSlot, hframe]
  have hsize : Taskfunc.frameSize t₃ = Taskfunc.frameSize t := by
    rw [Taskfunc.frameSize, Taskfunc.frameSize, hnames, hframe]
  have hspan : t₃.fn.span = t.fn.span := by rw [hfn]
  rcases Taskfunc.withFrame_eq_ok hwith with ⟨hfalse, -⟩ | ⟨-, hbound, body, hsubst, rfl⟩
  · rw [hfn] at hfalse
    rw [show t.fn.isTaskfunc = false from hfalse] at htask
    cases htask
  · refine ⟨t₃, _, body, hfound, ht₄, by rw [hsize, hspan], ?_⟩
    have hreserved : Reserved t₃.fn := by
      unfold Reserved
      rw [hnames]
      exact hapart.stack
    refine Framed.forall₂_own hnames hfirst (framed_of_stmts hreserved hbound hsubst) ?_
    intro i hi hname
    obtain ⟨x, hx, hi⟩ := List.mem_flatMap.mp hi
    exact hbody i (List.mem_flatMap.mpr ⟨x, hx, x.mem_mentions hi⟩) rfl hname

end Steps

/-- A task function with a copy of another one, which has a parameter of the same name and assigns
to a global variable. -/
def framedText : String :=
  "on init\ndeclare %p[100]\ndeclare $sp\ndeclare $fp\ndeclare $g\nend on\n" ++
    "on note\nt(1)\nend on\n" ++
    "function keep(a)\ng := a\nend function\n" ++
    "taskfunc t(a)\nkeep(a)\na := a+g\nend taskfunc\n"

theorem framedText_hygienic : ∃ s s₁ p₁ s₂ p₂ s₃ p₃ p₄ t,
    Script.parse framedText .empty = .ok s ∧
    (Lowering.script ⟨{}, .empty⟩ s).run {} = .ok (s₁, p₁) ∧
    (Sigils.script ⟨{}, .empty⟩ s₁).run p₁ = .ok (s₂, p₂) ∧
    (Inlining.script ⟨{}, .empty⟩ s₂).run p₂ = .ok (s₃, p₃) ∧
    (Taskfunc.program ⟨{}, .empty⟩).run p₃ = .ok ((), p₄) ∧
    p₂.function? "t" = some t ∧ t.fn.isTaskfunc = true ∧ Apart p₂ t ∧
    ∃ t₃ t₄ body, p₃.function? t.name = some t₃ ∧ p₄.function? t.name = some t₄ ∧
      t₄.fn.body = Taskfunc.enter (Taskfunc.frameSize t) t.fn.span ++ body ++
        Taskfunc.leave (Taskfunc.frameSize t) t.fn.span ∧
      List.Forall₂ (Framed t (WrittenIn p₂ t.fn.body)) (stmtsReferents t₃.fn.body)
        (stmtsReferents body) := by
  set_option maxRecDepth 4000 in
  have htext : framedText.toList = _ :=
    Text.toList_pieces (Text.toList_pieces (Text.toList_pieces String.toList_ofList
      String.toList_ofList) String.toList_ofList) String.toList_ofList
  have hrun : ((Script.parse framedText .empty).toOption.bind fun s =>
      ((Lowering.script ⟨{}, .empty⟩ s).run {}).toOption.bind fun r₁ =>
      ((Sigils.script ⟨{}, .empty⟩ r₁.1).run r₁.2).toOption.bind fun r₂ =>
      ((Inlining.script ⟨{}, .empty⟩ r₂.1).run r₂.2).toOption.bind fun r₃ =>
      ((Taskfunc.program ⟨{}, .empty⟩).run r₃.2).toOption.bind fun _ =>
      (r₂.2.function? "t").map fun t => (t.fn.isTaskfunc, decide (Apart r₂.2 t))) =
      some (true, true) := by
    rw [Script.parse_eq_ofChars htext]
    decide +kernel
  obtain ⟨s, hparse, hrun⟩ := Option.bind_eq_some_iff.mp hrun
  obtain ⟨⟨s₁, p₁⟩, hlower, hrun⟩ := Option.bind_eq_some_iff.mp hrun
  obtain ⟨⟨s₂, p₂⟩, hsigils, hrun⟩ := Option.bind_eq_some_iff.mp hrun
  obtain ⟨⟨s₃, p₃⟩, hexpand, hrun⟩ := Option.bind_eq_some_iff.mp hrun
  obtain ⟨⟨⟨⟩, p₄⟩, hframes, hrun⟩ := Option.bind_eq_some_iff.mp hrun
  obtain ⟨t, ht, hrun⟩ := Option.map_eq_some_iff.mp hrun
  obtain ⟨htask, hapart⟩ := Prod.mk.inj hrun
  have hapart := of_decide_eq_true hapart
  have hlower := Except.toOption_eq_some.mp hlower
  have hsigils := Except.toOption_eq_some.mp hsigils
  have hexpand := Except.toOption_eq_some.mp hexpand
  have hframes := Except.toOption_eq_some.mp hframes
  exact ⟨s, s₁, p₁, s₂, p₂, s₃, p₃, p₄, t, Except.toOption_eq_some.mp hparse, hlower, hsigils,
    hexpand, hframes, ht, htask, hapart, frames_hygienic hlower hsigils hexpand hframes
      (Program.mem_functions_of_function? ht).1 htask hapart⟩

end FlatScript
