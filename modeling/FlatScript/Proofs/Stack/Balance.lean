import FlatScript.Proofs.Stack.Machine
import FlatScript.Proofs.Stack.Slots

/-!
# Calls leave the stack balanced

A block with a frame of `k` variables leaves both pointers alone, and of the stack above the
stack pointer it changes its own variables only; this is `FlatScript.Stack.Within`. A task
function moves the pointers, but it moves them back, so that a call of it leaves the whole
stack above the stack pointer alone. Since a body may contain further calls, both are shown
together, by induction on how deep calls are nested: `FlatScript.Stack.Exec.within` for bodies
and `FlatScript.Stack.Table.call_within` for calls.
-/

namespace FlatScript.Stack

variable {World Other : Type} {M : Machine World Other} {fns : List FunctionEntry}

/-! ### Values of pointers and indices -/

section Values

variable {m : Memory} {w w' : World} {d : Datum Other}

theorem isVar_fixed (text : String) (h : Text.lower (Sigil.split text).2 = (Sigil.split text).2)
    (span : Span) : IsVar text (.fixed text span) :=
  Prod.ext rfl h

/-- The variables of the stack differ. -/
theorem IsVar.unique {text text' : String} {i : Ident} (h : IsVar text i) (h' : IsVar text' i)
    (hne : Sigil.split text ≠ Sigil.split text') : False :=
  hne (h.symm.trans h')

theorem eval_stackPointer {span : Span}
    (h : Eval M m w (Frame.fixedVar Frame.stackPointer span).toExpr d w') :
    d = .int m.sp ∧ w' = w := by
  have hvar := isVar_fixed Frame.stackPointer (by decide) span
  cases h with
  | sp => exact ⟨rfl, rfl⟩
  | fp hi => exact (hvar.unique hi (by decide)).elim
  | var hi => exact absurd (.inr (.inl hvar)) hi

theorem eval_framePointer {span : Span}
    (h : Eval M m w (Frame.fixedVar Frame.framePointer span).toExpr d w') :
    d = .int m.fp ∧ w' = w := by
  have hvar := isVar_fixed Frame.framePointer (by decide) span
  cases h with
  | sp hi => exact (hvar.unique hi (by decide)).elim
  | fp => exact ⟨rfl, rfl⟩
  | var hi => exact absurd (.inr (.inr hvar)) hi

theorem eval_int {v : Int32} {span : Span} (h : Eval M m w (.int v span) d w') :
    d = .int v.toInt ∧ w' = w := by
  cases h with
  | int => exact ⟨rfl, rfl⟩

/-- A sum of a pointer and an integer. -/
theorem eval_add {base : Expr} {a : Int} {n : Nat} {span span' : Span} (hn : n < 2 ^ 31)
    (hbase : ∀ {d w'}, Eval M m w base d w' → d = .int a ∧ w' = w)
    (h : Eval M m w (.binary .add base (.int (Int32.ofNat n) span') span) d w') :
    d = .int (a + n) ∧ w' = w := by
  cases h with
  | add hl hr =>
    obtain ⟨hd, rfl⟩ := hbase hl
    obtain ⟨hd', rfl⟩ := eval_int hr
    rw [Int32.toInt_ofNat_of_lt hn] at hd'
    cases hd
    cases hd'
    exact ⟨rfl, rfl⟩
  | binary hl hr hop =>
    obtain ⟨hd, rfl⟩ := hbase hl
    exact absurd rfl (hop _ _ hd (eval_int hr).1).1

/-- A difference of a pointer and an integer. -/
theorem eval_sub {base : Expr} {a : Int} {n : Nat} {span span' : Span} (hn : n < 2 ^ 31)
    (hbase : ∀ {d w'}, Eval M m w base d w' → d = .int a ∧ w' = w)
    (h : Eval M m w (.binary .sub base (.int (Int32.ofNat n) span') span) d w') :
    d = .int (a - n) ∧ w' = w := by
  cases h with
  | sub hl hr =>
    obtain ⟨hd, rfl⟩ := hbase hl
    obtain ⟨hd', rfl⟩ := eval_int hr
    rw [Int32.toInt_ofNat_of_lt hn] at hd'
    cases hd
    cases hd'
    exact ⟨rfl, rfl⟩
  | binary hl hr hop =>
    obtain ⟨hd, rfl⟩ := hbase hl
    exact absurd rfl (hop _ _ hd (eval_int hr).1).2

theorem IsOffset.eval {k : Nat} {op : BinaryOp} {left right : Expr} {span : Span}
    (h : IsOffset k op left right) (hk : k < 2 ^ 31)
    (he : Eval M m w (.binary op left right span) d w') :
    ∃ j : Nat, 1 ≤ j ∧ j ≤ k ∧ d = .int (m.fp + j) := by
  cases h with
  | @mk j _ _ hj hle => exact ⟨j, hj, hle, (eval_add (by omega) eval_framePointer he).1⟩

/-- The cell whose index is an expression. -/
theorem eval_cell {e : Expr} {a : Int} {span span' : Span}
    (he : ∀ {d w'}, Eval M m w e d w' → d = .int a ∧ w' = w)
    (h : Eval M m w (.var (.fixed Frame.stack span) [e] span') d w') :
    d = .int (m.cell a) ∧ w' = w := by
  have hvar := isVar_fixed Frame.stack (by decide) span
  cases h with
  | cell _ h =>
    obtain ⟨hd, rfl⟩ := he h
    cases hd
    exact ⟨rfl, rfl⟩
  | var hi => exact absurd (.inl hvar) hi

end Values

/-! ### Values of references -/

section References

variable {st st' : State World} {d : Datum Other}

/-- What an assignment to a cell does, when the value of its index is known. -/
theorem writes_cell {e : Expr} {a : Int} {span span' : Span}
    (he : ∀ {d w'}, Eval M st.toMemory st.world e d w' → d = .int a ∧ w' = st.world)
    (h : Writes M st ⟨.fixed Frame.stack span, [e], span'⟩ d st') :
    ∃ n, d = .int n ∧ st' = { st with cell := fun b => if b = a then n else st.cell b } := by
  have hvar := isVar_fixed Frame.stack (by decide) span
  cases h with
  | cell _ h =>
    obtain ⟨hd, rfl⟩ := he h
    cases hd
    exact ⟨_, rfl, rfl⟩
  | var hi => exact absurd (.inl hvar) hi

theorem writes_stackPointer {span : Span}
    (h : Writes M st (Frame.fixedVar Frame.stackPointer span) d st') :
    ∃ n, d = .int n ∧ st' = { st with sp := n } := by
  have hvar := isVar_fixed Frame.stackPointer (by decide) span
  cases h with
  | sp => exact ⟨_, rfl, rfl⟩
  | fp hi => exact (hvar.unique hi (by decide)).elim
  | var hi => exact absurd (.inr (.inl hvar)) hi

theorem writes_framePointer {span : Span}
    (h : Writes M st (Frame.fixedVar Frame.framePointer span) d st') :
    ∃ n, d = .int n ∧ st' = { st with fp := n } := by
  have hvar := isVar_fixed Frame.framePointer (by decide) span
  cases h with
  | sp hi => exact (hvar.unique hi (by decide)).elim
  | fp => exact ⟨_, rfl, rfl⟩
  | var hi => exact absurd (.inr (.inr hvar)) hi

/-- The value of a cell of the free part. -/
theorem eval_freeCell {m : Memory} {w w' : World} {j : Nat} {span : Span} (hj : 1 ≤ j)
    (hbound : j < 2 ^ 31) (h : Eval M m w (freeCell j span).toExpr d w') :
    d = .int (m.cell (m.sp - j)) ∧ w' = w := by
  rw [freeCell_eq hj] at h
  exact eval_cell (eval_sub hbound eval_stackPointer) h

/-- An assignment to a cell of the free part. -/
theorem writes_freeCell {j : Nat} {span : Span} (hj : 1 ≤ j) (hbound : j < 2 ^ 31)
    (h : Writes M st (freeCell j span) d st') :
    ∃ n, d = .int n ∧
      st' = { st with cell := fun b => if b = st.sp - j then n else st.cell b } := by
  rw [freeCell_eq hj] at h
  exact writes_cell (eval_sub hbound eval_stackPointer) h

end References

/-! ### What a block may change -/

/-- **What a block with a frame of `k` variables does to the stack**: the pointers stay, and so
does the stack from the stack pointer on, apart from the variables. -/
structure Within (k : Nat) (m m' : Memory) : Prop where
  sp : m'.sp = m.sp
  fp : m'.fp = m.fp
  cell : ∀ a, m.sp ≤ a → a ≤ m.fp ∨ m.fp + k < a → m'.cell a = m.cell a

namespace Within

variable {k k' : Nat} {m m₁ m₂ : Memory}

theorem refl (k : Nat) (m : Memory) : Within k m m := ⟨rfl, rfl, fun _ _ _ => rfl⟩

theorem trans (h : Within k m m₁) (h' : Within k m₁ m₂) : Within k m m₂ := by
  refine ⟨h'.sp.trans h.sp, h'.fp.trans h.fp, fun a hsp hfp => ?_⟩
  rw [h'.cell a (by rw [h.sp]; exact hsp) (by rw [h.fp]; exact hfp), h.cell a hsp hfp]

theorem mono (hk : k ≤ k') (h : Within k m m₁) : Within k' m m₁ :=
  ⟨h.sp, h.fp, fun a hsp hfp => h.cell a hsp (by omega)⟩

end Within

/-- **What an assignment to a variable of a frame does to the stack**: it changes the variables
of the frame only. -/
structure InFrame (k : Nat) (m m' : Memory) : Prop where
  sp : m'.sp = m.sp
  fp : m'.fp = m.fp
  cell : ∀ a, a ≤ m.fp ∨ m.fp + k < a → m'.cell a = m.cell a

namespace InFrame

variable {k : Nat} {m m₁ m₂ : Memory}

theorem refl (k : Nat) (m : Memory) : InFrame k m m := ⟨rfl, rfl, fun _ _ => rfl⟩

theorem trans (h : InFrame k m m₁) (h' : InFrame k m₁ m₂) : InFrame k m m₂ := by
  refine ⟨h'.sp.trans h.sp, h'.fp.trans h.fp, fun a hfp => ?_⟩
  rw [h'.cell a (by rw [h.fp]; exact hfp), h.cell a hfp]

theorem within (h : InFrame k m m₁) : Within k m m₁ :=
  ⟨h.sp, h.fp, fun a _ hfp => h.cell a hfp⟩

end InFrame

/-! ### Statements -/

section Statements

variable {k : Nat} {st st' : State World} {d : Datum Other}

/-- A reference to a variable of the stack has a name of the stack. -/
theorem isStackName_of_isStackVar {i : Ident} (h : IsStackVar i) : isStackName i.name = true := by
  have hname : ∀ text, IsVar text i → Text.lower i.name = (Sigil.split text).2 :=
    fun text h => congrArg Prod.snd h
  rcases h with h | h | h <;> rw [isStackName, hname _ h] <;> decide

/-- An assignment changes the variables of the frame only. -/
theorem Writes.inFrame {v : VarRef} (hk : k < 2 ^ 31) (hv : v.Meets (cells k))
    (h : Writes M st v d st') : InFrame k st.toMemory st'.toMemory := by
  have hends : ∀ {i es span}, (VarRef.mk i es span).Meets (cells k) → IsStackVar i →
      EndsInCell k es := fun hv hi => hv.1 (isStackName_of_isStackVar hi)
  cases h with
  | sp hi =>
    obtain ⟨init, _, _, _, _, heq, -⟩ := hends hv (.inr (.inl hi))
    simp at heq
  | fp hi =>
    obtain ⟨init, _, _, _, _, heq, -⟩ := hends hv (.inr (.inr hi))
    simp at heq
  | @cell _ e _ a n _ hi he =>
    obtain ⟨init, op, left, right, s, heq, hoff⟩ := hends hv (.inl hi)
    have he' : e = .binary op left right s := by
      have hlast := congrArg List.getLast? heq
      simpa using hlast
    subst he'
    obtain ⟨j, hj, hle, hd⟩ := hoff.eval hk he
    cases hd
    refine ⟨rfl, rfl, fun b hb => ?_⟩
    have hne : b ≠ st.fp + j := by omega
    simp [hne]
  | var => exact .refl _ _

theorem WritesBack.inFrame {es : List Expr} {ds : List (Option (Datum Other))} (hk : k < 2 ^ 31)
    (hes : exprsMeet (cells k) es) (h : WritesBack M st es ds st') :
    InFrame k st.toMemory st'.toMemory := by
  induction h with
  | nil => exact .refl _ _
  | keep _ ih => exact ih hes.2
  | @write _ _ _ i subscripts span _ _ _ hd _ ih =>
    have hv : (VarRef.mk i subscripts span).Meets (cells k) := hes.1
    exact (hd.inFrame hk hv).trans (ih hes.2)

theorem exprsMeet_evaluated {name : String} {args : List Expr} (h : exprsMeet (cells k) args) :
    exprsMeet (cells k) (evaluated name args) := by
  unfold evaluated
  split
  · cases args with
    | nil => trivial
    | cons e es => exact h.2
  · exact h

theorem Chooses.meets {r : Rule} {m : Memory} {cs : List Case} {w w' : World} {body : List Stmt}
    (hcs : casesMeet r cs) (h : Chooses M m d cs w body w') : stmtsMeet r body := by
  induction h with
  | none => trivial
  | hit => exact hcs.2.2.2.1
  | miss _ _ _ ih => exact ih hcs.2.2.2.2

/-- What is left of a statement meets the rules that the statement meets. -/
theorem Step.meets {r : Rule} {s : Stmt} {new : List Stmt}
    (hr : ∀ {b bs otherwise}, r.stmt (.ifChain (b :: bs) otherwise) →
      r.stmt (.ifChain bs otherwise))
    (hs : s.Meets r) (h : Step M s st new st') : stmtsMeet r new := by
  cases h with
  | assign => trivial
  | command => trivial
  | declare => trivial
  | ifTrue => exact hs.2.1.2.2.1
  | ifFalse => exact ⟨⟨hr hs.1, hs.2.1.2.2.2, hs.2.2⟩, trivial⟩
  | otherwise => exact hs.2.2.2
  | whileTrue => exact stmtsMeet_append.mpr ⟨hs.2.2.2, hs, trivial⟩
  | whileFalse => trivial
  | select _ h => exact h.meets hs.2.2

/-- **A statement changes the variables of the frame only**, and cells below the stack
pointer. -/
theorem Step.within {s : Stmt} {new : List Stmt} (hk : k < 2 ^ 31) (hs : s.Meets (slotted k))
    (h : Step M s st new st') : Within k st.toMemory st'.toMemory := by
  cases h with
  | assign hv ht =>
    rcases hs with hs | ⟨-, htarget, -⟩
    · cases hs with
      | @store j _ _ hj hbound _ =>
        obtain ⟨n, -, rfl⟩ := writes_freeCell hj hbound ht
        refine ⟨rfl, rfl, fun a ha _ => ?_⟩
        have hne : a ≠ st.sp - j := by omega
        simp [hne]
      | load _ _ htarget =>
        have hframe := ht.inFrame hk htarget
        exact hframe.within
    · have hframe := ht.inFrame hk (meets_slotted_iff.mp htarget)
      exact hframe.within
  | command _ _ _ hback =>
    have hargs : exprsMeet (slotted k) _ := argsMeet_false.mp hs.2
    have hcells : exprsMeet (cells k) _ :=
      exprsMeet_iff.mpr fun e he => meets_slotted_iff.mp (exprsMeet_iff.mp hargs e he)
    have hframe := hback.inFrame hk (exprsMeet_evaluated hcells)
    exact hframe.within
  | declare | ifTrue | ifFalse | otherwise | whileTrue | whileFalse | select => exact .refl _ _

end Statements

/-! ### Running lists -/

/-- No statement leaves the function it stands in. -/
def noExit : Rule where
  expr _ := True
  stmt
    | .call c => c.usingCall = true ∨ c.name.name ≠ "exit"
    | _ => True
  list _ := True
  skips _ := true
  atom _ _ _ := True
  whole _ _ := True

section Lists

variable {n : Nat} {s : Stmt} {ss rest new : List Stmt} {st st' : State World}

theorem not_isExit (hs : s.Meets noExit) : ¬ IsExit s := by
  rintro ⟨name, args, isProcedure, span, hkind, hname⟩
  obtain ⟨kind, _, _⟩ := s
  cases hkind
  rcases hs.1 with h | h
  · cases h
  · exact h hname

theorem Step.noExit (hs : s.Meets noExit) (h : Step M s st new st') : stmtsMeet noExit new :=
  h.meets (fun _ => trivial) hs

/-- **A run of two lists is a run of the first one and then one of the second**, when the first
one is not left early. -/
theorem Exec.split (hss : stmtsMeet Stack.noExit ss) (h : Exec M fns n (ss ++ rest) st st') :
    ∃ mid, Exec M fns n ss st mid ∧ Exec M fns n rest mid st' := by
  generalize hl : ss ++ rest = l at h
  induction h generalizing ss with
  | nil =>
    obtain ⟨rfl, rfl⟩ := List.append_eq_nil_iff.mp hl
    exact ⟨_, .nil, .nil⟩
  | step hs h ih =>
    cases ss with
    | nil =>
      rw [List.nil_append] at hl
      exact ⟨_, .nil, hl ▸ .step hs h⟩
    | cons s ss =>
      cases hl
      obtain ⟨mid, h₁, h₂⟩ := ih (stmtsMeet_append.mpr ⟨hs.noExit hss.1, hss.2⟩) (by simp)
      exact ⟨mid, .step hs h₁, h₂⟩
  | call hs hbody h _ ih =>
    cases ss with
    | nil =>
      rw [List.nil_append] at hl
      exact ⟨_, .nil, hl ▸ .call hs hbody h⟩
    | cons s ss =>
      cases hl
      obtain ⟨mid, h₁, h₂⟩ := ih hss.2 rfl
      exact ⟨mid, .call hs hbody h₁, h₂⟩
  | exit hs =>
    cases ss with
    | nil =>
      rw [List.nil_append] at hl
      exact ⟨_, .nil, hl ▸ .exit hs⟩
    | cons s ss =>
      cases hl
      exact absurd hs (not_isExit hss.1)

/-- A run that starts with an assignment. -/
theorem Exec.assign_inv {target : VarRef} {value : Expr} {span : Span} {trace : List Span}
    (h : Exec M fns n (⟨.assign target value, span, trace⟩ :: ss) st st') :
    ∃ d w st₁, Eval M st.toMemory st.world value d w ∧ Writes M { st with world := w } target d st₁ ∧
      Exec M fns n ss st₁ st' := by
  cases h with
  | step hs h =>
    cases hs with
    | assign hv ht => exact ⟨_, _, _, hv, ht, h⟩
  | call hs =>
    obtain ⟨_, _, _, hkind, -⟩ := hs
    cases hkind
  | exit hs =>
    obtain ⟨_, _, _, _, hkind, -⟩ := hs
    cases hkind

theorem Exec.nil_inv (h : Exec M fns n [] st st') : st' = st := by
  cases h
  rfl

end Lists

/-! ### Frames -/

/-- The state behind the first statements of a task function. -/
def entered (size : Nat) (st : State World) : State World :=
  { st with
    sp := st.sp - size
    fp := st.sp - size
    cell := fun b => if b = st.sp - size then st.fp else st.cell b }

/-- The state behind the last statements of a task function. -/
def left (size : Nat) (st : State World) : State World :=
  { st with
    sp := st.fp + size
    fp := st.cell st.fp }

section Frames

variable {n size : Nat} {span : Span} {rest : List Stmt} {st st' : State World}

theorem exec_enter (hsize : 1 ≤ size) (hbound : size < 2 ^ 31)
    (h : Exec M fns n (Taskfunc.enter size span ++ rest) st st') :
    Exec M fns n rest (entered size st) st' := by
  obtain ⟨_, _, st₁, hfp, hsave, h⟩ := h.assign_inv
  obtain ⟨rfl, rfl⟩ := eval_framePointer hfp
  obtain ⟨_, hd, rfl⟩ := writes_freeCell hsize hbound hsave
  cases hd
  obtain ⟨_, _, st₂, hnew, hmove, h⟩ := h.assign_inv
  obtain ⟨rfl, rfl⟩ := eval_sub hbound eval_stackPointer hnew
  obtain ⟨_, hd, rfl⟩ := writes_framePointer hmove
  cases hd
  obtain ⟨_, _, st₃, hfp, hmove, h⟩ := h.assign_inv
  obtain ⟨rfl, rfl⟩ := eval_framePointer hfp
  obtain ⟨_, hd, rfl⟩ := writes_stackPointer hmove
  cases hd
  exact h

theorem exec_leave (hbound : size < 2 ^ 31)
    (h : Exec M fns n (Taskfunc.leave size span) st st') : st' = left size st := by
  obtain ⟨_, _, st₁, hfp, hmove, h⟩ := h.assign_inv
  obtain ⟨rfl, rfl⟩ := eval_framePointer hfp
  obtain ⟨_, hd, rfl⟩ := writes_stackPointer hmove
  cases hd
  obtain ⟨_, _, st₂, hsaved, hmove, h⟩ := h.assign_inv
  obtain ⟨rfl, rfl⟩ := eval_cell eval_framePointer hsaved
  obtain ⟨_, hd, rfl⟩ := writes_framePointer hmove
  cases hd
  obtain ⟨_, _, st₃, hnew, hmove, h⟩ := h.assign_inv
  obtain ⟨rfl, rfl⟩ := eval_add hbound eval_stackPointer hnew
  obtain ⟨_, hd, rfl⟩ := writes_stackPointer hmove
  cases hd
  exact h.nil_inv

/-- A frame that is entered and left again is gone. -/
theorem within_left {k : Nat} {mid : State World}
    (h : Within k (entered (k + 1) st).toMemory mid.toMemory) :
    Within 0 st.toMemory (left (k + 1) mid).toMemory := by
  have hfp : mid.fp = st.sp - (k + 1 : Nat) := h.fp
  refine ⟨?_, ?_, fun a ha _ => ?_⟩
  · change mid.fp + (k + 1 : Nat) = st.sp
    omega
  · change mid.cell mid.fp = st.fp
    have hcell := h.cell mid.fp (Int.le_of_eq hfp.symm) (.inl (Int.le_of_eq hfp))
    simpa [entered, hfp] using hcell
  · have hne : a ≠ st.sp - (k + 1 : Nat) := by omega
    have hcell := h.cell a (by simp only [entered]; omega) (.inr (by simp only [entered]; omega))
    simp only [entered, hne, if_false] at hcell
    exact hcell

end Frames

/-! ### Functions -/

/-- **A function with a frame of `k` variables**: its body enters the frame, and leaves it in the
end. -/
structure Framed (e : FunctionEntry) (k : Nat) (span : Span) (body : List Stmt) : Prop where
  shape : e.fn.body = Taskfunc.enter (k + 1) span ++ body ++ Taskfunc.leave (k + 1) span
  bound : k + 1 < 2 ^ 31
  meets : stmtsMeet (slotted k) body

/-- **What is known of the functions that can be called.** -/
structure Table (fns : List FunctionEntry) : Prop where
  function : ∀ e ∈ fns, stmtsMeet (slotted 0) e.fn.body ∨ ∃ k span body, Framed e k span body
  noExit : ∀ e ∈ fns, stmtsMeet noExit e.fn.body

section Functions

variable {n k : Nat} {st st' : State World}

/-- A run of a function with a frame. -/
theorem Framed.exec {e : FunctionEntry} {span : Span} {body : List Stmt}
    (hframed : Framed e k span body) (hexit : stmtsMeet noExit e.fn.body)
    (h : Exec M fns n e.fn.body st st') :
    ∃ mid, Exec M fns n body (entered (k + 1) st) mid ∧ st' = left (k + 1) mid := by
  rw [hframed.shape, List.append_assoc] at h hexit
  have hbody := exec_enter (by omega) hframed.bound h
  have hexit' : stmtsMeet noExit body := by
    simp only [stmtsMeet_append] at hexit
    exact hexit.2.1
  obtain ⟨mid, hmid, hleave⟩ := hbody.split hexit'
  exact ⟨mid, hmid, exec_leave hframed.bound hleave⟩

theorem mem_of_calls {s : Stmt} {e : FunctionEntry} (h : Calls fns s e) : e ∈ fns := by
  obtain ⟨_, _, _, -, hfind⟩ := h
  exact List.mem_of_find?_eq_some hfind

/-- A run of a list, when calls leave the stack balanced. -/
theorem Exec.within_of_calls {ss : List Stmt} (h : Exec M fns n ss st st') (hk : k < 2 ^ 31)
    (hcalls : ∀ m < n, ∀ e ∈ fns, ∀ st st', Exec M fns m e.fn.body st st' →
      Within 0 st.toMemory st'.toMemory)
    (hss : stmtsMeet (slotted k) ss) : Within k st.toMemory st'.toMemory := by
  induction h with
  | nil => exact .refl _ _
  | step hs _ ih =>
    have hnew := hs.meets (fun _ => trivial) hss.1
    exact (hs.within hk hss.1).trans (ih hcalls (stmtsMeet_append.mpr ⟨hnew, hss.2⟩))
  | call hs hbody _ _ ih =>
    have hcall := hcalls _ (Nat.lt_succ_self _) _ (mem_of_calls hs) _ _ hbody
    exact (hcall.mono (Nat.zero_le k)).trans (ih hcalls hss.2)
  | exit => exact .refl _ _

/-- **A call leaves the stack balanced**, however deep calls are nested in it. -/
theorem Table.call_within (hfns : Table fns) {e : FunctionEntry} (he : e ∈ fns)
    (h : Exec M fns n e.fn.body st st') : Within 0 st.toMemory st'.toMemory := by
  induction n using Nat.strong_induction_on generalizing e st st' with
  | _ n ih =>
    have hcalls : ∀ m < n, ∀ e ∈ fns, ∀ st st', Exec M fns m e.fn.body st st' →
        Within 0 st.toMemory st'.toMemory := fun m hm e he st st' h => ih m hm he h
    rcases hfns.function e he with hplain | ⟨k, span, body, hframed⟩
    · exact h.within_of_calls (by decide) hcalls hplain
    · obtain ⟨mid, hmid, rfl⟩ := hframed.exec (hfns.noExit e he) h
      have hbound := hframed.bound
      exact within_left (hmid.within_of_calls (by omega) hcalls hframed.meets)

/-- **A body changes the variables of its frame only**, and cells below the stack pointer. -/
theorem Exec.within {ss : List Stmt} (h : Exec M fns n ss st st') (hfns : Table fns)
    (hk : k < 2 ^ 31) (hss : stmtsMeet (slotted k) ss) : Within k st.toMemory st'.toMemory :=
  h.within_of_calls hk (fun _ _ _ he _ _ h => hfns.call_within he h) hss

end Functions

end FlatScript.Stack
