import FlatScript.Proofs.Inlining.Scheme
import FlatScript.Proofs.Stack.Balance

/-!
# Passing values on the stack

The caller of a task function counts the cells of the arguments down from the stack pointer,
and the function counts them up from its frame pointer, past its own variables. This file shows
that they mean the same cells: `FlatScript.Stack.Disciplined` collects what is to be known of
one call, and `FlatScript.Stack.Reaches.disciplined` says that it holds of every call that a
run comes to.

A load must not overwrite the cells of the loads after it. It does not, because a block that
has variables in a frame only ever runs with both pointers at that frame;
`FlatScript.Stack.Located` is the invariant.
-/

namespace FlatScript.Stack

open Inlining (storesOf loadsOf marshalled slotCount Passed argumentSlot)

variable {World Other : Type} {M : Machine World Other} {fns : List FunctionEntry}

/-! ### Stores -/

section Stores

variable {n count i : Nat} {span : Span} {trace : List Span} {st st' : State World}

/-- The cell of the `i`-th of `count` values below a stack pointer. -/
def address (sp : Int) (count i : Nat) : Int := sp - (count - i : Nat)

/-- **The stores of values**: the pointers stay, other cells stay, and every value that is
stored is in its cell in the end. -/
structure Stored (M : Machine World Other) (fns : List FunctionEntry) (n : Nat)
    (trace : List Span) (count : Nat) (span : Span) (i : Nat) (values : List (Option Expr))
    (st st' : State World) : Prop where
  sp : st'.sp = st.sp
  fp : st'.fp = st.fp
  cell : ∀ a, a < address st.sp count i ∨ st.sp ≤ a → st'.cell a = st.cell a
  value : ∀ j v, values[j]? = some (some v) → ∃ u a w,
    Exec M fns n (storesOf trace count span i (values.take j)) st u ∧
      Eval M u.toMemory u.world v (.int a) w ∧ st'.cell (address st.sp count (i + j)) = a

theorem exec_stores {values : List (Option Expr)} (hcount : count < 2 ^ 31)
    (hi : i + values.length ≤ count) (h : Exec M fns n (storesOf trace count span i values) st st') :
    Stored M fns n trace count span i values st st' := by
  induction values generalizing i st with
  | nil =>
    cases h.nil_inv
    exact ⟨rfl, rfl, fun _ _ => rfl, by simp⟩
  | cons v vs ih =>
    have hi' : i + 1 + vs.length ≤ count := by
      rw [List.length_cons] at hi
      omega
    have hlt : i < count := by omega
    cases v with
    | none =>
      obtain ⟨hsp, hfp, hcell, hvalue⟩ := ih hi' h
      refine ⟨hsp, hfp, fun a ha => hcell a ?_, ?_⟩
      · unfold address at *
        omega
      · intro j v hv
        cases j with
        | zero => simp at hv
        | succ j =>
          obtain ⟨u, a, w, hu, hev, hst⟩ := hvalue j v (by simpa using hv)
          exact ⟨u, a, w, hu, hev, by rw [← hst]; congr 2; omega⟩
    | some v =>
      obtain ⟨d, w, st₁, hev, hwrite, h⟩ := h.assign_inv
      have hj : 1 ≤ count - i := by omega
      have hj' : count - i < 2 ^ 31 := by omega
      obtain ⟨a, rfl, hst₁⟩ := writes_freeCell hj hj' hwrite
      obtain ⟨hsp, hfp, hcell, hvalue⟩ := ih hi' h
      have hsp₁ : st₁.sp = st.sp := by rw [hst₁]
      have hfp₁ : st₁.fp = st.fp := by rw [hst₁]
      have hcell₁ : ∀ b, st₁.cell b = if b = address st.sp count i then a else st.cell b := by
        intro b
        rw [hst₁]
        rfl
      refine ⟨hsp.trans hsp₁, hfp.trans hfp₁, ?_, ?_⟩
      · intro b hb
        rw [hcell b (by unfold address at *; omega), hcell₁, if_neg (by unfold address at *; omega)]
      · intro j v' hv'
        cases j with
        | zero =>
          cases Option.some.inj (Option.some.inj hv')
          refine ⟨st, a, w, .nil, hev, ?_⟩
          rw [hcell _ (.inl (by unfold address; omega)), hcell₁, if_pos (by rw [Nat.add_zero])]
        | succ j =>
          obtain ⟨u, a', w', hu, hev', hst⟩ := hvalue j v' (by simpa using hv')
          refine ⟨u, a', w', .step (.assign hev hwrite) hu, hev', ?_⟩
          rw [← hst, hsp₁]
          congr 2
          omega

end Stores

/-! ### Loads -/

section Loads

variable {n k count i : Nat} {span : Span} {trace : List Span} {st st' : State World}

/-- **The loads of values**: every target gets the value that its cell has at the start. -/
theorem exec_loads {targets : List (Option VarRef)} (hcount : count < 2 ^ 31)
    (hi : i + targets.length ≤ count) (hk : k < 2 ^ 31) (hframe : k = 0 ∨ st.sp = st.fp)
    (htargets : ∀ t, some t ∈ targets → t.Meets (cells k))
    (h : Exec M fns n (loadsOf trace count span i targets) st st') {j : Nat} {t : VarRef}
    (ht : targets[j]? = some (some t)) :
    ∃ u u', Exec M fns n (loadsOf trace count span i (targets.take j)) st u ∧
      Writes M u t (.int (st.cell (address st.sp count (i + j)))) u' := by
  induction targets generalizing i j st with
  | nil => simp at ht
  | cons v vs ih =>
    have hi' : i + 1 + vs.length ≤ count := by
      rw [List.length_cons] at hi
      omega
    have hlt : i < count := by omega
    have hvs : ∀ t, some t ∈ vs → t.Meets (cells k) := fun t ht => htargets t (by simp [ht])
    have hindex : ∀ j, i + 1 + j = i + (j + 1) := by omega
    cases v with
    | none =>
      cases j with
      | zero => simp at ht
      | succ j =>
        obtain ⟨u, u', hu, hwrite⟩ := ih hi' hframe hvs h (by simpa using ht)
        exact ⟨u, u', hu, by rw [← hindex]; exact hwrite⟩
    | some v =>
      obtain ⟨d, w, st₁, hev, hwrite, h⟩ := h.assign_inv
      obtain ⟨rfl, rfl⟩ := eval_freeCell (by omega) (by omega) hev
      cases j with
      | zero =>
        cases Option.some.inj (Option.some.inj ht)
        exact ⟨st, st₁, .nil, hwrite⟩
      | succ j =>
        -- The target of this load is outside of the cells that are loaded later.
        have hkeep : InFrame k st.toMemory st₁.toMemory :=
          hwrite.inFrame hk (htargets v (by simp))
        have hframe₁ : k = 0 ∨ st₁.sp = st₁.fp := by
          rw [hkeep.sp, hkeep.fp]
          exact hframe
        obtain ⟨u, u', hu, hlater⟩ := ih hi' hframe₁ hvs h (by simpa using ht)
        refine ⟨u, u', .step (.assign hev hwrite) hu, ?_⟩
        have hsame : st₁.cell (address st₁.sp count (i + 1 + j)) =
            st.cell (address st.sp count (i + (j + 1))) := by
          have hj : j < vs.length := by
            obtain ⟨hj, -⟩ := List.getElem?_eq_some_iff.mp ht
            simpa using hj
          rw [hkeep.sp, hindex]
          refine hkeep.cell _ ?_
          unfold address
          omega
        rw [← hsame]
        exact hlater

end Loads

/-! ### Calls -/

/-- **The cell of the `i`-th parameter**, or of the result behind the parameters, as the body of
a function refers to it. -/
def parameterCell (f : FunctionEntry) (i : Nat) : Expr :=
  (Frame.slot Frame.framePointer .add (Taskfunc.firstSlot f + i) f.fn.span).toExpr

theorem slotsFrom_eq (span : Span) (offset : Nat) (names : List String) :
    Taskfunc.slotsFrom span offset names = names.mapIdx fun i name =>
      (name, (Frame.slot Frame.framePointer .add (offset + i) span).toExpr) := by
  induction names generalizing offset with
  | nil => rfl
  | cons name names ih =>
    rw [Taskfunc.slotsFrom, ih, List.mapIdx_cons]
    simp only [Nat.add_zero, Nat.add_assoc, Nat.add_comm 1]

/-- The names of the parameters and of the result stand for their cells. -/
theorem slots_eq (f : FunctionEntry) :
    Taskfunc.slots f =
      ((Taskfunc.slotNames f.fn).mapIdx fun i name => (name, parameterCell f i)).reverse := by
  rw [Taskfunc.slots, slotsFrom_eq]
  rfl

theorem eval_parameterCell {f : FunctionEntry} {i : Nat} {m : Memory} {w : World}
    (hbound : Taskfunc.firstSlot f + i < 2 ^ 31) :
    Eval M m w (parameterCell f i) (.int (m.cell (m.fp + (Taskfunc.firstSlot f + i : Nat)))) w := by
  have hne : Taskfunc.firstSlot f + i ≠ 0 := by
    unfold Taskfunc.firstSlot
    omega
  unfold parameterCell Frame.slot
  simp only [hne, if_false]
  have hint : Eval M m w (.int (Int32.ofNat (Taskfunc.firstSlot f + i)) f.fn.span)
      (.int (Taskfunc.firstSlot f + i : Nat)) w := by
    rw [← Int32.toInt_ofNat_of_lt hbound]
    exact .int
  have hbase : Eval M m w (Frame.fixedVar Frame.framePointer f.fn.span).toExpr (.int m.fp) w :=
    .fp (isVar_fixed _ (by decide) f.fn.span)
  exact .cell (isVar_fixed _ (by decide) _) (.add hbase hint)

theorem length_slotNames (f : FunctionDef) : (Taskfunc.slotNames f).length = slotCount f := by
  cases hr : f.result <;> simp [Taskfunc.slotNames, slotCount, hr]

/-- **The function and its caller mean the same cell.** The function counts up from its frame
pointer, past its variables, and the caller down from the stack pointer. -/
theorem parameter_address {f : FunctionEntry} {i : Nat} (hi : i < slotCount f.fn) (sp : Int) :
    sp - (Taskfunc.frameSize f : Nat) + (Taskfunc.firstSlot f + i : Nat) =
      address sp (slotCount f.fn) i := by
  have hcount := length_slotNames f.fn
  unfold Taskfunc.frameSize Taskfunc.firstSlot address
  omega

/-- The cells of the parameters are behind the start of the frame. -/
theorem address_ne_base {f : FunctionEntry} {i : Nat} (sp : Int) :
    address sp (slotCount f.fn) i ≠ sp - (Taskfunc.frameSize f : Nat) := by
  have hcount := length_slotNames f.fn
  unfold address Taskfunc.frameSize
  omega

/-- **The discipline of the stack at a call** of the task function `f`, whose body between the
entry of its frame and the exit is `body`. The call runs from `st` to `st'`: arguments are
stored until `before`, the frame is entered at `entry`, the body runs until `last`, the frame
is left until `after`, and then results are loaded. -/
structure Disciplined (M : Machine World Other) (fns : List FunctionEntry) (n m : Nat)
    (f : FunctionEntry) (body : List Stmt) (span : Span) (trace : List Span)
    (values : List (Option Expr)) (targets : List (Option VarRef))
    (st before entry last after st' : State World) : Prop where
  stores : Exec M fns n (storesOf trace (slotCount f.fn) span 0 values) st before
  enters : Exec M fns m (Taskfunc.enter (Taskfunc.frameSize f) f.fn.span) before entry
  runs : Exec M fns m body entry last
  leaves : Exec M fns m (Taskfunc.leave (Taskfunc.frameSize f) f.fn.span) last after
  loads : Exec M fns n (loadsOf trace (slotCount f.fn) span 0 targets) after st'
  /-- Storing arguments moves no pointer. -/
  kept : before.sp = st.sp ∧ before.fp = st.fp
  /-- The pointers are the same before the call and after it. -/
  restored : after.sp = before.sp ∧ after.fp = before.fp
  /-- The call changes nothing from the stack pointer on. -/
  untouched : ∀ a, before.sp ≤ a → after.cell a = before.cell a
  /-- A value that is stored for a parameter is in the cell of the parameter on entry. -/
  passed : ∀ i v, values[i]? = some (some v) → ∃ u a w,
    Exec M fns n (storesOf trace (slotCount f.fn) span 0 (values.take i)) st u ∧
      Eval M u.toMemory u.world v (.int a) w ∧
      Eval M entry.toMemory entry.world (parameterCell f i) (.int a) entry.world
  /-- What the body leaves in the cell of a parameter is what its target gets. -/
  returned : ∀ i t, targets[i]? = some (some t) → ∃ u u' a,
    Exec M fns n (loadsOf trace (slotCount f.fn) span 0 (targets.take i)) after u ∧
      Eval M last.toMemory last.world (parameterCell f i) (.int a) last.world ∧
      Writes M u t (.int a) u'

section Sites

variable {n k : Nat} {f : FunctionEntry} {name : Ident} {span : Span} {trace : List Span}
  {captured : Bool} {values : List (Option Expr)} {targets : List (Option VarRef)}
  {st st' : State World}

theorem stmtsMeet_noExit_storesOf {count i : Nat} :
    stmtsMeet noExit (storesOf trace count span i values) := by
  induction values generalizing i with
  | nil => trivial
  | cons v vs ih =>
    cases v with
    | none => exact ih
    | some v => exact ⟨.inl trivial, ih⟩

/-- A run that starts with a call. -/
theorem Exec.call_inv {name : Ident} {isProcedure : Bool} {callSpan : Span} {e : FunctionEntry}
    {ss : List Stmt} (he : fns.find? (·.name == name.name) = some e)
    (h : Exec M fns n (⟨.call ⟨name, [], isProcedure, true, callSpan⟩, span, trace⟩ :: ss) st st') :
    ∃ m st₁, Exec M fns m e.fn.body st st₁ ∧ Exec M fns n ss st₁ st' := by
  cases h with
  | step hs => cases hs
  | call hs hbody h =>
    obtain ⟨_, _, _, hkind, hfind⟩ := hs
    cases hkind
    cases Option.some.inj (he.symm.trans hfind)
    exact ⟨_, _, hbody, h⟩
  | exit hs =>
    obtain ⟨_, _, _, _, hkind, -⟩ := hs
    cases hkind

/-- **Every run of the code of a call is disciplined**, from a state in which the caller has no
variables in a frame, or both pointers are at its frame. -/
theorem exec_marshalled {e : FunctionEntry} {body : List Stmt} (hfns : Table fns)
    (he : fns.find? (·.name == name.name) = some e)
    (hframed : Framed e ((Taskfunc.slotNames f.fn).length + f.frame.length) f.fn.span body)
    (hpassed : Passed f.fn captured values targets) (hk : k < 2 ^ 31)
    (hframe : k = 0 ∨ st.sp = st.fp) (htargets : ∀ t, some t ∈ targets → t.Meets (cells k))
    (h : Exec M fns n (marshalled f.fn name span trace values targets) st st') :
    ∃ m before entry last after,
      Disciplined M fns n m f body span trace values targets st before entry last after st' := by
  have hmem : e ∈ fns := List.mem_of_find?_eq_some he
  have hcount := length_slotNames f.fn
  have hbound := hframed.bound
  obtain ⟨hvalues, hlength⟩ := hpassed.length_le
  rw [marshalled, List.append_assoc] at h
  obtain ⟨before, hstores, h⟩ := h.split stmtsMeet_noExit_storesOf
  obtain ⟨m, after, hcall, hloads⟩ := h.call_inv he
  have hstored := exec_stores hpassed.bound (by omega) hstores
  have hwithin := hfns.call_within hmem hcall
  -- The body of the function in its parts.
  have hexit := hfns.noExit e hmem
  rw [hframed.shape, List.append_assoc] at hcall hexit
  simp only [stmtsMeet_append] at hexit
  obtain ⟨entry, henter, hcall⟩ := hcall.split hexit.1
  obtain ⟨last, hbody, hleave⟩ := hcall.split hexit.2.1
  have hentry : entry = entered (Taskfunc.frameSize f) before := by
    rw [← List.append_nil (Taskfunc.enter _ _)] at henter
    exact (exec_enter (by omega) hbound henter).nil_inv
  have hlast : after = left (Taskfunc.frameSize f) last := exec_leave hbound hleave
  have hbodyWithin := hbody.within hfns (by omega) hframed.meets
  have hfp : entry.fp = before.sp - (Taskfunc.frameSize f : Nat) := by
    rw [hentry]
    rfl
  have hslot : ∀ i, i < slotCount f.fn → Taskfunc.firstSlot f + i < 2 ^ 31 := by
    intro i hi
    unfold Taskfunc.firstSlot
    omega
  refine ⟨m, before, entry, last, after, hstores, henter, hbody, hleave, hloads,
    ⟨hstored.sp, hstored.fp⟩, ⟨hwithin.sp, hwithin.fp⟩,
    fun a ha => hwithin.cell a ha (by omega), ?_, ?_⟩
  · intro i v hv
    obtain ⟨u, a, w, hu, hev, hcell⟩ := hstored.value i v hv
    have hi : i < slotCount f.fn := by
      obtain ⟨hi, -⟩ := List.getElem?_eq_some_iff.mp hv
      omega
    refine ⟨u, a, w, hu, hev, ?_⟩
    have hvalue : entry.cell (entry.fp + (Taskfunc.firstSlot f + i : Nat)) = a := by
      rw [hfp, parameter_address hi, hentry, ← hcell, hstored.sp, Nat.zero_add]
      simp [entered, hstored.sp, address_ne_base (f := f) (i := i) st.sp]
    rw [← hvalue]
    exact eval_parameterCell (hslot i hi)
  · intro i t ht
    have hi : i < slotCount f.fn := by
      obtain ⟨hi, -⟩ := List.getElem?_eq_some_iff.mp ht
      omega
    have hframe' : k = 0 ∨ after.sp = after.fp := by
      rw [hwithin.sp, hwithin.fp, hstored.sp, hstored.fp]
      exact hframe
    obtain ⟨u, u', hu, hwrite⟩ :=
      exec_loads hpassed.bound (by omega) hk hframe' htargets hloads ht
    refine ⟨u, u', _, hu, eval_parameterCell (hslot i hi), ?_⟩
    rw [hbodyWithin.fp, hfp, parameter_address hi, ← hwithin.sp]
    have hcell : after.cell = last.cell := by rw [hlast]; rfl
    rw [hcell, Nat.zero_add] at hwrite
    exact hwrite

end Sites

/-! ### Where a run is -/

/-- **A run is in a block that a caller may rely on**: at the entry of a frame, or in statements
that refer to the cells of a frame at which both pointers are. Behind these may be statements
that leave the frame. -/
inductive Located : List Stmt → State World → Prop
  | entering {k j : Nat} {span : Span} {body : List Stmt} {st : State World} (hj : j < 3)
    (hbound : k + 1 < 2 ^ 31) (hbody : stmtsMeet (slotted k) body) :
    Located ((Taskfunc.enter (k + 1) span).drop j ++ (body ++ Taskfunc.leave (k + 1) span)) st
  | running {k size : Nat} {span : Span} {body post : List Stmt} {st : State World}
    (hk : k < 2 ^ 31) (hbody : stmtsMeet (slotted k) body) (hframe : k = 0 ∨ st.sp = st.fp)
    (hpost : ∀ s ∈ post, s ∈ Taskfunc.leave size span) : Located (body ++ post) st

/-- What leaves a frame is assignments. -/
theorem assign_of_mem_leave {size : Nat} {span : Span} {s : Stmt}
    (h : s ∈ Taskfunc.leave size span) :
    ∃ target value, s = ⟨.assign target value, span, []⟩ := by
  simp only [Taskfunc.leave, List.mem_cons, List.not_mem_nil, or_false] at h
  rcases h with rfl | rfl | rfl <;> exact ⟨_, _, rfl⟩

theorem Step.assign_inv {target : VarRef} {value : Expr} {span : Span} {trace : List Span}
    {new : List Stmt} {st st' : State World}
    (h : Step M ⟨.assign target value, span, trace⟩ st new st') :
    new = [] ∧ ∃ d w, Eval M st.toMemory st.world value d w ∧
      Writes M { st with world := w } target d st' := by
  cases h with
  | assign hv ht => exact ⟨rfl, _, _, hv, ht⟩

section Located

variable {s : Stmt} {ss new : List Stmt} {st st' : State World}

/-- A list of statements that refer to no cells of a frame. -/
theorem located_of_slotted_zero (hss : stmtsMeet (slotted 0) ss) : Located ss st := by
  have hpost : ∀ s ∈ ([] : List Stmt), s ∈ Taskfunc.leave 0 .zero := by simp
  rw [← List.append_nil ss]
  exact .running (by decide) hss (.inl rfl) hpost

theorem Located.step (h : Located (s :: ss) st) (hs : Step M s st new st') :
    Located (new ++ ss) st' := by
  generalize hl : s :: ss = l at h
  cases h with
  | @entering k j span body _ hj hbound hbody =>
    match j, hj with
    | 0, _ =>
      cases hl
      rw [hs.assign_inv.1]
      exact .entering (j := 1) (by decide) hbound hbody
    | 1, _ =>
      cases hl
      rw [hs.assign_inv.1]
      exact .entering (j := 2) (by decide) hbound hbody
    | 2, _ =>
      cases hl
      obtain ⟨rfl, d, w, hev, hwrite⟩ := hs.assign_inv
      obtain ⟨rfl, rfl⟩ := eval_framePointer hev
      obtain ⟨n, hn, rfl⟩ := writes_stackPointer hwrite
      cases hn
      change Located (body ++ Taskfunc.leave (k + 1) span) _
      exact .running (by omega) hbody (.inr rfl) fun s hs => hs
  | @running k size span body post _ hk hbody hframe hpost =>
    cases body with
    | nil =>
      cases hl
      obtain ⟨target, value, rfl⟩ := assign_of_mem_leave (hpost s (by simp))
      rw [hs.assign_inv.1]
      have hnone : stmtsMeet (slotted 0) [] := trivial
      exact .running (by decide) hnone (.inl rfl) fun s hs => hpost s (by simp [hs])
    | cons s' body =>
      cases hl
      have hwithin := hs.within hk hbody.1
      have hnew := hs.meets (fun _ => trivial) hbody.1
      change Located (new ++ (body ++ post)) st'
      rw [← List.append_assoc]
      refine .running hk (stmtsMeet_append.mpr ⟨hnew, hbody.2⟩) ?_ hpost
      rw [hwithin.sp, hwithin.fp]
      exact hframe

theorem Located.call {e : FunctionEntry} (h : Located (s :: ss) st) (hs : Calls fns s e)
    (hwithin : Within 0 st.toMemory st'.toMemory) : Located ss st' := by
  obtain ⟨_, _, _, hkind, -⟩ := hs
  generalize hl : s :: ss = l at h
  cases h with
  | @entering k j span body _ hj hbound hbody =>
    match j, hj with
    | 0, _ | 1, _ | 2, _ =>
      cases hl
      cases hkind
  | @running k size span body post _ hk hbody hframe hpost =>
    cases body with
    | nil =>
      cases hl
      obtain ⟨target, value, rfl⟩ := assign_of_mem_leave (hpost s (by simp))
      cases hkind
    | cons s' body =>
      cases hl
      refine .running hk hbody.2 ?_ hpost
      rw [hwithin.sp, hwithin.fp]
      exact hframe

theorem Table.located (hfns : Table fns) {e : FunctionEntry} (he : e ∈ fns) :
    Located e.fn.body st := by
  rcases hfns.function e he with hplain | ⟨k, span, body, hframed⟩
  · exact located_of_slotted_zero hplain
  · rw [hframed.shape, List.append_assoc]
    exact .entering (j := 0) (by decide) hframed.bound hframed.meets

/-- **A run stays in blocks that a caller may rely on.** -/
theorem Reaches.located {ss' : List Stmt} (hfns : Table fns) (h : Reaches M fns ss st ss' st')
    (hss : Located ss st) : Located ss' st' := by
  induction h with
  | here => exact hss
  | step hs _ ih => exact ih (hss.step hs)
  | inside hs _ ih => exact ih (hfns.located (mem_of_calls hs))
  | behind hs hbody _ ih => exact ih (hss.call hs (hfns.call_within (mem_of_calls hs) hbody))

end Located

/-! ### Calls that a run comes to -/

/-- **A statement moves a pointer**: it is an assignment in which no cell of the free part is a
side. -/
def IsMove (s : Stmt) : Prop :=
  ∃ target value, s.kind = .assign target value ∧
    ∀ j span, 1 ≤ j → target ≠ freeCell j span ∧ value ≠ (freeCell j span).toExpr

section Moves

variable {f : FunctionDef} {name : Ident} {span : Span} {trace : List Span}
  {captured : Bool} {values : List (Option Expr)} {targets : List (Option VarRef)} {s : Stmt}

theorem isMove_of_mem_leave {size : Nat} (h : s ∈ Taskfunc.leave size span) : IsMove s := by
  simp only [Taskfunc.leave, List.mem_cons, List.not_mem_nil, or_false] at h
  rcases h with rfl | rfl | rfl
  all_goals
    refine ⟨_, _, rfl, fun j span' hj => ?_⟩
    rw [freeCell_eq hj]
    constructor <;> intro heq <;> cases heq

theorem isMove_of_mem_enter (size : Nat) (h : s ∈ (Taskfunc.enter size span).drop 1) :
    IsMove s := by
  simp only [Taskfunc.enter, List.drop_succ_cons, List.drop_zero, List.mem_cons, List.not_mem_nil,
    or_false] at h
  rcases h with rfl | rfl
  all_goals
    refine ⟨_, _, rfl, fun j span' hj => ?_⟩
    rw [freeCell_eq hj]
    constructor <;> intro heq <;> cases heq

theorem mem_storesOf {count i : Nat} (hi : i + values.length ≤ count)
    (h : s ∈ storesOf trace count span i values) :
    ∃ j value, 1 ≤ j ∧ s = ⟨.assign (freeCell j span) value, span, trace⟩ := by
  induction values generalizing i with
  | nil => cases h
  | cons v vs ih =>
    rw [List.length_cons] at hi
    cases v with
    | none => exact ih (by omega) h
    | some v =>
      rcases List.mem_cons.mp h with rfl | h
      · exact ⟨count - i, v, by omega, rfl⟩
      · exact ih (by omega) h

theorem mem_loadsOf {count i : Nat} (hi : i + targets.length ≤ count)
    (h : s ∈ loadsOf trace count span i targets) :
    ∃ j target, 1 ≤ j ∧ s = ⟨.assign target (freeCell j span).toExpr, span, trace⟩ := by
  induction targets generalizing i with
  | nil => cases h
  | cons v vs ih =>
    rw [List.length_cons] at hi
    cases v with
    | none => exact ih (by omega) h
    | some v =>
      rcases List.mem_cons.mp h with rfl | h
      · exact ⟨count - i, v, by omega, rfl⟩
      · exact ih (by omega) h

/-- The code of a call moves no pointer. -/
theorem not_isMove_of_mem_marshalled (hpassed : Passed f captured values targets)
    (h : s ∈ marshalled f name span trace values targets) : ¬ IsMove s := by
  obtain ⟨hvalues, htargets⟩ := hpassed.length_le
  rintro ⟨target, value, hkind, hmove⟩
  rw [marshalled, List.mem_append, List.mem_append, List.mem_singleton] at h
  rcases h with (h | rfl) | h
  · obtain ⟨j, v, hj, rfl⟩ := mem_storesOf (by omega) h
    cases hkind
    exact (hmove j span hj).1 rfl
  · cases hkind
  · obtain ⟨j, t, hj, rfl⟩ := mem_loadsOf (by omega) h
    cases hkind
    exact (hmove j span hj).2 rfl

theorem call_mem_marshalled : ⟨.call ⟨name, [], true, true, span⟩, span, trace⟩ ∈
    marshalled f name span trace values targets := by
  simp [marshalled]

/-- Where the code of a call starts, no frame is being entered. -/
theorem marshalled_ne_enter {rest tail : List Stmt} {size j : Nat} {span' : Span} (hj : j < 3)
    (hpassed : Passed f captured values targets) :
    marshalled f name span trace values targets ++ rest ≠
      (Taskfunc.enter size span').drop j ++ tail := by
  intro heq
  have hmove : ∀ s ∈ marshalled f name span trace values targets, ¬ IsMove s :=
    fun s hs => not_isMove_of_mem_marshalled hpassed hs
  have hcall : _ ∈ marshalled f name span trace values targets := call_mem_marshalled
  generalize marshalled f name span trace values targets = code at heq hmove hcall
  match j, hj, code with
  | 0, _, [x] =>
    -- The first statement of a frame is no call.
    rw [List.mem_singleton] at hcall
    cases heq
    cases hcall
  | 0, _, x :: y :: ys =>
    obtain ⟨-, heq⟩ := List.cons.inj heq
    obtain ⟨hy, -⟩ := List.cons.inj heq
    exact hmove y (by simp) (hy ▸ isMove_of_mem_enter size (.head _))
  | 1, _, x :: xs =>
    obtain ⟨hx, -⟩ := List.cons.inj heq
    exact hmove x (by simp) (hx ▸ isMove_of_mem_enter size (.head _))
  | 2, _, x :: xs =>
    obtain ⟨hx, -⟩ := List.cons.inj heq
    exact hmove x (by simp) (hx ▸ isMove_of_mem_enter size (.tail _ (.head _)))

/-- A target that is loaded is a cell of the frame, or none of the stack. -/
theorem meets_target_of_load {k j : Nat} {target : VarRef} (hj : 1 ≤ j)
    (h : Stmt.Meets (slotted k) ⟨.assign target (freeCell j span).toExpr, span, trace⟩) :
    target.Meets (cells k) := by
  rcases h with h | ⟨-, -, hvalue⟩
  · generalize hv : (freeCell j span).toExpr = value at h
    cases h with
    | store _ _ hvalue => exact absurd (hv ▸ hvalue) (not_meets_freeCell hj span)
    | load _ _ ht => exact ht
  · exact absurd (meets_slotted_iff.mp hvalue) (not_meets_freeCell hj span)

theorem meets_targets_of_loads {k count i : Nat} (hi : i + targets.length ≤ count)
    (h : stmtsMeet (slotted k) (loadsOf trace count span i targets)) :
    ∀ t, some t ∈ targets → t.Meets (cells k) := by
  induction targets generalizing i with
  | nil => simp
  | cons v vs ih =>
    rw [List.length_cons] at hi
    intro t ht
    cases v with
    | none => exact ih (by omega) h t (by simpa using ht)
    | some v =>
      rcases List.mem_cons.mp ht with heq | ht
      · cases heq
        exact meets_target_of_load (by omega) h.1
      · exact ih (by omega) h.2 t ht

/-- **Where the code of a call starts**, the targets are cells of the frame at which both
pointers are, or none of the stack. -/
theorem Located.meets_targets {rest : List Stmt} {st : State World}
    (hpassed : Passed f captured values targets)
    (h : Located (marshalled f name span trace values targets ++ rest) st) :
    ∃ k < 2 ^ 31, (k = 0 ∨ st.sp = st.fp) ∧ ∀ t, some t ∈ targets → t.Meets (cells k) := by
  generalize hl : marshalled f name span trace values targets ++ rest = l at h
  cases h with
  | entering hj => exact absurd hl (marshalled_ne_enter hj hpassed)
  | @running k size span' body post _ hk hbody hframe hpost =>
    have hcode : stmtsMeet (slotted k) (marshalled f name span trace values targets) := by
      rcases List.append_eq_append_iff.mp hl with ⟨more, rfl, -⟩ | ⟨more, hmore, rfl⟩
      · exact (stmtsMeet_append.mp hbody).1
      · -- No part of the code of a call leaves a frame.
        cases more with
        | nil => rw [hmore, List.append_nil]; exact hbody
        | cons s more =>
          have hs : s ∈ marshalled f name span trace values targets := by simp [hmore]
          exact absurd (isMove_of_mem_leave (hpost s (by simp)))
            (not_isMove_of_mem_marshalled hpassed hs)
    rw [marshalled, stmtsMeet_append] at hcode
    obtain ⟨-, htargets⟩ := hpassed.length_le
    exact ⟨k, hk, hframe, meets_targets_of_loads (by omega) hcode.2⟩

end Moves

/-- **Every call that a run comes to is disciplined.** -/
theorem Reaches.disciplined {ss rest : List Stmt} {n : Nat} {f e : FunctionEntry} {name : Ident}
    {span : Span} {trace : List Span} {captured : Bool} {values : List (Option Expr)}
    {targets : List (Option VarRef)} {body : List Stmt} {st st₁ st' : State World}
    (hfns : Table fns) (he : fns.find? (·.name == name.name) = some e)
    (hframed : Framed e ((Taskfunc.slotNames f.fn).length + f.frame.length) f.fn.span body)
    (hpassed : Passed f.fn captured values targets) (hss : stmtsMeet (slotted 0) ss)
    (hreach : Reaches M fns ss st (marshalled f.fn name span trace values targets ++ rest) st₁)
    (h : Exec M fns n (marshalled f.fn name span trace values targets) st₁ st') :
    ∃ m before entry last after,
      Disciplined M fns n m f body span trace values targets st₁ before entry last after st' := by
  have hlocated := hreach.located hfns (located_of_slotted_zero hss)
  obtain ⟨k, hk, hframe, htargets⟩ := hlocated.meets_targets hpassed
  exact exec_marshalled hfns he hframed hpassed hk hframe htargets h

end FlatScript.Stack
