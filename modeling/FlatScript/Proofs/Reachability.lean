import FlatScript.CallGraph.Basic
import Mathlib.Data.List.Sort

/-!
# What the calls lead to

Whether calls lead from one caller to a function is a relation, `FlatScript.CallGraph.LeadsTo`.
The search for reachable functions decides it: what it finds is led to, what it finds is closed
under calls, and its bound on the number of steps is never met, because every step either takes a
name off the list of names to look at or puts the calls of one more function on it.

* `FlatScript.CallGraph.mem_reachableFrom` is the statement for any start.
* `FlatScript.CallGraph.mem_reachableFromRoot` is the statement for the callbacks.
-/

namespace FlatScript

/-! ### Lists of names -/

namespace Name

variable {names : List String} {name v : String}

theorem mem_insertNew : v ∈ insertNew names name ↔ v ∈ names ∨ v = name := by
  unfold insertNew
  split
  · next hold =>
    have hname : name ∈ names := by simpa using hold
    constructor
    · exact .inl
    · rintro (hv | rfl)
      · exact hv
      · exact hname
  · simp

theorem mem_distinct : v ∈ distinct names ↔ v ∈ names := by
  have hfold : ∀ names seen : List String,
      v ∈ names.foldl insertNew seen ↔ v ∈ seen ∨ v ∈ names := by
    intro names
    induction names with
    | nil => simp
    | cons name names ih =>
      intro seen
      rw [List.foldl_cons, ih, mem_insertNew, List.mem_cons, or_assoc]
  have hall := hfold names []
  rwa [List.mem_nil_iff, false_or] at hall

theorem nodup_insertNew (h : names.Nodup) : (insertNew names name).Nodup := by
  unfold insertNew
  split
  · exact h
  · next hnew =>
    refine List.nodup_append'.mpr ⟨h, List.nodup_singleton name, ?_⟩
    simpa using hnew

theorem nodup_distinct (names : List String) : (distinct names).Nodup :=
  List.foldlRecOn names insertNew List.nodup_nil fun _ h _ _ => nodup_insertNew h

/-- Names are sorted by insertion. -/
theorem sorted_eq_insertionSort (names : List String) :
    sorted names = names.insertionSort (· ≤ ·) := by
  have hinsert : ∀ (name : String) (ns : List String),
      insertSorted name ns = ns.orderedInsert (· ≤ ·) name := by
    intro name ns
    induction ns with
    | nil => rfl
    | cons n ns ih => rw [insertSorted, List.orderedInsert, ih]
  induction names with
  | nil => rfl
  | cons name names ih => exact (hinsert name _).trans (congrArg _ ih)

theorem perm_sorted (names : List String) : (sorted names).Perm names :=
  sorted_eq_insertionSort names ▸ List.perm_insertionSort _ names

theorem mem_sorted : v ∈ sorted names ↔ v ∈ names := (perm_sorted names).mem_iff

theorem pairwise_sorted (names : List String) : (sorted names).Pairwise (· ≤ ·) := by
  have htotal : Std.Total fun a b : String => a ≤ b := ⟨String.le_total⟩
  have htrans : IsTrans String fun a b => a ≤ b := ⟨fun _ _ _ => String.le_trans⟩
  exact sorted_eq_insertionSort names ▸ List.pairwise_insertionSort _ names

/-- The order of names does not depend on the order in which they were given. -/
theorem sorted_eq_of_perm {names' : List String} (h : names.Perm names') :
    sorted names = sorted names' :=
  List.Perm.eq_of_pairwise (fun _ _ _ _ => String.le_antisymm) (pairwise_sorted names)
    (pairwise_sorted names') ((perm_sorted names).trans (h.trans (perm_sorted names').symm))

end Name

namespace CallGraph

/-! ### Chains of calls -/

/-- **Calls lead from a caller to a function**, by at least one call. -/
inductive LeadsTo (g : CallGraph) (c : Caller) : String → Prop
  | call {n} (h : (c, n) ∈ g.calls) : LeadsTo g c n
  | step {m n} (hm : LeadsTo g c m) (h : (some m, n) ∈ g.calls) : LeadsTo g c n

/-- **The functions of a graph are all that are called and all that call.** -/
def Complete (g : CallGraph) : Prop :=
  ∀ call ∈ g.calls, (∀ n ∈ call.1, n ∈ g.functions) ∧ call.2 ∈ g.functions

variable {g : CallGraph} {c : Caller} {m n : String}

/-- A call in front of others. -/
theorem LeadsTo.head (h : (c, m) ∈ g.calls) (hn : g.LeadsTo (some m) n) : g.LeadsTo c n := by
  induction hn with
  | call hcall => exact .step (.call h) hcall
  | step _ hcall ih => exact .step ih hcall

/-- Calls that lead somewhere start with one. -/
theorem LeadsTo.exists_first (h : g.LeadsTo c n) :
    ∃ m, (c, m) ∈ g.calls ∧ (m = n ∨ g.LeadsTo (some m) n) := by
  induction h with
  | call hcall => exact ⟨_, hcall, .inl rfl⟩
  | step _ hcall ih =>
    obtain ⟨m, hm, rfl | hled⟩ := ih
    · exact ⟨m, hm, .inr (.call hcall)⟩
    · exact ⟨m, hm, .inr (.step hled hcall)⟩

/-- What calls lead to is a function of the graph. -/
theorem LeadsTo.mem_functions (hg : g.Complete) (h : g.LeadsTo c n) : n ∈ g.functions := by
  cases h with
  | call hcall => exact (hg _ hcall).2
  | step _ hcall => exact (hg _ hcall).2

/-- Recording a call keeps a graph complete. -/
theorem Complete.addCall (h : g.Complete) (c : Caller) (n : String) : (g.addCall c n).Complete := by
  intro call hcall
  have hmem : call ∈ g.calls ∨ call = (c, n) := by
    cases c <;> simpa [CallGraph.addCall, ensure] using hcall
  have hsub : ∀ m, m ∈ g.functions ∨ some m = c ∨ m = n → m ∈ (g.addCall c n).functions := by
    intro m hm
    cases c <;> simpa [CallGraph.addCall, ensure, Name.mem_insertNew, or_assoc] using hm
  rcases hmem with hmem | rfl
  · exact ⟨fun m hm => hsub m (.inl ((h call hmem).1 m hm)), hsub _ (.inl (h call hmem).2)⟩
  · exact ⟨fun m hm => hsub m (.inr (.inl hm.symm)), hsub n (.inr (.inr rfl))⟩

theorem mem_callees : n ∈ g.callees c ↔ (c, n) ∈ g.calls := by
  simp only [callees, List.mem_filterMap, Option.ite_none_right_eq_some, Option.some.injEq]
  constructor
  · rintro ⟨⟨c', n'⟩, hmem, rfl, rfl⟩
    exact hmem
  · exact fun h => ⟨(c, n), h, rfl, rfl⟩

/-! ### The bound -/

/-- Whether a call is one of a function that has not been looked at. -/
def isPending (done : List String) (call : Caller × String) : Bool :=
  call.1.any fun n => !done.contains n

/-- The number of calls of functions that have not been looked at. -/
def pending (g : CallGraph) (done : List String) : Nat := g.calls.countP (isPending done)

/-- Looking at a function takes its calls off those that are left. -/
theorem pending_append (g : CallGraph) {done : List String} (hn : n ∉ done) :
    g.pending done = g.pending (done ++ [n]) + (g.callees (some n)).length := by
  unfold pending callees
  induction g.calls with
  | nil => rfl
  | cons call calls ih =>
    obtain ⟨c, callee⟩ := call
    by_cases hc : c = some n
    · have hbefore : isPending done (c, callee) = true := by simp [isPending, hc, hn]
      have hafter : ¬ isPending (done ++ [n]) (c, callee) = true := by simp [isPending, hc]
      rw [List.countP_cons_of_pos hbefore, List.countP_cons_of_neg hafter, List.filterMap_cons]
      simp only [if_pos hc, List.length_cons] at ih ⊢
      omega
    · have hsame : isPending (done ++ [n]) (c, callee) = isPending done (c, callee) := by
        cases c with
        | none => rfl
        | some m =>
          have hne : m ≠ n := fun h => hc (congrArg some h)
          simp [isPending, hne]
      rw [List.countP_cons, List.countP_cons, hsame, List.filterMap_cons]
      simp only [if_neg hc] at ih ⊢
      omega

/-! ### The search -/

/-- What the search finds is led to from where it starts. -/
theorem sound_reach {fuel : Nat} {ns done : List String} (h : n ∈ g.reach fuel ns done) :
    n ∈ done ∨ ∃ m ∈ ns, n = m ∨ g.LeadsTo (some m) n := by
  induction fuel generalizing ns done with
  | zero => exact .inl h
  | succ fuel ih =>
    cases ns with
    | nil => exact .inl h
    | cons m ns =>
      unfold reach at h
      split at h
      · rcases ih h with h | ⟨m', hm', h⟩
        · exact .inl h
        · exact .inr ⟨m', by simp [hm'], h⟩
      · rcases ih h with h | ⟨m', hm', h⟩
        · rcases List.mem_append.mp h with h | h
          · exact .inl h
          · exact .inr ⟨m, by simp, .inl (List.mem_singleton.mp h)⟩
        · rcases List.mem_append.mp hm' with hm' | hm'
          · -- A callee of the function that is looked at.
            have hcall := mem_callees.mp hm'
            refine .inr ⟨m, by simp, .inr ?_⟩
            rcases h with rfl | h
            · exact .call hcall
            · exact .head hcall h
          · exact .inr ⟨m', by simp [hm'], h⟩

/-- The calls of what has been looked at are done or on the list. -/
def Closed (g : CallGraph) (ns done : List String) : Prop :=
  ∀ m ∈ done, ∀ n ∈ g.callees (some m), n ∈ done ∨ n ∈ ns

/-- A function that has been looked at is taken off the list. -/
theorem Closed.skip {m : String} {ns done : List String} (h : g.Closed (m :: ns) done)
    (hm : m ∈ done) : g.Closed ns done := by
  intro k hk n hn
  rcases h k hk n hn with hn | hn
  · exact .inl hn
  · rcases List.mem_cons.mp hn with rfl | hn
    · exact .inl hm
    · exact .inr hn

/-- A new function is looked at, and what it calls is put on the list. -/
theorem Closed.enter {m : String} {ns done : List String} (h : g.Closed (m :: ns) done) :
    g.Closed (g.callees (some m) ++ ns) (done ++ [m]) := by
  intro k hk n hn
  rcases List.mem_append.mp hk with hk | hk
  · rcases h k hk n hn with hn | hn
    · exact .inl (by simp [hn])
    · rcases List.mem_cons.mp hn with rfl | hn
      · exact .inl (by simp)
      · exact .inr (by simp [hn])
  · rw [List.mem_singleton.mp hk] at hn
    exact .inr (by simp [hn])

/-- **With enough steps, what the search finds is closed under calls**, and has in it what it
started from. -/
theorem closed_reach {fuel : Nat} {ns done : List String}
    (hfuel : ns.length + g.pending done ≤ fuel) (hdone : g.Closed ns done) :
    g.Closed [] (g.reach fuel ns done) ∧ ∀ n, n ∈ ns ∨ n ∈ done → n ∈ g.reach fuel ns done := by
  induction fuel generalizing ns done with
  | zero =>
    have hnil : ns = [] := List.length_eq_zero_iff.mp (by omega)
    subst hnil
    exact ⟨hdone, fun n hn => hn.resolve_left (by simp)⟩
  | succ fuel ih =>
    cases ns with
    | nil => exact ⟨hdone, fun n hn => hn.resolve_left (by simp)⟩
    | cons m ns =>
      rw [List.length_cons] at hfuel
      unfold reach
      -- What is done already costs a name of the queue, and anything else a name that is pending.
      split
      · next hm =>
        have hm' : m ∈ done := by simpa using hm
        obtain ⟨hresult, hin⟩ := ih (by omega) (hdone.skip hm')
        refine ⟨hresult, fun n hn => hin n ?_⟩
        rcases hn with hn | hn
        · exact (List.mem_cons.mp hn).elim (fun heq => .inr (heq ▸ hm')) .inl
        · exact .inr hn
      · next hm =>
        have hm' : m ∉ done := by simpa using hm
        have hpending := g.pending_append hm'
        have hsteps : (g.callees (some m) ++ ns).length + g.pending (done ++ [m]) ≤ fuel := by
          rw [List.length_append]
          omega
        obtain ⟨hresult, hin⟩ := ih hsteps hdone.enter
        refine ⟨hresult, fun n hn => hin n ?_⟩
        rcases hn with hn | hn
        · rcases List.mem_cons.mp hn with rfl | hn
          · exact .inr (by simp)
          · exact .inl (by simp [hn])
        · exact .inr (by simp [hn])

/-- **The search finds exactly what calls lead to**, and where it starts. -/
theorem mem_reachableFrom {starts : List String} :
    n ∈ g.reachableFrom starts ↔ ∃ m ∈ starts, n = m ∨ g.LeadsTo (some m) n := by
  have hfuel : starts.length + g.pending [] ≤ starts.length + g.calls.length :=
    Nat.add_le_add_left List.countP_le_length _
  obtain ⟨hclosed, hin⟩ := closed_reach hfuel (g := g) (by simp [Closed])
  constructor
  · intro h
    exact (sound_reach h).resolve_left (by simp)
  · rintro ⟨m, hm, rfl | h⟩
    · exact hin n (.inl hm)
    · have hcalls : ∀ k ∈ g.reachableFrom starts, ∀ n, (some k, n) ∈ g.calls →
          n ∈ g.reachableFrom starts := fun k hk n hcall =>
        (hclosed k hk n (mem_callees.mpr hcall)).resolve_right List.not_mem_nil
      induction h with
      | call hcall => exact hcalls m (hin m (.inl hm)) _ hcall
      | step _ hcall ih => exact hcalls _ ih _ hcall

/-- What can be reached from the functions that a caller calls is what calls lead to. -/
theorem mem_reachableFrom_callees : n ∈ g.reachableFrom (g.callees c) ↔ g.LeadsTo c n := by
  rw [mem_reachableFrom]
  constructor
  · rintro ⟨m, hm, rfl | h⟩
    · exact .call (mem_callees.mp hm)
    · exact .head (mem_callees.mp hm) h
  · intro h
    obtain ⟨m, hm, hback⟩ := h.exists_first
    exact ⟨m, mem_callees.mpr hm, hback.imp_left Eq.symm⟩

/-- **The functions that a callback reaches** are those that calls lead to from the root. -/
theorem mem_reachableFromRoot : n ∈ g.reachableFromRoot ↔ g.LeadsTo none n :=
  mem_reachableFrom_callees

end CallGraph

end FlatScript
