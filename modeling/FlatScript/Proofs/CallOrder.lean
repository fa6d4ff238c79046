import FlatScript.Arrangement
import FlatScript.Proofs.Circles
import Mathlib.Data.List.Nodup

/-!
# The order of functions

A depth-first search enters every caller once and leaves it once, so no function stands twice
in the order in which it leaves them, and none is written twice. Without circles of calls it
leaves what a caller calls before the caller.

* `FlatScript.CallGraph.Walk.Along` is the invariant of the search: the callers that have been
  entered are those that have been left and those on the way to where the search is.
* `FlatScript.CallGraph.Halfway` adds that the way is one through the graph, so that its length
  is bounded.
* `FlatScript.CallGraph.Walk.Sorted` is the invariant without circles: what has been left stands
  behind all that it calls.
* `FlatScript.CallGraph.mem_topologicalOrder` and `FlatScript.CallGraph.idxOf_lt_of_call` say what
  the order of the functions is, and `FlatScript.Arrangement.mem_names_written` and
  `FlatScript.Arrangement.written_before` what is written of them.
-/

namespace FlatScript

namespace CallGraph

variable {g : CallGraph} {w : Walk} {path cs : List Caller} {c : Caller} {m n : String}

/-- **How far a search has come, on the way along a path.** -/
structure Walk.Along (path : List Caller) (w : Walk) : Prop where
  entered : ∀ c, c ∈ w.entered ↔ c ∈ w.left ∨ c ∈ path
  apart : ∀ c ∈ path, c ∉ w.left
  nodup : w.left.Nodup

/-- Entering a caller makes the path longer. -/
theorem Walk.Along.enter (hw : w.Along path) (hc : c ∉ w.entered) :
    Walk.Along (c :: path) { w with entered := c :: w.entered } := by
  refine ⟨fun c' => ?_, fun c' hc' hleft => ?_, hw.nodup⟩
  · simp only [List.mem_cons, hw.entered c']
    tauto
  · rcases List.mem_cons.mp hc' with rfl | hc'
    · exact hc ((hw.entered c').mpr (.inl hleft))
    · exact hw.apart c' hc' hleft

/-- Leaving the last caller of the path makes it shorter. -/
theorem Walk.Along.leave (hw : w.Along (c :: path)) (hc : c ∉ path) :
    Walk.Along path { w with left := w.left ++ [c] } := by
  have hleft : c ∉ w.left := hw.apart c (by simp)
  refine ⟨fun c' => ?_, fun c' hc' hmem => ?_, ?_⟩
  · simp only [hw.entered c', List.mem_append, List.mem_cons, List.not_mem_nil, or_false]
    tauto
  · rcases List.mem_append.mp hmem with hmem | hmem
    · exact hw.apart c' (by simp [hc']) hmem
    · exact hc (List.mem_singleton.mp hmem ▸ hc')
  · exact List.nodup_append'.mpr ⟨hw.nodup, List.nodup_singleton c, by simpa using hleft⟩

/-- What a search keeps at every caller, it keeps over a list of them. -/
theorem Walk.Along.foldl {visit : Walk → Caller → Walk}
    (hvisit : ∀ w c, Walk.Along path w → Walk.Along path (visit w c)) (hw : w.Along path)
    (cs : List Caller) : (cs.foldl visit w).Along path := by
  induction cs generalizing w with
  | nil => exact hw
  | cons c cs ih => exact ih (hvisit w c hw)

/-- **Visiting a caller ends where it has started**: on the same path. -/
theorem visit_along (fuel : Nat) (hw : w.Along path) : (g.visit fuel w c).Along path := by
  induction fuel generalizing w path c with
  | zero => exact hw
  | succ fuel ih =>
    unfold visit
    split
    · exact hw
    · next hc =>
      have hc' : c ∉ w.entered := by simpa using hc
      have hpath : c ∉ path := fun h => hc' ((hw.entered c).mpr (.inr h))
      exact ((hw.enter hc').foldl (fun _ _ h => ih h) _).leave hpath

/-! ### What is entered and what is left -/

/-- A caller that has been entered is not visited again. -/
theorem visit_of_entered {fuel : Nat} (hc : c ∈ w.entered) : g.visit fuel w c = w := by
  rcases fuel with _ | fuel
  · rfl
  · exact if_pos (by simpa using hc)

/-- Over a list of callers, what a visit adds to what has been entered is kept. -/
theorem entered_subset_foldl {visit : Walk → Caller → Walk}
    (hvisit : ∀ w c, w.entered ⊆ (visit w c).entered) (w : Walk) (cs : List Caller) :
    w.entered ⊆ (cs.foldl visit w).entered := by
  induction cs generalizing w with
  | nil => exact List.Subset.refl _
  | cons c cs ih => exact List.Subset.trans (hvisit w c) (ih _)

/-- Nothing that has been entered is forgotten. -/
theorem entered_subset_visit (fuel : Nat) (w : Walk) (c : Caller) :
    w.entered ⊆ (g.visit fuel w c).entered := by
  induction fuel generalizing w c with
  | zero => exact List.Subset.refl _
  | succ fuel ih =>
    unfold visit
    split
    · exact List.Subset.refl _
    · intro d hd
      exact entered_subset_foldl ih _ _ (List.mem_cons_of_mem c hd)

/-- A visit enters a caller, if it goes to any depth. -/
theorem mem_entered_visit (fuel : Nat) (w : Walk) (c : Caller) :
    c ∈ (g.visit (fuel + 1) w c).entered := by
  unfold visit
  split
  · next hc => simpa using hc
  · exact entered_subset_foldl (entered_subset_visit fuel) _ _ List.mem_cons_self

/-- All callers of a list are entered. -/
theorem mem_entered_foldl_visit (fuel : Nat) (w : Walk) (hc : c ∈ cs) :
    c ∈ (cs.foldl (g.visit (fuel + 1)) w).entered := by
  induction cs generalizing w with
  | nil => cases hc
  | cons d cs ih =>
    rcases List.mem_cons.mp hc with rfl | hc
    · exact entered_subset_foldl (entered_subset_visit _) _ cs (mem_entered_visit fuel w c)
    · exact ih _ hc

/-- A search that visits a list of callers ends where it has started. -/
theorem foldl_visit_along (fuel : Nat) (hw : w.Along path) (cs : List Caller) :
    (cs.foldl (g.visit fuel) w).Along path :=
  hw.foldl (fun _ _ h => visit_along fuel h) cs

/-- A search that has not started is on no path. -/
theorem Walk.along_nil : Walk.Along [] {} := ⟨by simp, by simp, List.nodup_nil⟩

/-- No caller is left twice. -/
theorem nodup_leavingOrder (g : CallGraph) : g.leavingOrder.Nodup :=
  (foldl_visit_along _ Walk.along_nil g.sortedCallers).nodup

/-- **Every caller is left**, whether there are circles or not. -/
theorem mem_leavingOrder (hc : c ∈ g.sortedCallers) : c ∈ g.leavingOrder := by
  have hend := foldl_visit_along (g.functions.length + 1) Walk.along_nil (g := g) g.sortedCallers
  exact ((hend.entered c).mp (mem_entered_foldl_visit _ _ hc)).resolve_right (by simp)

/-! ### Callers of the graph -/

theorem mem_sortedCallers (hg : g.Complete) {c' : Caller} {n : String} (h : (c', n) ∈ g.calls) :
    some n ∈ g.sortedCallers :=
  List.mem_cons_of_mem _ (List.mem_map_of_mem (Name.mem_sorted.mpr (hg _ h).2))

theorem caller_mem_sortedCallers (hg : g.Complete) (h : (c, n) ∈ g.calls) :
    c ∈ g.sortedCallers := by
  rcases c with _ | m
  · exact List.mem_cons_self
  · exact List.mem_cons_of_mem _ (List.mem_map_of_mem (Name.mem_sorted.mpr ((hg _ h).1 m rfl)))

theorem length_sortedCallers (g : CallGraph) :
    g.sortedCallers.length = g.functions.length + 1 := by
  simp [sortedCallers, (Name.perm_sorted g.functions).length_eq]

/-- Only callers of the graph are left. -/
theorem left_subset_visit (hg : g.Complete) (fuel : Nat) (hc : c ∈ g.sortedCallers)
    (hw : w.left ⊆ g.sortedCallers) : (g.visit fuel w c).left ⊆ g.sortedCallers := by
  induction fuel generalizing w c with
  | zero => exact hw
  | succ fuel ih =>
    unfold visit
    split
    · exact hw
    · have hentered : ({ w with entered := c :: w.entered } : Walk).left ⊆ g.sortedCallers := hw
      refine List.append_subset.mpr ⟨?_, List.cons_subset.mpr ⟨hc, List.nil_subset _⟩⟩
      refine List.foldlRecOn (motive := fun w => w.left ⊆ g.sortedCallers)
        ((g.callees c).map some) (g.visit fuel) hentered fun w hw d hd => ?_
      obtain ⟨n, hn, rfl⟩ := List.mem_map.mp hd
      exact ih (mem_sortedCallers hg (mem_callees.mp hn)) hw

theorem mem_leavingOrder_iff (hg : g.Complete) : c ∈ g.leavingOrder ↔ c ∈ g.sortedCallers := by
  refine ⟨fun h => ?_, mem_leavingOrder⟩
  have hleft : g.leavingOrder ⊆ g.sortedCallers :=
    List.foldlRecOn (motive := fun w => w.left ⊆ g.sortedCallers) g.sortedCallers (g.visit _)
      (List.nil_subset _) fun _ hw _ hd => left_subset_visit hg _ hd hw
  exact hleft h

/-- **How far a search has come, on the way along a path of callers of the graph** that has none of
them twice. -/
structure Halfway (g : CallGraph) (path : List Caller) (w : Walk) : Prop where
  along : w.Along path
  nodup : path.Nodup
  callers : path ⊆ g.sortedCallers

/-- A caller that is not on the way was left, if it has been entered. -/
theorem Halfway.mem_left (hw : g.Halfway path w) (hc : c ∉ path) (hentered : c ∈ w.entered) :
    c ∈ w.left :=
  ((hw.along.entered c).mp hentered).resolve_right hc

theorem Halfway.enter (hw : g.Halfway path w) (hc : c ∈ g.sortedCallers) (hnew : c ∉ w.entered) :
    g.Halfway (c :: path) { w with entered := c :: w.entered } := by
  have hpath : c ∉ path := fun h => hnew ((hw.along.entered c).mpr (.inr h))
  exact ⟨hw.along.enter hnew, List.nodup_cons.mpr ⟨hpath, hw.nodup⟩,
    List.cons_subset.mpr ⟨hc, hw.callers⟩⟩

/-- Not all callers are on the way when there is one that has not been entered. -/
theorem Halfway.length_lt (hw : g.Halfway path w) (hc : c ∈ g.sortedCallers)
    (hnew : c ∉ w.entered) : path.length < g.functions.length + 1 := by
  have hentered := hw.enter hc hnew
  have hbound := hentered.nodup.length_le_of_subset hentered.callers
  rwa [length_sortedCallers, List.length_cons] at hbound

/-! ### Callees before callers -/

/-- One caller is called by another one. -/
def CalledBy (g : CallGraph) (c c' : Caller) : Prop := ∃ n, c = some n ∧ (c', n) ∈ g.calls

/-- Callers that stand behind all that they call. -/
def CalleesFirst (g : CallGraph) (cs : List Caller) : Prop :=
  ∀ before c after, cs = before ++ c :: after → ∀ n ∈ g.callees c, some n ∈ before

/-- **How far a search without circles has come**, on the way along a chain of calls. -/
structure Walk.Sorted (g : CallGraph) (path : List Caller) (w : Walk) : Prop where
  along : w.Along path
  chain : path.IsChain g.CalledBy
  nodup : path.Nodup
  callers : path ⊆ g.sortedCallers
  sorted : g.CalleesFirst w.left

theorem Walk.Sorted.halfway (hw : w.Sorted g path) : g.Halfway path w :=
  ⟨hw.along, hw.nodup, hw.callers⟩

/-- The callers behind the first one of a chain lead to it. -/
theorem leadsTo_of_chain (h : (c :: path).IsChain g.CalledBy) {c' : Caller} (hc' : c' ∈ path) :
    ∃ n, c = some n ∧ g.LeadsTo c' n := by
  induction path generalizing c with
  | nil => cases hc'
  | cons d path ih =>
    obtain ⟨⟨n, rfl, hcall⟩, hrest⟩ := List.isChain_cons_cons.mp h
    refine ⟨n, rfl, ?_⟩
    rcases List.mem_cons.mp hc' with rfl | hc'
    · exact .call hcall
    · obtain ⟨m, rfl, hled⟩ := ih hrest hc'
      exact .step hled hcall

/-- Leaving a caller when all that it calls has been entered. -/
theorem Walk.Sorted.leave (hacyclic : g.Acyclic) (hw : w.Sorted g (c :: path))
    (hcallees : ∀ n ∈ g.callees c, some n ∈ w.entered) :
    Walk.Sorted g path { w with left := w.left ++ [c] } := by
  have hc := List.nodup_cons.mp hw.nodup
  refine ⟨hw.along.leave hc.1, hw.chain.of_cons, hc.2, fun _ h => hw.callers (by simp [h]), ?_⟩
  have hleft : ∀ n ∈ g.callees c, some n ∈ w.left := by
    intro n hn
    have hcall := mem_callees.mp hn
    rcases (hw.along.entered _).mp (hcallees n hn) with hleft | hpath
    · exact hleft
    · -- What is on the way leads here, so the call would close a circle.
      refine absurd ?_ (hacyclic n)
      rcases List.mem_cons.mp hpath with rfl | hpath
      · exact .call hcall
      · obtain ⟨m, rfl, hled⟩ := leadsTo_of_chain hw.chain hpath
        exact .step hled hcall
  intro before c' after heq n hn
  rcases List.eq_nil_or_concat after with rfl | ⟨after', last, rfl⟩
  · obtain ⟨rfl, hlast⟩ := List.append_inj' heq rfl
    obtain rfl : c = c' := by simpa using hlast
    exact hleft n hn
  · rw [List.concat_eq_append, ← List.cons_append, ← List.append_assoc] at heq
    exact hw.sorted before c' after' (List.append_inj' heq rfl).1 n hn

/-- What a search keeps at every caller of a list, it keeps over the list, and it enters all of
them. -/
theorem Walk.Sorted.foldl {fuel : Nat} (cs : List Caller)
    (hvisit : ∀ c ∈ cs, ∀ w, Walk.Sorted g path w →
      Walk.Sorted g path (g.visit fuel w c) ∧ c ∈ (g.visit fuel w c).entered)
    (hw : w.Sorted g path) : (cs.foldl (g.visit fuel) w).Sorted g path ∧
      ∀ c ∈ cs, c ∈ (cs.foldl (g.visit fuel) w).entered := by
  induction cs generalizing w with
  | nil => exact ⟨hw, by simp⟩
  | cons c cs ih =>
    obtain ⟨hfirst, hc⟩ := hvisit c List.mem_cons_self w hw
    obtain ⟨hrest, hcs⟩ := ih (fun c' hc' => hvisit c' (List.mem_cons_of_mem c hc')) hfirst
    refine ⟨hrest, fun c' hc' => ?_⟩
    rcases List.mem_cons.mp hc' with rfl | hc'
    · exact entered_subset_foldl (entered_subset_visit fuel) _ cs hc
    · exact hcs c' hc'

/-- **Visiting a caller at the end of a chain of calls** enters it and keeps the order. The bound
on chains is never met, since no caller is twice on the way. -/
theorem visit_sorted (hg : g.Complete) (hacyclic : g.Acyclic) (fuel : Nat)
    (hfuel : fuel + path.length = g.functions.length + 1) (hc : c ∈ g.sortedCallers)
    (hchain : (c :: path).IsChain g.CalledBy) (hw : w.Sorted g path) :
    (g.visit fuel w c).Sorted g path ∧ c ∈ (g.visit fuel w c).entered := by
  induction fuel generalizing w path c with
  | zero =>
    -- The path is as long as there are callers, so this one is on it.
    refine ⟨hw, ?_⟩
    by_contra hnew
    have hbound := hw.halfway.length_lt hc hnew
    omega
  | succ fuel ih =>
    unfold visit
    split
    · next hold => exact ⟨hw, by simpa using hold⟩
    · next hnew =>
      obtain ⟨halong, hnodup, hcallers⟩ := hw.halfway.enter hc (by simpa using hnew)
      have hentered : Walk.Sorted g (c :: path) { w with entered := c :: w.entered } :=
        ⟨halong, hchain, hnodup, hcallers, hw.sorted⟩
      have hvisit : ∀ d ∈ (g.callees c).map some, ∀ w, Walk.Sorted g (c :: path) w →
          Walk.Sorted g (c :: path) (g.visit fuel w d) ∧ d ∈ (g.visit fuel w d).entered := by
        intro d hd w hw
        obtain ⟨n, hn, rfl⟩ := List.mem_map.mp hd
        have hcall := mem_callees.mp hn
        exact ih (by rw [List.length_cons]; omega) (mem_sortedCallers hg hcall)
          (List.isChain_cons_cons.mpr ⟨⟨n, rfl, hcall⟩, hchain⟩) hw
      obtain ⟨hafter, hcallees⟩ := hentered.foldl _ hvisit
      refine ⟨hafter.leave hacyclic fun n hn => hcallees _ (List.mem_map_of_mem hn), ?_⟩
      exact entered_subset_foldl (entered_subset_visit fuel) _ _ List.mem_cons_self

/-- **Without circles, the search leaves each caller behind all that it calls.** -/
theorem leavingOrder_sorted (hg : g.Complete) (hacyclic : g.Acyclic) :
    g.CalleesFirst g.leavingOrder := by
  have hstart : Walk.Sorted g [] {} :=
    ⟨Walk.along_nil, .nil, List.nodup_nil, List.nil_subset _, by simp [CalleesFirst]⟩
  exact (hstart.foldl g.sortedCallers fun c hc w hw =>
    visit_sorted hg hacyclic (g.functions.length + 1) rfl hc (.singleton c) hw).1.sorted

/-- **Without circles, the order of the functions is the one in which they are left**, turned
around. -/
theorem topologicalOrder_eq (hacyclic : g.Acyclic) :
    g.topologicalOrder = g.leavingOrder.reverse.filterMap id := by
  refine if_neg fun hany => ?_
  obtain ⟨n, -, hcycle⟩ := List.any_eq_true.mp hany
  exact hacyclic n (onCycle_iff.mp hcycle)

/-- **With a circle of calls, there is no order.** -/
theorem topologicalOrder_eq_nil (hg : g.Complete) (hcircle : ¬ g.Acyclic) :
    g.topologicalOrder = [] := by
  unfold Acyclic at hcircle
  push Not at hcircle
  obtain ⟨n, hled⟩ := hcircle
  exact if_pos (List.any_eq_true.mpr ⟨n, mem_suspects hg hled, onCycle_iff.mpr hled⟩)

/-! ### The order -/

/-- **No function stands twice in the order.** -/
theorem nodup_topologicalOrder (g : CallGraph) : g.topologicalOrder.Nodup := by
  unfold topologicalOrder
  split
  · exact List.nodup_nil
  · refine (List.nodup_reverse.mpr g.nodup_leavingOrder).filterMap ?_
    rintro c c' name hc hc'
    exact hc.trans hc'.symm

/-- **Without circles, all functions stand in the order**, and nothing else. -/
theorem mem_topologicalOrder (hg : g.Complete) (hacyclic : g.Acyclic) :
    n ∈ g.topologicalOrder ↔ n ∈ g.functions := by
  rw [topologicalOrder_eq hacyclic, List.mem_filterMap]
  simp only [List.mem_reverse, mem_leavingOrder_iff hg, sortedCallers, List.mem_cons,
    List.mem_map, Name.mem_sorted, id_eq]
  constructor
  · rintro ⟨c, rfl | ⟨m, hm, rfl⟩, hc⟩
    · cases hc
    · exact Option.some.inj hc ▸ hm
  · exact fun hn => ⟨some n, .inr ⟨n, hn, rfl⟩, rfl⟩

/-- **Without circles, a caller stands before what it calls.** -/
theorem idxOf_lt_of_call (hg : g.Complete) (hacyclic : g.Acyclic) (hcall : (some m, n) ∈ g.calls) :
    g.topologicalOrder.idxOf m < g.topologicalOrder.idxOf n := by
  have hm : some m ∈ g.leavingOrder := mem_leavingOrder (caller_mem_sortedCallers hg hcall)
  obtain ⟨before, after, hsplit⟩ := List.append_of_mem hm
  have hbefore : n ∈ before.reverse.filterMap id :=
    List.mem_filterMap.mpr ⟨some n, List.mem_reverse.mpr (leavingOrder_sorted hg hacyclic
      before (some m) after hsplit n (mem_callees.mpr hcall)), rfl⟩
  have horder : g.topologicalOrder =
      after.reverse.filterMap id ++ m :: before.reverse.filterMap id := by
    rw [topologicalOrder_eq hacyclic, hsplit]
    simp
  have hnodup := horder ▸ g.nodup_topologicalOrder
  obtain ⟨-, hrest, hapart⟩ := List.nodup_append'.mp hnodup
  have hne : m ≠ n := fun h => (List.nodup_cons.mp hrest).1 (h ▸ hbefore)
  rw [horder, List.idxOf_append_of_notMem fun h => hapart h List.mem_cons_self,
    List.idxOf_append_of_notMem fun h => hapart h (List.mem_cons_of_mem m hbefore),
    List.idxOf_cons_self, List.idxOf_cons_ne _ hne]
  omega

end CallGraph

namespace Arrangement

variable {calls : CallGraph} {functions : List FunctionEntry}

/-- What is written under a name is a function with that name, which is called with `call`. -/
theorem written_spec {f : FunctionDef} {name : String}
    (h : (if calls.isExplicit name then
      (functions.find? fun e => e.name == name && e.used).map FunctionEntry.fn else none) = some f) :
    f.name.name = name ∧ name ∈ calls.explicit ∧ ∃ e ∈ functions, e.used = true ∧ e.fn = f := by
  split at h
  · next hmark =>
    obtain ⟨e, he, rfl⟩ := Option.map_eq_some_iff.mp h
    have hfound := List.find?_some he
    simp only [Bool.and_eq_true, beq_iff_eq] at hfound
    exact ⟨hfound.1, by simpa [CallGraph.isExplicit] using hmark, e,
      List.mem_of_find?_eq_some he, hfound.2, rfl⟩
  · cases h

/-- The names of the functions that are written stand in the order of the functions. -/
theorem written_names_sublist (calls : CallGraph) (functions : List FunctionEntry) :
    ((written calls functions).map (·.name.name)).Sublist calls.topologicalOrder.reverse := by
  unfold written
  generalize calls.topologicalOrder.reverse = names
  induction names with
  | nil => exact .slnil
  | cons name names ih =>
    rw [List.filterMap_cons]
    split
    · exact ih.cons name
    · next f hf =>
      rw [List.map_cons, (written_spec hf).1]
      exact ih.cons_cons name

/-- **No two functions that are written have the same name.** -/
theorem nodup_written (calls : CallGraph) (functions : List FunctionEntry) :
    ((written calls functions).map (·.name.name)).Nodup :=
  (written_names_sublist calls functions).nodup
    (List.nodup_reverse.mpr calls.nodup_topologicalOrder)

/-- A function that is written is a used one of the table, which is called with `call`. -/
theorem mem_written {f : FunctionDef} (h : f ∈ written calls functions) :
    f.name.name ∈ calls.explicit ∧ ∃ e ∈ functions, e.used = true ∧ e.fn = f := by
  obtain ⟨name, -, hf⟩ := List.mem_filterMap.mp h
  obtain ⟨rfl, hmark, he⟩ := written_spec hf
  exact ⟨hmark, he⟩

/-- What is written under a name. -/
def chosen (calls : CallGraph) (functions : List FunctionEntry) (name : String) :
    Option FunctionDef :=
  if calls.isExplicit name then
    (functions.find? fun e => e.name == name && e.used).map FunctionEntry.fn
  else none

/-- A used function that is called with `call` is written under its name. -/
theorem exists_chosen {n : String} (hmark : calls.isExplicit n = true) {e : FunctionEntry}
    (he : e ∈ functions) (hname : e.name = n) (hused : e.used = true) :
    ∃ f, chosen calls functions n = some f ∧ f.name.name = n := by
  obtain ⟨e', he'⟩ := Option.isSome_iff_exists.mp (List.find?_isSome
    (p := fun e : FunctionEntry => e.name == n && e.used) |>.mpr ⟨e, he, by simp [hname, hused]⟩)
  have hchosen : chosen calls functions n = some e'.fn := by
    rw [chosen, if_pos hmark, he', Option.map_some]
  exact ⟨e'.fn, hchosen, (written_spec hchosen).1⟩

/-- Without circles, functions are written in the order in which the search leaves them. -/
theorem written_eq (hacyclic : calls.Acyclic) :
    written calls functions = calls.leavingOrder.filterMap (·.bind (chosen calls functions)) := by
  change calls.topologicalOrder.reverse.filterMap (chosen calls functions) = _
  rw [CallGraph.topologicalOrder_eq hacyclic, ← List.filterMap_reverse, List.reverse_reverse,
    List.filterMap_filterMap]
  rfl

/-- **The names of the functions that are written**: those of the used ones that are called with
`call`. -/
theorem mem_names_written (hg : calls.Complete) (hacyclic : calls.Acyclic)
    {n : String} :
    n ∈ (written calls functions).map (·.name.name) ↔ n ∈ calls.functions ∧
      calls.isExplicit n = true ∧ ∃ e ∈ functions, e.name = n ∧ e.used = true := by
  constructor
  · intro hn
    obtain ⟨f, hf, rfl⟩ := List.mem_map.mp hn
    obtain ⟨name, hname, hchosen⟩ := List.mem_filterMap.mp hf
    obtain ⟨rfl, hmark, e, he, hused, rfl⟩ := written_spec hchosen
    refine ⟨?_, List.contains_iff_mem.mpr hmark, e, he, rfl, hused⟩
    exact (CallGraph.mem_topologicalOrder hg hacyclic).mp (List.mem_reverse.mp hname)
  · rintro ⟨hn, hmark, e, he, hname, hused⟩
    obtain ⟨f, hf, hfname⟩ := exists_chosen hmark he hname hused
    refine List.mem_map.mpr ⟨f, List.mem_filterMap.mpr ⟨n, ?_, hf⟩, hfname⟩
    exact List.mem_reverse.mpr ((CallGraph.mem_topologicalOrder hg hacyclic).mpr hn)

/-- **What is called is written**, if it is used and called with `call`. -/
theorem exists_written (hg : calls.Complete) (hacyclic : calls.Acyclic) {c : Caller} {n : String}
    (hcall : (c, n) ∈ calls.calls) (hmark : calls.isExplicit n = true) {e : FunctionEntry}
    (he : e ∈ functions) (hname : e.name = n) (hused : e.used = true) :
    ∃ f ∈ written calls functions, f.name.name = n :=
  List.mem_map.mp ((mem_names_written hg hacyclic).mpr
    ⟨(hg _ hcall).2, hmark, e, he, hname, hused⟩)

/-- **What a function calls is written before it.** -/
theorem written_before (hg : calls.Complete) (hacyclic : calls.Acyclic) {f : FunctionDef}
    {before after : List FunctionDef} (h : written calls functions = before ++ f :: after)
    {n : String} (hcall : (some f.name.name, n) ∈ calls.calls)
    (hmark : calls.isExplicit n = true) {e : FunctionEntry} (he : e ∈ functions)
    (hname : e.name = n) (hused : e.used = true) : ∃ g ∈ before, g.name.name = n := by
  obtain ⟨g, hg', hgname⟩ := exists_chosen hmark he hname hused
  rw [written_eq hacyclic] at h
  obtain ⟨l₁, l₂, hl, hbefore, hrest⟩ := List.filterMap_eq_append_iff.mp h
  obtain ⟨l₃, c, l₄, rfl, hskipped, hc, -⟩ := List.filterMap_eq_cons_iff.mp hrest
  -- The caller is the function, and none of the callers in between is written.
  obtain ⟨name, rfl, hf⟩ := Option.bind_eq_some_iff.mp hc
  have hfname := (written_spec hf).1
  rw [← List.append_assoc] at hl
  have hleft := CallGraph.leavingOrder_sorted hg hacyclic _ _ _ hl n
    (CallGraph.mem_callees.mpr (hfname ▸ hcall))
  rcases List.mem_append.mp hleft with hleft | hleft
  · exact ⟨g, hbefore ▸ List.mem_filterMap.mpr ⟨some n, hleft, hg'⟩, hgname⟩
  · have hnone := hskipped _ hleft
    rw [Option.bind_some, hg'] at hnone
    cases hnone

end Arrangement

end FlatScript
