import FlatScript.Proofs.CallOrder

/-!
# A search with a stack

The depth-first search of a graph of calls can do without recursion, when it keeps the callers that
it still has to see on a stack. A caller on top of the stack that has not been entered is entered:
it stays where it is, and the functions that it calls are put on top of it, apart from those that
have been entered. A caller on top that has been entered is taken off, and the first time that this
happens it is left. Neither the stack nor the marks know of chains of calls, so two things can be
different from the recursive search. A caller may be on the stack several times, and it may have
been entered since it was put there. But then it has been left, too: what is on the stack above a
caller is done before it.

Circles of calls come out in two ways. A function that calls itself is seen when it is entered. Any
other circle is found afterwards, in a walk through the callers in the order that is the result:
one of them has a caller that does not stand before it.

* `FlatScript.CallGraph.stackSearch` is the search, and
  `FlatScript.CallGraph.stackSearch_visit` compares it with the recursive one.
* `FlatScript.CallGraph.stackOrder` is the order that it finds.
* `FlatScript.CallGraph.stackOrder_eq` says that it is the order of the functions.
-/

namespace FlatScript.CallGraph

variable {g : CallGraph} {w w' : Walk} {c d : Caller} {stack path cs : List Caller} {n : String}

/-! ### The search -/

/-- Whether a caller has yet to be entered. -/
def isNew (entered : List Caller) (c : Caller) : Bool := !entered.contains c

/-- What is put on the stack when a caller is entered. -/
def unseen (g : CallGraph) (entered : List Caller) (c : Caller) : List Caller :=
  ((g.callees c).map some).filter (isNew entered)

/-- The calls of callers that have yet to be entered. -/
def unfollowed (g : CallGraph) (entered : List Caller) : Nat :=
  g.calls.countP fun call => isNew entered call.1

/-- A bound on the steps of a search. A caller on the stack may have to be entered and has to be
taken off, and so have those that are still to be put there. -/
def effort (g : CallGraph) (entered stack : List Caller) : Nat :=
  stack.countP (isNew entered) + stack.length + 2 * g.unfollowed entered

/-- Entering a caller follows its calls. -/
theorem unfollowed_cons (g : CallGraph) {entered : List Caller} (hc : c ∉ entered) :
    g.unfollowed entered = g.unfollowed (c :: entered) + (g.callees c).length := by
  unfold unfollowed callees
  induction g.calls with
  | nil => rfl
  | cons call calls ih =>
    rw [List.countP_cons, List.countP_cons, List.filterMap_cons, ih]
    by_cases hcall : call.1 = c
    · simp [isNew, hcall, hc]
      omega
    · have hsame : isNew (c :: entered) call.1 = isNew entered call.1 := by simp [isNew, hcall]
      simp only [hsame, if_neg hcall]
      omega

/-- Entering a caller takes effort. -/
theorem effort_enter (g : CallGraph) {entered : List Caller} (hc : c ∉ entered)
    (stack : List Caller) : g.effort (c :: entered) (g.unseen (c :: entered) c ++ c :: stack) <
      g.effort entered (c :: stack) := by
  have hfollowed := g.unfollowed_cons hc
  have hunseen : (g.unseen (c :: entered) c).length ≤ (g.callees c).length :=
    (List.length_filter_le _ _).trans (List.length_map some).le
  have hnew : (g.unseen (c :: entered) c).countP (isNew (c :: entered)) ≤
      (g.unseen (c :: entered) c).length := List.countP_le_length
  have hstack : stack.countP (isNew (c :: entered)) ≤ stack.countP (isNew entered) := by
    refine List.countP_mono_left fun d _ hd => ?_
    simp only [isNew, List.contains_cons, Bool.not_or, Bool.and_eq_true] at hd
    exact hd.2
  have hold : ¬ isNew (c :: entered) c = true := by simp [isNew]
  have hfirst : isNew entered c = true := by simpa [isNew] using hc
  -- Each call that is followed is paid for twice: its callee is put on the stack, and may be new.
  simp only [effort, List.countP_append, List.length_append, List.countP_cons_of_neg hold,
    List.countP_cons_of_pos hfirst, List.length_cons]
  omega

/-- **A depth-first search with a stack**, the top of the stack first. There is no result when a
function is entered that calls itself. -/
def stackSearch (g : CallGraph) : List Caller → Walk → Option Walk
  | [], w => some w
  | c :: stack, w =>
    if c ∈ w.entered then
      if c ∈ w.left then g.stackSearch stack w
      else g.stackSearch stack { w with left := w.left ++ [c] }
    else if c ∈ (g.callees c).map some then none
    else
      g.stackSearch (g.unseen (c :: w.entered) c ++ c :: stack)
        { w with entered := c :: w.entered }
termination_by stack w => g.effort w.entered stack
decreasing_by
  · simp only [effort, List.countP_cons, List.length_cons]
    omega
  · simp only [effort, List.countP_cons, List.length_cons]
    omega
  · exact g.effort_enter ‹_› stack

/-- A caller that has been left is taken off the stack. -/
theorem stackSearch_of_left (hentered : c ∈ w.entered) (hleft : c ∈ w.left) :
    g.stackSearch (c :: stack) w = g.stackSearch stack w := by
  rw [stackSearch, if_pos hentered, if_pos hleft]

/-- A caller that has been entered is left. -/
theorem stackSearch_of_entered (hentered : c ∈ w.entered) (hleft : c ∉ w.left) :
    g.stackSearch (c :: stack) w = g.stackSearch stack { w with left := w.left ++ [c] } := by
  rw [stackSearch, if_pos hentered, if_neg hleft]

/-- A caller is entered. -/
theorem stackSearch_of_new (hentered : c ∉ w.entered) (hself : c ∉ (g.callees c).map some) :
    g.stackSearch (c :: stack) w = g.stackSearch (g.unseen (c :: w.entered) c ++ c :: stack)
      { w with entered := c :: w.entered } := by
  rw [stackSearch, if_neg hentered, if_neg hself]

/-! ### The two searches compared -/

/-- Callers that were entered at the start need not be visited. -/
theorem foldl_filter_isNew {entered : List Caller} (fuel : Nat) (cs : List Caller)
    (hw : entered ⊆ w.entered) :
    (cs.filter (isNew entered)).foldl (g.visit fuel) w = cs.foldl (g.visit fuel) w := by
  induction cs generalizing w with
  | nil => rfl
  | cons c cs ih =>
    rw [List.filter_cons]
    split
    · exact ih (List.Subset.trans hw (entered_subset_visit fuel w c))
    · next hold =>
      have hc : c ∈ entered := by simpa [isNew] using hold
      rw [List.foldl_cons, visit_of_entered (hw hc)]
      exact ih hw

/-- Callers on top of the stack are visited one after the other, if each of them is. -/
theorem stackSearch_append {fuel : Nat} {stack ds : List Caller}
    (hvisit : ∀ d w stack, g.Halfway path w → d ∈ g.sortedCallers → d ∉ path →
      g.stackSearch (d :: stack) w = g.stackSearch stack (g.visit fuel w d))
    (hw : g.Halfway path w) (hds : ∀ d ∈ ds, d ∈ g.sortedCallers ∧ d ∉ path) :
    g.stackSearch (ds ++ stack) w = g.stackSearch stack (ds.foldl (g.visit fuel) w) := by
  induction ds generalizing w with
  | nil => rfl
  | cons d ds ih =>
    obtain ⟨hd, hpath⟩ := hds d List.mem_cons_self
    rw [List.cons_append, hvisit d w _ hw hd hpath]
    exact ih ⟨visit_along fuel hw.along, hw.nodup, hw.callers⟩
      fun d' hd' => hds d' (List.mem_cons_of_mem d hd')

/-- **A caller on top of the stack is visited**, and what stands below it waits. The bound on chains
of calls is never met, whether there are circles or not. -/
theorem stackSearch_visit (hg : g.Complete) (hself : ∀ n, (some n, n) ∉ g.calls) (fuel : Nat)
    (hfuel : fuel + path.length = g.functions.length + 1) (hw : g.Halfway path w)
    (hc : c ∈ g.sortedCallers) (hpath : c ∉ path) :
    g.stackSearch (c :: stack) w = g.stackSearch stack (g.visit fuel w c) := by
  -- The path grows as the bound shrinks, so at the bound all callers are on the path or left.
  induction fuel generalizing w path c stack with
  | zero =>
    have hold : c ∈ w.entered := by
      by_contra hnew
      have hbound := hw.length_lt hc hnew
      omega
    exact stackSearch_of_left hold (hw.mem_left hpath hold)
  | succ fuel ih =>
    by_cases hold : c ∈ w.entered
    · rw [visit_of_entered hold]
      exact stackSearch_of_left hold (hw.mem_left hpath hold)
    · have hcself : c ∉ (g.callees c).map some := by
        intro hmem
        obtain ⟨n, hn, rfl⟩ := List.mem_map.mp hmem
        exact hself n (mem_callees.mp hn)
      have hentered := hw.enter hc hold
      -- What goes onto the stack has not been entered, so it is not on the way here.
      have hunseen : ∀ d ∈ g.unseen (c :: w.entered) c, d ∈ g.sortedCallers ∧ d ∉ c :: path := by
        intro d hd
        obtain ⟨hcallee, hnew⟩ := List.mem_filter.mp hd
        obtain ⟨n, hn, rfl⟩ := List.mem_map.mp hcallee
        refine ⟨mem_sortedCallers hg (mem_callees.mp hn), fun hon => ?_⟩
        have hmem : some n ∈ c :: w.entered := (hentered.along.entered _).mpr (.inr hon)
        rw [isNew, List.contains_iff_mem.mpr hmem] at hnew
        cases hnew
      rw [stackSearch_of_new hold hcself, stackSearch_append (fun d w stack hw hd hpath =>
        ih (by rw [List.length_cons]; omega) hw hd hpath) hentered hunseen, unseen,
        foldl_filter_isNew fuel _ (List.Subset.refl _)]
      -- The caller is on top of the stack again, and now it is left.
      have hafter := foldl_visit_along (g := g) fuel hentered.along ((g.callees c).map some)
      have hin := (hafter.entered c).mpr (.inr List.mem_cons_self)
      rw [stackSearch_of_entered hin (hafter.apart c List.mem_cons_self), visit,
        if_neg (by simpa using hold)]

/-! ### Functions that call themselves -/

/-- **A search that has a result has entered all that was on the stack**, and nothing that calls
itself. -/
theorem stackSearch_sound (h : g.stackSearch stack w = some w') :
    w.entered ⊆ w'.entered ∧ stack ⊆ w'.entered ∧
      ∀ n, some n ∈ w'.entered → some n ∈ w.entered ∨ (some n, n) ∉ g.calls := by
  fun_induction stackSearch g stack w with
  | case1 w =>
    cases h
    exact ⟨List.Subset.refl _, List.nil_subset _, fun n => .inl⟩
  | case2 w c stack hentered hleft ih =>
    obtain ⟨hsub, hstack, hnew⟩ := ih h
    exact ⟨hsub, List.cons_subset.mpr ⟨hsub hentered, hstack⟩, hnew⟩
  | case3 w c stack hentered hleft ih =>
    obtain ⟨hsub, hstack, hnew⟩ := ih h
    exact ⟨hsub, List.cons_subset.mpr ⟨hsub hentered, hstack⟩, hnew⟩
  | case4 => cases h
  | case5 w c stack hentered hself ih =>
    obtain ⟨hsub, hstack, hnew⟩ := ih h
    refine ⟨(List.cons_subset.mp hsub).2, (List.append_subset.mp hstack).2, fun n hn => ?_⟩
    rcases hnew n hn with hn | hn
    · rcases List.mem_cons.mp hn with rfl | hn
      · exact .inr fun hcall => hself (List.mem_map_of_mem (mem_callees.mpr hcall))
      · exact .inl hn
    · exact .inr hn

/-- A caller is searched from, unless it has been entered. -/
def searchFrom (g : CallGraph) (w : Walk) (c : Caller) : Option Walk :=
  if c ∈ w.entered then some w else g.stackSearch [c] w

/-- A search from several callers that has a result has entered them, and nothing that calls
itself. -/
theorem searchFrom_sound (h : cs.foldlM g.searchFrom w = some w') :
    w.entered ⊆ w'.entered ∧ cs ⊆ w'.entered ∧
      ∀ n, some n ∈ w'.entered → some n ∈ w.entered ∨ (some n, n) ∉ g.calls := by
  induction cs generalizing w with
  | nil =>
    cases h
    exact ⟨List.Subset.refl _, List.nil_subset _, fun n => .inl⟩
  | cons c cs ih =>
    rw [List.foldlM_cons] at h
    obtain ⟨w₁, hfirst, h⟩ := Option.bind_eq_some_iff.mp h
    obtain ⟨hsub, hcs, hnew⟩ := ih h
    unfold searchFrom at hfirst
    split at hfirst
    · next hold =>
      cases hfirst
      exact ⟨hsub, List.cons_subset.mpr ⟨hsub hold, hcs⟩, hnew⟩
    · obtain ⟨hsub₁, hstack, hnew₁⟩ := stackSearch_sound hfirst
      refine ⟨List.Subset.trans hsub₁ hsub,
        List.cons_subset.mpr ⟨hsub (hstack List.mem_cons_self), hcs⟩, fun n hn => ?_⟩
      rcases hnew n hn with hn | hn
      · exact hnew₁ n hn
      · exact .inr hn

/-- Without functions that call themselves, the search from several callers has a result: that of
the recursive search. -/
theorem foldlM_searchFrom (hg : g.Complete) (hself : ∀ n, (some n, n) ∉ g.calls)
    (hcs : cs ⊆ g.sortedCallers) (hw : w.Along []) :
    cs.foldlM g.searchFrom w = some (cs.foldl (g.visit (g.functions.length + 1)) w) := by
  induction cs generalizing w with
  | nil => rfl
  | cons c cs ih =>
    obtain ⟨hc, hcs⟩ := List.cons_subset.mp hcs
    have hfirst : g.searchFrom w c = some (g.visit (g.functions.length + 1) w c) := by
      unfold searchFrom
      split
      · next hold => rw [visit_of_entered hold]
      · rw [stackSearch_visit hg hself (g.functions.length + 1) rfl
          ⟨hw, List.nodup_nil, List.nil_subset _⟩ hc List.not_mem_nil, stackSearch]
    rw [List.foldlM_cons, hfirst]
    exact ih hcs (visit_along _ hw)

/-! ### The order that the search finds -/

/-- Whether the callers of each caller of a list stand before it. -/
def callersFirst (g : CallGraph) : List Caller → List Caller → Bool
  | _, [] => true
  | before, c :: after =>
    (g.callers c).all (fun d => d = c ∨ d ∈ before) && g.callersFirst (c :: before) after

/-- **The functions in the order that the search with a stack finds**, callers before callees; empty
when a function calls itself, or when the order is not right. -/
def stackOrder (g : CallGraph) : List String :=
  match g.sortedCallers.foldlM g.searchFrom {} with
  | none => []
  | some w => if g.callersFirst [] w.left.reverse then w.left.reverse.filterMap id else []

theorem mem_callers : d ∈ g.callers (some n) ↔ (d, n) ∈ g.calls := by
  simp only [callers, List.mem_filterMap, Option.ite_none_right_eq_some, Option.some.injEq]
  constructor
  · rintro ⟨⟨d', n'⟩, hmem, rfl, rfl⟩
    exact hmem
  · exact fun h => ⟨(d, n), h, rfl, rfl⟩

theorem callersFirst_iff {before order : List Caller} :
    g.callersFirst before order = true ↔ ∀ l₁ c l₂, order = l₁ ++ c :: l₂ →
      ∀ d ∈ g.callers c, d = c ∨ d ∈ before ∨ d ∈ l₁ := by
  induction order generalizing before with
  | nil => simp [callersFirst]
  | cons c order ih =>
    simp only [callersFirst, Bool.and_eq_true, List.all_eq_true, decide_eq_true_eq, ih]
    constructor
    · rintro ⟨hfirst, hrest⟩ l₁ c' l₂ heq d hd
      rcases List.cons_eq_append_iff.mp heq with ⟨rfl, heq⟩ | ⟨l₁, rfl, rfl⟩
      · obtain ⟨rfl, rfl⟩ := List.cons.inj heq
        exact (hfirst d hd).imp_right .inl
      · have hlater := hrest l₁ c' l₂ rfl d hd
        simp only [List.mem_cons] at hlater ⊢
        tauto
    · intro hall
      refine ⟨fun d hd => ?_, fun l₁ c' l₂ heq d hd => ?_⟩
      · simpa using hall [] c order rfl d hd
      · have hlater := hall (c :: l₁) c' l₂ (by rw [heq]; rfl) d hd
        simp only [List.mem_cons] at hlater ⊢
        tauto

/-- Where callers stand before callees, calls lead from a function to one that stands behind it. -/
theorem idxOf_lt_of_leadsTo (hself : ∀ n, (some n, n) ∉ g.calls) {order : List Caller}
    (horder : g.callersFirst [] order = true) (hall : ∀ d n, (d, n) ∈ g.calls → some n ∈ order)
    {m : String} (h : g.LeadsTo (some m) n) : order.idxOf (some m) < order.idxOf (some n) := by
  have hcall : ∀ k n, (some k, n) ∈ g.calls → order.idxOf (some k) < order.idxOf (some n) := by
    intro k n hkn
    obtain ⟨l₁, l₂, hsplit, hfirst⟩ := List.eq_append_cons_of_mem (hall _ _ hkn)
    rcases callersFirst_iff.mp horder l₁ (some n) l₂ hsplit (some k) (mem_callers.mpr hkn) with
      heq | hnil | hbefore
    · cases heq
      exact absurd hkn (hself k)
    · cases hnil
    · rw [hsplit, List.idxOf_append_of_mem hbefore, List.idxOf_append_of_notMem hfirst,
        List.idxOf_cons_self]
      exact Nat.lt_add_right _ (List.idxOf_lt_length_of_mem hbefore)
  induction h with
  | call h => exact hcall m _ h
  | step _ h ih => exact ih.trans (hcall _ _ h)

/-- **The order is right when there are no circles**, and only then. -/
theorem callersFirst_leavingOrder (hg : g.Complete) (hself : ∀ n, (some n, n) ∉ g.calls) :
    g.callersFirst [] g.leavingOrder.reverse = true ↔ g.Acyclic := by
  constructor
  · intro horder n hled
    refine absurd (idxOf_lt_of_leadsTo hself horder (fun d n hcall => ?_) hled) (lt_irrefl _)
    exact List.mem_reverse.mpr (mem_leavingOrder (mem_sortedCallers hg hcall))
  · intro hacyclic
    refine callersFirst_iff.mpr fun l₁ c l₂ hsplit d hd => ?_
    rcases c with _ | n
    · cases hd
    have hcall := mem_callers.mp hd
    have hmem : d ∈ g.leavingOrder := mem_leavingOrder (caller_mem_sortedCallers hg hcall)
    rw [← List.mem_reverse, hsplit, List.mem_append, List.mem_cons] at hmem
    rcases hmem with hbefore | heq | hbehind
    · exact .inr (.inr hbefore)
    · exact .inl heq
    · -- The caller was left first, so the function was left before it, and again behind it.
      have hleft : g.leavingOrder = l₂.reverse ++ some n :: l₁.reverse := by
        rw [← List.reverse_reverse g.leavingOrder, hsplit]
        simp
      obtain ⟨a, b, hab⟩ := List.append_of_mem (List.mem_reverse.mpr hbehind)
      rw [hab, List.append_assoc, List.cons_append] at hleft
      have hbefore := leavingOrder_sorted hg hacyclic a d _ hleft n (mem_callees.mpr hcall)
      have hnodup := hleft ▸ g.nodup_leavingOrder
      have hdisjoint := (List.nodup_append'.mp hnodup).2.2
      exact absurd (by simp) (hdisjoint hbefore)

/-- **The search with a stack finds the order of the functions.** -/
theorem stackOrder_eq (hg : g.Complete) : g.stackOrder = g.topologicalOrder := by
  by_cases hself : ∀ n, (some n, n) ∉ g.calls
  · have hsearch :=
      foldlM_searchFrom hg hself (List.Subset.refl g.sortedCallers) Walk.along_nil
    unfold stackOrder
    rw [hsearch]
    change (if g.callersFirst [] g.leavingOrder.reverse = true then
      g.leavingOrder.reverse.filterMap id else []) = _
    by_cases hacyclic : g.Acyclic
    · rw [if_pos ((callersFirst_leavingOrder hg hself).mpr hacyclic), topologicalOrder_eq hacyclic]
    · rw [if_neg (mt (callersFirst_leavingOrder hg hself).mp hacyclic),
        topologicalOrder_eq_nil hg hacyclic]
  · rw [not_forall_not] at hself
    obtain ⟨n, hcall⟩ := hself
    rw [topologicalOrder_eq_nil hg fun hacyclic => hacyclic n (.call hcall)]
    unfold stackOrder
    split
    · rfl
    · next w hsearch =>
      -- The function has been entered, and then the search has no result.
      obtain ⟨-, hentered, hnew⟩ := searchFrom_sound hsearch
      rcases hnew n (hentered (mem_sortedCallers hg hcall)) with hold | hnot
      · cases hold
      · exact absurd hcall hnot

end FlatScript.CallGraph
