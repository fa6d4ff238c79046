import FlatScript.CallGraph.Cycle
import FlatScript.Proofs.Reachability
import Mathlib.Data.List.Nodup
import Mathlib.Data.List.Perm.Basic

/-!
# Circles of calls are found

When no circle of calls is reported, there is none. Two things could go wrong. A function could be
dismissed that lies on a circle: it is not, because what it calls, or what calls it, has been
dismissed before. And the search for a shortest chain could end too early: it does not, because
it takes every function off its queue at most once.

* `FlatScript.CallGraph.acyclic_of_findCycle` is the statement.
-/

namespace FlatScript.CallGraph

variable {g : CallGraph} {c : Caller} {m n : String}

/-- **No function leads to itself.** -/
def Acyclic (g : CallGraph) : Prop := ∀ n, ¬ g.LeadsTo (some n) n

/-! ### Functions that are dismissed -/

/-- Callers are dismissed after all that come next to them. -/
theorem acc_of_mem_dismissed {next : Caller → List Caller} {order : List Caller}
    (h : c ∈ dismissed next order) : Acc (fun c' c => c' ∈ next c) c := by
  have hfold : ∀ (order gone : List Caller), (∀ c ∈ gone, Acc (fun c' c => c' ∈ next c) c) →
      ∀ c ∈ order.foldl (fun gone c => if (next c).all gone.contains then c :: gone else gone) gone,
        Acc (fun c' c => c' ∈ next c) c := by
    intro order
    induction order with
    | nil => exact fun _ hgone => hgone
    | cons c order ih =>
      intro gone hgone
      refine ih _ fun c' hc' => ?_
      dsimp only at hc'
      split at hc'
      · next hall =>
        rcases List.mem_cons.mp hc' with rfl | hc'
        · exact .intro _ fun d hd => hgone d (by simpa using List.all_eq_true.mp hall d hd)
        · exact hgone c' hc'
      · exact hgone c' hc'
  exact hfold order [] (by simp) c h

/-- A function on a circle calls one on a circle. -/
theorem LeadsTo.exists_callee (h : g.LeadsTo (some n) n) :
    ∃ m ∈ g.callees (some n), g.LeadsTo (some m) m := by
  obtain ⟨m, hm, rfl | hled⟩ := h.exists_first
  · exact ⟨m, mem_callees.mpr hm, h⟩
  · exact ⟨m, mem_callees.mpr hm, hled.step hm⟩

/-- A function on a circle is called by one on a circle. -/
theorem LeadsTo.exists_caller (h : g.LeadsTo (some n) n) :
    ∃ m, some m ∈ g.callers (some n) ∧ g.LeadsTo (some m) m := by
  have hcallers : ∀ {m}, (some m, n) ∈ g.calls → some m ∈ g.callers (some n) := by
    intro m hm
    exact List.mem_filterMap.mpr ⟨_, hm, by simp⟩
  cases h with
  | call hcall => exact ⟨n, hcallers hcall, .call hcall⟩
  | step hled hcall => exact ⟨_, hcallers hcall, .head hcall hled⟩

/-- No function that is dismissed is on a circle, if a circle leads to what comes next. -/
theorem not_leadsTo_of_dismissed {next : Caller → List Caller} {order : List Caller}
    (hnext : ∀ n, g.LeadsTo (some n) n → ∃ m, some m ∈ next (some n) ∧ g.LeadsTo (some m) m)
    (h : some n ∈ dismissed next order) : ¬ g.LeadsTo (some n) n := by
  have hacc := acc_of_mem_dismissed h
  clear h
  generalize hc : some n = c at hacc
  induction hacc generalizing n with
  | intro c _ ih =>
    subst hc
    intro hled
    obtain ⟨m, hm, hm'⟩ := hnext n hled
    exact ih (some m) hm rfl hm'

theorem onCycle_iff : g.onCycle n = true ↔ g.LeadsTo (some n) n := by
  rw [onCycle, List.contains_iff_mem, mem_reachableFrom_callees]

/-- **A function that is on a circle is not dismissed.** -/
theorem mem_suspects (hg : g.Complete) (hled : g.LeadsTo (some n) n) : n ∈ g.suspects := by
  obtain ⟨m, hm, -⟩ := hled.exists_first
  have hfunction : n ∈ g.functions := (hg _ hm).1 n rfl
  by_contra hsuspect
  have hdismissed : some n ∈ dismissed (fun c => (g.callees c).map some) g.leavingOrder ∨
      some n ∈ dismissed g.callers g.leavingOrder.reverse := by
    by_contra hnot
    rw [not_or] at hnot
    exact hsuspect (List.mem_filter.mpr ⟨hfunction, by simp [hnot]⟩)
  rcases hdismissed with hdismissed | hdismissed
  · refine not_leadsTo_of_dismissed (fun n hn => ?_) hdismissed hled
    obtain ⟨m, hm, hled⟩ := hn.exists_callee
    exact ⟨m, List.mem_map_of_mem hm, hled⟩
  · exact not_leadsTo_of_dismissed (fun n hn => hn.exists_caller) hdismissed hled

/-! ### The queue -/

namespace Queue

variable {items : Array (Nat × String)}

theorem perm_swapIfInBounds (items : Array (Nat × String)) (i j : Nat) :
    (items.swapIfInBounds i j).toList.Perm items.toList := by
  rw [Array.swapIfInBounds_def]
  split
  · split
    · exact Array.perm_iff_toList_perm.mp (Array.swap_perm _ _)
    · exact .refl _
  · exact .refl _

theorem perm_siftUp (fuel : Nat) (items : Array (Nat × String)) (i : Nat) :
    (siftUp fuel items i).toList.Perm items.toList := by
  induction fuel generalizing items i with
  | zero => exact .refl _
  | succ fuel ih =>
    unfold siftUp
    dsimp only
    split
    · exact .refl _
    · exact (ih _ _).trans (perm_swapIfInBounds _ _ _)

theorem perm_siftDown (fuel : Nat) (items : Array (Nat × String)) (i : Nat) :
    (siftDown fuel items i).1.toList.Perm items.toList := by
  induction fuel generalizing items i with
  | zero => exact .refl _
  | succ fuel ih =>
    unfold siftDown
    dsimp only
    split
    · exact (ih _ _).trans (perm_swapIfInBounds _ _ _)
    · split
      · exact perm_swapIfInBounds _ _ _
      · exact .refl _

/-- What is put into a queue is in it. -/
theorem perm_push (q : Queue) (item : Nat × String) :
    (q.push item).items.toList.Perm (item :: q.items.toList) := by
  refine (perm_siftUp _ _ _).trans ?_
  rw [Array.toList_push]
  exact List.perm_append_comm

/-- **What is taken off a queue was in it**, and the rest stays. -/
theorem perm_of_pop? {q q' : Queue} {item : Nat × String} (h : q.pop? = some (item, q')) :
    q.items.toList.Perm (item :: q'.items.toList) := by
  obtain ⟨⟨items⟩⟩ := q
  unfold pop? at h
  split at h
  · cases h
  · next last hlast =>
    dsimp only at h
    have hitems : items = items.dropLast ++ [last] := by
      simp only [Array.back?_eq_getElem?, List.size_toArray, List.getElem?_toArray] at hlast
      rw [← List.getLast?_eq_getElem?] at hlast
      exact (List.dropLast_append_getLast? last hlast).symm
    -- The last item takes the place of the first one, and then both siftings permute the rest.
    split at h
    · next hempty =>
      cases h
      have hnil : items.dropLast = [] :=
        List.eq_nil_of_length_eq_zero (by simp at hempty ⊢; omega)
      rw [hnil] at hitems
      simp [hitems]
    · next first hfirst =>
      obtain ⟨hitem, hq⟩ := Prod.mk.inj (Option.some.inj h)
      subst hitem hq
      obtain ⟨rest, hrest⟩ : ∃ rest, items.dropLast = first :: rest := by
        cases hdrop : items.dropLast with
        | nil => simp [hdrop] at hfirst
        | cons f rest => exact ⟨rest, by simpa [hdrop] using hfirst⟩
      have hsplit : items = first :: (rest ++ [last]) := hitems.trans (by rw [hrest]; rfl)
      have hset : ((⟨items⟩ : Array (Nat × String)).pop.setIfInBounds 0 last).toList =
          last :: rest := by
        rw [Array.toList_setIfInBounds, Array.toList_pop, hrest]
        rfl
      refine (List.Perm.of_eq hsplit).trans (.cons first ?_)
      refine .trans ?_ ((perm_siftUp _ _ _).trans (perm_siftDown _ _ _)).symm
      rw [hset]
      exact List.perm_append_singleton last rest

theorem eq_nil_of_pop? {q : Queue} (h : q.pop? = none) : q.items.toList = [] := by
  obtain ⟨⟨items⟩⟩ := q
  unfold pop? at h
  split at h
  · next hlast => simpa using hlast
  · dsimp only at h
    split at h <;> cases h

end Queue

/-! ### Shortest chains -/

namespace Search

/-- The names on the queue. -/
def waiting (s : Search) : List String := s.queue.items.toList.map Prod.snd

/-- The names that have been met. -/
def names (s : Search) : List String := s.met.map Prod.fst

/-- **A search that has met some names more**: those that it had not met before are on the queue. -/
structure Extends (s s' : Search) (ms : List String) : Prop where
  names : ∀ m, m ∈ s'.names ↔ m ∈ s.names ∨ m ∈ ms
  waiting : ∀ m, m ∈ s'.waiting ↔ m ∈ s.waiting ∨ m ∈ s'.names ∧ m ∉ s.names
  nodup : s.names.Nodup → s'.names.Nodup
  count : s'.names.length + s.waiting.length = s.names.length + s'.waiting.length

variable {s s' s'' : Search} {ms ms' : List String}

theorem Extends.trans (h : s.Extends s' ms) (h' : s'.Extends s'' ms') :
    s.Extends s'' (ms ++ ms') := by
  refine ⟨fun m => ?_, fun m => ?_, h'.nodup ∘ h.nodup, ?_⟩
  · rw [h'.names, h.names, List.mem_append, or_assoc]
  · have hnames := h.names m
    have hnames' := h'.names m
    rw [h'.waiting, h.waiting]
    tauto
  · have hcount := h.count
    have hcount' := h'.count
    omega

theorem isSome_lookup_met (s : Search) (m : String) :
    (s.met.lookup m).isSome = true ↔ m ∈ s.names := by
  rw [List.lookup_isSome_iff, names, List.mem_map]
  simp only [beq_iff_eq]
  exact ⟨fun ⟨pair, hpair, heq⟩ => ⟨pair, hpair, heq.symm⟩,
    fun ⟨pair, hpair, heq⟩ => ⟨pair, hpair, heq.symm⟩⟩

theorem extends_meet (s : Search) (n : String) (distance : Nat) (m : String) :
    s.Extends (meet n distance s m) [m] := by
  have hmet := s.isSome_lookup_met m
  unfold meet
  split
  · next hold =>
    have hm := hmet.mp hold
    refine ⟨fun m' => ?_, fun m' => ?_, id, rfl⟩
    · rw [List.mem_singleton]
      exact ⟨.inl, fun h => h.elim id fun h => h ▸ hm⟩
    · exact ⟨.inl, fun h => h.elim id fun h => absurd h.1 h.2⟩
  -- What is new joins the names and waits, and what is not is met without effect.
  · next hnew =>
    have hm : m ∉ s.names := fun h => hnew (hmet.mpr h)
    have hqueue := (s.queue.perm_push (distance, m)).map Prod.snd
    have hwaiting : (meet n distance s m).waiting.Perm (m :: s.waiting) := by
      rw [meet, if_neg hnew]
      exact hqueue
    rw [meet, if_neg hnew] at hwaiting
    refine ⟨fun m' => ?_, fun m' => ?_, fun h => List.nodup_cons.mpr ⟨hm, h⟩, ?_⟩
    · change m' ∈ m :: s.names ↔ _
      rw [List.mem_cons, List.mem_singleton]
      exact or_comm
    · rw [hwaiting.mem_iff]
      change m' ∈ m :: s.waiting ↔ m' ∈ s.waiting ∨ m' ∈ m :: s.names ∧ m' ∉ s.names
      rw [List.mem_cons, List.mem_cons]
      refine ⟨?_, ?_⟩
      · rintro (rfl | h)
        · exact .inr ⟨.inl rfl, hm⟩
        · exact .inl h
      · rintro (h | ⟨rfl | h, hnot⟩)
        · exact .inr h
        · exact .inl rfl
        · exact absurd h hnot
    · rw [hwaiting.length_eq]
      change s.names.length + 1 + _ = _ + (_ + 1)
      omega

theorem extends_foldl_meet (s : Search) (n : String) (distance : Nat) (ms : List String) :
    s.Extends (ms.foldl (meet n distance) s) ms := by
  induction ms generalizing s with
  | nil => exact ⟨by simp, fun m => ⟨.inl, fun h => h.elim id fun h => absurd h.1 h.2⟩, id, rfl⟩
  | cons m ms ih => exact (s.extends_meet n distance m).trans (ih _)

/-- Over the functions that a function calls. -/
theorem extends_callees (g : CallGraph) (s : Search) (n : String) (distance : Nat) :
    s.Extends ((g.callees (some n)).reverse.foldl (meet n distance) s) (g.callees (some n)) := by
  have h := s.extends_foldl_meet n distance (g.callees (some n)).reverse
  exact ⟨fun m => by rw [h.names, List.mem_reverse], h.waiting, h.nodup, h.count⟩

/-- **How far a search has come**: of the names that have been met, those that are not on the
queue are not the goal, and all that they call has been met. -/
structure Explores (g : CallGraph) (start goal : String) (s : Search) : Prop where
  start : start ∈ s.names
  nodup : s.names.Nodup
  functions : s.names ⊆ g.functions
  waiting : s.waiting ⊆ s.names
  done : ∀ n ∈ s.names, n ∉ s.waiting → n ≠ goal ∧ g.callees (some n) ⊆ s.names

variable {start goal : String}

/-- What has been met holds all that the start leads to, when nothing is on the queue. -/
theorem Explores.goal_notMem (h : Explores g start goal s) (hempty : s.waiting = []) :
    ¬ (start = goal ∨ g.LeadsTo (some start) goal) := by
  have hdone : ∀ n ∈ s.names, n ≠ goal ∧ g.callees (some n) ⊆ s.names :=
    fun n hn => h.done n hn (by simp [hempty])
  have hmet : ∀ n, g.LeadsTo (some start) n → n ∈ s.names := by
    intro n hled
    induction hled with
    | call hcall => exact (hdone start h.start).2 (mem_callees.mpr hcall)
    | step _ hcall ih => exact (hdone _ ih).2 (mem_callees.mpr hcall)
  rintro (rfl | hled)
  · exact (hdone start h.start).1 rfl
  · exact (hdone goal (hmet goal hled)).1 rfl

/-- Looking at a name that is not the goal. -/
theorem Explores.step (hg : g.Complete) (h : Explores g start goal s) {distance : Nat}
    {n : String} {queue : Queue} (hpop : s.queue.pop? = some ((distance, n), queue))
    (hn : n ≠ goal) (hs' : Search.Extends { s with queue } s' (g.callees (some n))) :
    Explores g start goal s' := by
  have hwaiting : s.waiting.Perm (n :: ({ s with queue } : Search).waiting) :=
    (Queue.perm_of_pop? hpop).map Prod.snd
  have hkept : s.names ⊆ s'.names := fun m hm => (hs'.names m).mpr (.inl hm)
  refine ⟨hkept h.start, hs'.nodup h.nodup, fun m hm => ?_, fun m hm => ?_, fun m hm hnot => ?_⟩
  · rcases (hs'.names m).mp hm with hm | hm
    · exact h.functions hm
    · exact (hg _ (mem_callees.mp hm)).2
  · rcases (hs'.waiting m).mp hm with hm | ⟨hm, -⟩
    · exact hkept (h.waiting (hwaiting.mem_iff.mpr (List.mem_cons_of_mem n hm)))
    · exact hm
  · rw [hs'.waiting, not_or, not_and, not_not] at hnot
    have hold : m ∈ s.names := hnot.2 hm
    by_cases hmn : m = n
    · subst hmn
      exact ⟨hn, fun k hk => (hs'.names k).mpr (.inr hk)⟩
    · have hm' : m ∉ s.waiting := by
        rw [hwaiting.mem_iff, List.mem_cons, not_or]
        exact ⟨hmn, hnot.1⟩
      exact ⟨(h.done m hold hm').1, fun k hk => hkept ((h.done m hold hm').2 hk)⟩

end Search

/-- **The search finds a chain of calls when there is one**: it has as many steps as there are
names that it can meet. -/
theorem isSome_chainTo (fuel : Nat) (hg : g.Complete) {start goal : String}
    (hled : start = goal ∨ g.LeadsTo (some start) goal) {s : Search} (hs : s.Explores g start goal)
    (hfuel : fuel + s.names.length = s.waiting.length + g.functions.length + 1) :
    (g.chainTo start goal fuel s).isSome = true := by
  induction fuel generalizing s with
  | zero =>
    have hbound := hs.nodup.length_le_of_subset hs.functions
    omega
  | succ fuel ih =>
    unfold chainTo
    split
    · next hpop =>
      have hempty : s.waiting = [] := by rw [Search.waiting, Queue.eq_nil_of_pop? hpop]; rfl
      exact absurd hled (hs.goal_notMem hempty)
    · next distance n queue hpop =>
      split
      · rfl
      · next hn =>
        have hextends := Search.extends_callees g { s with queue } n (distance + 1)
        refine ih (hs.step hg hpop hn hextends) ?_
        have hlength := ((Queue.perm_of_pop? hpop).map Prod.snd).length_eq
        have hcount := hextends.count
        change s.waiting.length = ({ s with queue } : Search).waiting.length + 1 at hlength
        change _ + ({ s with queue } : Search).waiting.length = s.names.length + _ at hcount
        omega

/-- The search starts with a single name. -/
def searchAt (start : String) : Search := ⟨({} : Queue).push (0, start), [(start, start)]⟩

theorem waiting_searchAt (start : String) : (searchAt start).waiting = [start] := rfl

theorem names_searchAt (start : String) : (searchAt start).names = [start] := rfl

theorem explores_searchAt {start goal : String} (hstart : start ∈ g.functions) :
    Search.Explores g start goal (searchAt start) := by
  refine ⟨?_, ?_, ?_, ?_, ?_⟩ <;> simp [names_searchAt, waiting_searchAt, hstart]

/-- **There is a shortest chain** to what calls lead to. -/
theorem isSome_shortestChain (hg : g.Complete) {start goal : String} (hstart : start ∈ g.functions)
    (hled : start = goal ∨ g.LeadsTo (some start) goal) :
    (g.shortestChain start goal).isSome = true := by
  refine isSome_chainTo (s := searchAt start) _ hg hled (explores_searchAt hstart) ?_
  rw [names_searchAt, waiting_searchAt, List.length_singleton]
  omega

/-! ### The circle that is reported -/

/-- If there is a function on a circle, there is a first one. -/
theorem exists_start (hg : g.Complete) (hled : g.LeadsTo (some n) n) :
    ∃ start, (Name.sorted g.suspects).find? g.onCycle = some start :=
  Option.isSome_iff_exists.mp (List.find?_isSome.mpr
    ⟨n, Name.mem_sorted.mpr (mem_suspects hg hled), onCycle_iff.mpr hled⟩)

theorem reaches_iff : g.reaches m n = true ↔ n = m ∨ g.LeadsTo (some m) n := by
  rw [reaches, List.contains_iff_mem, mem_reachableFrom]
  simp

/-- The first call of a function on a circle that leads back to it. -/
theorem exists_next {start : String} (hled : g.LeadsTo (some start) start) :
    ∃ next, (g.callees (some start)).find? (fun n => n == start || g.reaches n start) = some next ∧
      (some start, next) ∈ g.calls ∧ (next = start ∨ g.LeadsTo (some next) start) := by
  obtain ⟨m, hm, hback⟩ := hled.exists_first
  obtain ⟨next, hnext⟩ : ∃ next, (g.callees (some start)).find?
      (fun n => n == start || g.reaches n start) = some next := by
    refine Option.isSome_iff_exists.mp (List.find?_isSome.mpr ⟨m, mem_callees.mpr hm, ?_⟩)
    rw [Bool.or_eq_true, reaches_iff]
    exact .inr (hback.imp_left Eq.symm)
  refine ⟨next, hnext, mem_callees.mp (List.mem_of_find?_eq_some hnext), ?_⟩
  have hleads := List.find?_some hnext
  rw [Bool.or_eq_true, reaches_iff, beq_iff_eq] at hleads
  rcases hleads with heq | heq | hleads
  · exact .inl heq
  · exact .inl heq.symm
  · exact .inr hleads

/-- **When no circle of calls is reported, there is none.** -/
theorem acyclic_of_findCycle (hg : g.Complete) (h : g.findCycle = none) : g.Acyclic := by
  intro n hn
  obtain ⟨start, hstart⟩ := exists_start hg hn
  have hled := onCycle_iff.mp (List.find?_some hstart)
  obtain ⟨next, hnext, hcall, hback⟩ := exists_next hled
  simp only [findCycle, hstart, hnext, Option.bind_eq_bind, Option.bind_some] at h
  split at h
  · cases h
  · obtain ⟨chain, hchain⟩ :=
      Option.isSome_iff_exists.mp (isSome_shortestChain hg (hg _ hcall).2 hback)
    rw [hchain] at h
    cases h

end FlatScript.CallGraph
