import FlatScript.Proofs.CallRecords
import Mathlib.Data.List.Chain

/-!
# The circle that is reported

A circle of calls is reported exactly when there is one, and then as a list of functions, each of
which calls the next one, from a function back to itself, with no other function in it twice. The
function that it starts with is the first one, in the order of names, that lies on any circle.

That the list is one without repetitions is due to the search for a chain back to the start. It
keeps each name that it meets with the one that it was met from, which it has met before. So the way
back from a name leads through names that were met earlier and earlier, until it comes to the start.

* `FlatScript.CallGraph.Trail` is what the search keeps.
* `FlatScript.CallGraph.findCycle_eq_some` is the statement on graphs.
* `FlatScript.CallGraph.findCycle_canonical` is the statement on what has been recorded.
-/

namespace FlatScript.CallGraph

variable {g : CallGraph} {start goal m n : String} {met : List (String × String)} {s : Search}

/-! ### The way back -/

/-- **The names that a search has met**, the latest first: the start, and names that are called by
names met before them. -/
inductive Trail (g : CallGraph) (start : String) : List (String × String) → Prop
  /-- The start is met from itself. -/
  | start : Trail g start [(start, start)]
  /-- A name is met from one that has been met and that calls it. -/
  | meet {met : List (String × String)} {n m : String} (h : Trail g start met)
    (hn : n ∈ met.map Prod.fst) (hm : m ∉ met.map Prod.fst) (hcall : (some n, m) ∈ g.calls) :
    Trail g start ((m, n) :: met)

theorem Trail.start_mem (h : Trail g start met) : start ∈ met.map Prod.fst := by
  induction h with
  | start => exact List.mem_cons_self
  | meet _ _ _ _ ih => exact List.mem_cons_of_mem _ ih

/-- A name is met from one that has been met. -/
theorem Trail.mem_of_lookup (h : Trail g start met) {before : String}
    (hbefore : met.lookup n = some before) : before ∈ met.map Prod.fst := by
  induction h with
  | start =>
    rw [List.lookup_cons] at hbefore
    split at hbefore
    · cases hbefore
      exact List.mem_cons_self
    · cases hbefore
  | @meet met k m _ hk _ _ ih =>
    rw [List.lookup_cons] at hbefore
    split at hbefore
    · cases hbefore
      exact List.mem_cons_of_mem _ hk
    · exact List.mem_cons_of_mem _ (ih hbefore)

/-- What is met later does not change the way back. -/
theorem Trail.chainBack_cons (h : Trail g start met) {before : String}
    (hm : m ∉ met.map Prod.fst) (hn : n ∈ met.map Prod.fst) (fuel : Nat) :
    chainBack ((m, before) :: met) start fuel n = chainBack met start fuel n := by
  induction fuel generalizing n with
  | zero => rfl
  | succ fuel ih =>
    have hne : ¬ n = m := fun heq => hm (heq ▸ hn)
    have hlookup : ((m, before) :: met).lookup n = met.lookup n := by
      rw [List.lookup_cons, beq_eq_false_iff_ne.mpr hne]
    unfold chainBack
    rw [hlookup]
    by_cases hstart : n = start
    · rw [if_pos hstart, if_pos hstart]
    · rw [if_neg hstart, if_neg hstart]
      rcases hfound : met.lookup n with _ | k
      · rfl
      · exact congrArg (n :: ·) (ih (h.mem_of_lookup hfound))

/-- **A way back**: a list of names, each of which is called by the next one, and none twice. -/
structure WayBack (g : CallGraph) (start n : String) (chain : List String) : Prop where
  head : chain.head? = some n
  last : chain.getLast? = some start
  calls : chain.IsChain fun a b => (some b, a) ∈ g.calls
  nodup : chain.Nodup

/-- One call farther from the start. -/
theorem WayBack.cons {chain : List String} (h : WayBack g start n chain)
    (hcall : (some n, m) ∈ g.calls) (hm : m ∉ chain) : WayBack g start m (m :: chain) := by
  refine ⟨rfl, ?_, List.isChain_cons.mpr ⟨fun b hb => ?_, h.calls⟩,
    List.nodup_cons.mpr ⟨hm, h.nodup⟩⟩
  · rw [List.getLast?_cons, h.last]
    rfl
  · rw [h.head] at hb
    exact Option.some.inj hb ▸ hcall

/-- **The way back from a name that has been met** leads to the start. It has as many names at
most as have been met. -/
theorem Trail.wayBack (h : Trail g start met) {fuel : Nat} (hfuel : met.length ≤ fuel)
    (hn : n ∈ met.map Prod.fst) :
    WayBack g start n (chainBack met start fuel n) ∧
      chainBack met start fuel n ⊆ met.map Prod.fst := by
  induction h generalizing fuel n with
  | start =>
    obtain ⟨fuel, rfl⟩ : ∃ k, fuel = k + 1 := Nat.exists_eq_add_of_le' hfuel
    obtain rfl : n = start := by simpa using hn
    rw [chainBack, if_pos rfl]
    exact ⟨⟨rfl, rfl, .singleton n, List.nodup_singleton n⟩, List.Subset.refl _⟩
  | @meet met k m htrail hk hm hcall ih =>
    obtain ⟨fuel, rfl⟩ : ∃ k, fuel = k + 1 :=
      Nat.exists_eq_add_of_le' ((Nat.le_add_left 1 met.length).trans hfuel)
    rw [List.length_cons] at hfuel
    rcases List.mem_cons.mp hn with rfl | hn
    · -- The latest name has been met from one that was met before.
      obtain ⟨hway, hsub⟩ := ih (Nat.le_of_succ_le_succ hfuel) hk
      have hstart : ¬ n = start := fun heq => hm (heq ▸ htrail.start_mem)
      have hback : chainBack ((n, k) :: met) start (fuel + 1) n =
          n :: chainBack met start fuel k := by
        rw [chainBack, if_neg hstart, List.lookup_cons, beq_self_eq_true]
        exact congrArg (n :: ·) (htrail.chainBack_cons hm hk fuel)
      rw [hback]
      exact ⟨hway.cons hcall fun hmem => hm (hsub hmem), List.cons_subset_cons n hsub⟩
    · rw [htrail.chainBack_cons hm hn]
      obtain ⟨hway, hsub⟩ := ih (Nat.le_of_succ_le hfuel) hn
      exact ⟨hway, List.subset_cons_of_subset m hsub⟩

/-! ### The search for a chain -/

/-- The trail goes on when a name is met. -/
theorem Trail.meet_search (h : Trail g start s.met) (distance : Nat) (hn : n ∈ s.names)
    (hcall : (some n, m) ∈ g.calls) : Trail g start (CallGraph.meet n distance s m).met := by
  unfold CallGraph.meet
  split
  · exact h
  · next hnew => exact h.meet hn (fun hm => hnew ((s.isSome_lookup_met m).mpr hm)) hcall

/-- The trail goes on when all names that a name calls are met. -/
theorem Trail.foldl_meet {ms : List String} (h : Trail g start s.met) (distance : Nat)
    (hn : n ∈ s.names) (hms : ∀ m ∈ ms, (some n, m) ∈ g.calls) :
    Trail g start (ms.foldl (CallGraph.meet n distance) s).met := by
  induction ms generalizing s with
  | nil => exact h
  | cons m ms ih =>
    refine ih (h.meet_search distance hn (hms m List.mem_cons_self)) ?_
      fun m' hm' => hms m' (List.mem_cons_of_mem m hm')
    exact ((s.extends_meet n distance m).names n).mpr (.inl hn)

/-- **The chain that a search finds** leads from its start to its goal. -/
theorem wayBack_of_chainTo (hg : g.Complete) {fuel : Nat} (hs : s.Explores g start goal)
    (htrail : Trail g start s.met) {chain : List String}
    (h : g.chainTo start goal fuel s = some chain) : WayBack g start goal chain.reverse := by
  induction fuel generalizing s with
  | zero => cases h
  | succ fuel ih =>
    unfold chainTo at h
    split at h
    · cases h
    · next distance n queue hpop =>
      have hn : n ∈ s.names :=
        hs.waiting (((Queue.perm_of_pop? hpop).map Prod.snd).mem_iff.mpr List.mem_cons_self)
      split at h
      · next hgoal =>
        cases h
        rw [List.reverse_reverse, ← hgoal]
        have hfuel : s.met.length ≤ s.met.length + 1 := Nat.le_add_right _ _
        exact (htrail.wayBack hfuel hn).1
      · next hgoal =>
        have hextends := Search.extends_callees g { s with queue } n (distance + 1)
        refine ih (hs.step hg hpop hgoal hextends) ?_ h
        exact Trail.foldl_meet (s := { s with queue }) htrail _ hn
          fun m hm => mem_callees.mp (List.mem_reverse.mp hm)

/-! ### The circle -/

/-- The first name of a sorted list that satisfies a condition is the least that does. -/
theorem le_of_find?_eq_some {names : List String} (hsorted : names.Pairwise (· ≤ ·))
    {p : String → Bool} (hfound : names.find? p = some m) (hn : n ∈ names) (hp : p n = true) :
    m ≤ n := by
  obtain ⟨-, before, after, rfl, hbefore⟩ := List.find?_eq_some_iff_append.mp hfound
  have hafter := (List.pairwise_cons.mp (List.pairwise_append.mp hsorted).2.1).1
  rcases List.mem_append.mp hn with hn | hn
  · have hnot := hbefore n hn
    rw [hp] at hnot
    cases hnot
  · rcases List.mem_cons.mp hn with rfl | hn
    · exact String.le_refl n
    · exact hafter n hn

/-- **A circle of calls** in its reported form: it starts and ends with the first function that lies
on a circle, and has no other function twice. -/
structure IsFirstCircle (calls : String → String → Prop) (circle : List String) : Prop where
  /-- No function but the first one is repeated, and that one only at the end. -/
  simple : ∃ start between, circle = start :: (between ++ [start]) ∧ (start :: between).Nodup
  /-- Each function calls the next one. -/
  linked : circle.IsChain calls
  /-- No function that lies on a circle comes before the first one. -/
  first : ∀ start ∈ circle.head?, Relation.TransGen calls start start ∧
    ∀ n, Relation.TransGen calls n n → start ≤ n

/-- **What is reported is a circle of calls**, the first one in its reported form. -/
theorem findCycle_eq_some (hg : g.Complete) {circle : List String}
    (h : g.findCycle = some circle) :
    IsFirstCircle (fun m n => (some m, n) ∈ g.calls) circle := by
  unfold findCycle at h
  obtain ⟨start, hstart, h⟩ := Option.bind_eq_some_iff.mp h
  obtain ⟨next, hnext, h⟩ := Option.bind_eq_some_iff.mp h
  have hled := onCycle_iff.mp (List.find?_some hstart)
  -- The names are searched in their order, and none that lies on a circle was dismissed.
  have hfirst : ∀ n, g.LeadsTo (some n) n → start ≤ n := fun n hn =>
    le_of_find?_eq_some (Name.pairwise_sorted _) hstart
      (Name.mem_sorted.mpr (mem_suspects hg hn)) (onCycle_iff.mpr hn)
  simp only [leadsTo_iff_transGen] at hled hfirst
  obtain ⟨next', hnext', hcall, -⟩ := exists_next (leadsTo_iff_transGen.mpr hled)
  obtain rfl : next = next' := Option.some.inj (hnext.symm.trans hnext')
  split at h
  · -- The function calls itself.
    next heq =>
    cases h
    subst heq
    refine ⟨⟨next, [], rfl, List.nodup_singleton next⟩, ?_, fun k hk => ?_⟩
    · exact List.isChain_cons_cons.mpr ⟨hcall, .singleton next⟩
    · cases hk
      exact ⟨hled, hfirst⟩
  · obtain ⟨chain, hchain, h⟩ := Option.bind_eq_some_iff.mp h
    cases h
    have hway := wayBack_of_chainTo hg (explores_searchAt (hg _ hcall).2) .start hchain
    have hlast : chain.getLast? = some start := by rw [← List.head?_reverse, hway.head]
    have hhead : chain.head? = some next := by rw [← List.getLast?_reverse, hway.last]
    obtain ⟨between, rfl⟩ := List.getLast?_eq_some_iff.mp hlast
    have hnodup := List.nodup_reverse.mp hway.nodup
    refine ⟨⟨start, between, rfl, ?_⟩, ?_, fun k hk => ?_⟩
    · exact (List.nodup_append_comm.mp hnodup)
    · refine List.isChain_cons.mpr ⟨fun k hk => ?_, List.isChain_reverse.mp hway.calls⟩
      rw [hhead] at hk
      exact Option.some.inj hk ▸ hcall
    · cases hk
      exact ⟨hled, hfirst⟩

/-- **A circle is reported exactly when there is one.** -/
theorem findCycle_eq_none_iff (hg : g.Complete) : g.findCycle = none ↔ g.Acyclic := by
  refine ⟨acyclic_of_findCycle hg, fun hacyclic => ?_⟩
  rcases hfound : g.findCycle with _ | circle
  · rfl
  · have hcircle := findCycle_eq_some hg hfound
    obtain ⟨start, between, rfl, -⟩ := hcircle.simple
    exact absurd (leadsTo_iff_transGen.mpr (hcircle.first start rfl).1) (hacyclic start)

/-- **A circle is reported exactly when a recorded function lies on one**, and what is reported is
the first circle. -/
theorem findCycle_canonical (rs : List Record) :
    ((ofRecords rs).findCycle = none ↔ ∀ n, ¬ OnCircle rs n) ∧
      ∀ circle ∈ (ofRecords rs).findCycle, IsFirstCircle (Calls rs) circle := by
  have hcomplete := complete_ofRecords rs
  refine ⟨(findCycle_eq_none_iff hcomplete).trans acyclic_ofRecords, fun circle hcircle => ?_⟩
  exact calls_between_ofRecords rs ▸ findCycle_eq_some hcomplete hcircle

/-- Three circles that have functions in common, one of them of a function that calls itself, and a
function that calls into them. -/
def overlappingCircles : List Record :=
  [.call (some "a") "b", .call (some "d") "d", .call (some "b") "e", .call (some "b") "c",
    .call (some "c") "d", .call (some "d") "b", .call (some "b") "d", .call (some "c") "d"]

theorem overlappingCircles_first :
    (ofRecords overlappingCircles).findCycle = some ["b", "c", "d", "b"] ∧
      IsFirstCircle (Calls overlappingCircles) ["b", "c", "d", "b"] ∧
      ∀ n, ¬ OnCircle (overlappingCircles.take 1) n := by
  have hfound : (ofRecords overlappingCircles).findCycle = some ["b", "c", "d", "b"] := by decide
  exact ⟨hfound, (findCycle_canonical _).2 _ hfound, (findCycle_canonical _).1.mp (by decide)⟩

end FlatScript.CallGraph
