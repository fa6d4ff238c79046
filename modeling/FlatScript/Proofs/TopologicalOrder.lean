import FlatScript.Proofs.CallRecords
import FlatScript.Proofs.StackSearch

/-!
# The order of recorded functions

What the order of functions is, by the records that the graph of calls was built from. Without
circles every function that has been recorded stands in it once, and every caller before what it
calls. With a circle there is no order. The order can be found by a search with a stack as well.

Which of the possible orders it is depends on less than the records. Only the first call of a
function by the same caller counts, and what different callers call may be recorded in any order.
But the order in which *one* caller calls several functions does count: it is the order in which the
search follows these calls, and so they come out the other way round.

* `FlatScript.CallGraph.topologicalOrder_linear` says that the order is one.
* `FlatScript.CallGraph.topologicalOrder_of_same_records` says what it depends on.
-/

namespace FlatScript.CallGraph

variable {g g' : CallGraph} {rs rs' : List Record} {w : Walk} {c d : Caller} {m n : String}

/-! ### Records in a linear order -/

/-- **A linear order of what has been recorded.** -/
structure Linear (rs : List Record) (order : List String) : Prop where
  /-- Every function that has been recorded stands in it once, and nothing else does. -/
  count : ∀ n, order.count n = if n ∈ rs.flatMap Record.names then 1 else 0
  /-- A caller stands before what it calls. -/
  before : ∀ m n, .call (some m) n ∈ rs → order.idxOf m < order.idxOf n

/-- **The order of recorded functions is linear** if no function lies on a circle of calls, and it
is empty otherwise. A search with a stack finds the same order. -/
theorem topologicalOrder_linear (rs : List Record) :
    ((∀ n, ¬ OnCircle rs n) → Linear rs (ofRecords rs).topologicalOrder) ∧
      ((∃ n, OnCircle rs n) → (ofRecords rs).topologicalOrder = []) ∧
      (ofRecords rs).stackOrder = (ofRecords rs).topologicalOrder := by
  have hcomplete := complete_ofRecords rs
  refine ⟨fun hnone => ?_, fun hcircle => ?_, stackOrder_eq hcomplete⟩
  · have hacyclic := acyclic_ofRecords.mpr hnone
    refine ⟨fun n => ?_, fun m n hcall =>
      idxOf_lt_of_call hcomplete hacyclic (mem_calls_ofRecords.mpr hcall)⟩
    rw [(ofRecords rs).nodup_topologicalOrder.count]
    simp only [mem_topologicalOrder hcomplete hacyclic, mem_functions_ofRecords]
  · obtain ⟨n, hn⟩ := hcircle
    exact topologicalOrder_eq_nil hcomplete fun hacyclic => acyclic_ofRecords.mp hacyclic n hn

/-- A caller before and behind what it calls, a call that is made twice, and a function alone. -/
def sampleRecords : List Record :=
  [.call none "b", .function "d", .call (some "b") "c", .call (some "b") "a", .explicit "e",
    .call (some "b") "c", .call (some "a") "c"]

/-- The same with a call that closes a circle. -/
def sampleCircle : List Record := sampleRecords ++ [.call (some "c") "b"]

theorem sampleRecords_linear : (∀ n, ¬ OnCircle sampleRecords n) ∧
    (ofRecords sampleRecords).topologicalOrder = ["d", "b", "a", "c"] ∧
    Linear sampleRecords ["d", "b", "a", "c"] ∧
    (∃ n, OnCircle sampleCircle n) ∧ (ofRecords sampleCircle).topologicalOrder = [] := by
  have horder : (ofRecords sampleRecords).topologicalOrder = ["d", "b", "a", "c"] := by decide
  obtain ⟨hlinear, hnil, -⟩ := topologicalOrder_linear sampleRecords
  have hnone : ∀ n, ¬ OnCircle sampleRecords n := by
    intro n hn
    have hempty := horder.symm.trans (hnil ⟨n, hn⟩)
    cases hempty
  have hcircle : ∃ n, OnCircle sampleCircle n :=
    ⟨"b", .tail (.single (show .call (some "b") "c" ∈ sampleCircle by decide))
      (show .call (some "c") "b" ∈ sampleCircle by decide)⟩
  exact ⟨hnone, horder, horder ▸ hlinear hnone, hcircle,
    (topologicalOrder_linear sampleCircle).2.1 hcircle⟩

/-! ### What the order depends on -/

/-- A caller is not visited a second time. -/
theorem visit_foldl_of_mem {ds : List Caller} (fuel : Nat) (w : Walk) (hd : d ∈ ds) :
    g.visit fuel (ds.foldl (g.visit fuel) w) d = ds.foldl (g.visit fuel) w := by
  rcases fuel with _ | fuel
  · rfl
  · exact visit_of_entered (mem_entered_foldl_visit fuel w hd)

/-- So it is enough to visit every function of a list once. -/
theorem foldl_visit_distinct (fuel : Nat) (names : List String) (w : Walk) :
    ((Name.distinct names).map some).foldl (g.visit fuel) w =
      (names.map some).foldl (g.visit fuel) w := by
  have hfold : ∀ names seen : List String,
      ((names.foldl Name.insertNew seen).map some).foldl (g.visit fuel) w =
        (names.map some).foldl (g.visit fuel) ((seen.map some).foldl (g.visit fuel) w) := by
    intro names
    induction names with
    | nil => exact fun seen => rfl
    | cons name names ih =>
      intro seen
      rw [List.foldl_cons, ih, List.map_cons, List.foldl_cons]
      congr 1
      unfold Name.insertNew
      split
      · next hold =>
        have hmem : some name ∈ seen.map some := List.mem_map_of_mem (by simpa using hold)
        exact (visit_foldl_of_mem fuel w hmem).symm
      · rw [List.map_append, List.foldl_append]
        rfl
  exact hfold names []

/-- **A visit depends on the first calls of functions only**, caller by caller. -/
theorem visit_eq_of_callees
    (hcallees : ∀ c, Name.distinct (g.callees c) = Name.distinct (g'.callees c)) (fuel : Nat) :
    g.visit fuel = g'.visit fuel := by
  induction fuel with
  | zero => rfl
  | succ fuel ih =>
    funext w c
    unfold visit
    rw [← foldl_visit_distinct fuel (g.callees c), ← foldl_visit_distinct fuel (g'.callees c),
      hcallees, ih]

/-- So does the whole search. It starts from the names in their order, however they were recorded. -/
theorem leavingOrder_eq_of_callees (hfunctions : g.functions.Perm g'.functions)
    (hcallees : ∀ c, Name.distinct (g.callees c) = Name.distinct (g'.callees c)) :
    g.leavingOrder = g'.leavingOrder := by
  have hstarts : g.sortedCallers = g'.sortedCallers := by
    rw [sortedCallers, sortedCallers, Name.sorted_eq_of_perm hfunctions]
  rw [leavingOrder, leavingOrder, hstarts, hfunctions.length_eq, visit_eq_of_callees hcallees]

/-- The functions that a caller calls, in the order in which this has been recorded. -/
def calleesIn (rs : List Record) (c : Caller) : List String :=
  rs.filterMap fun
    | .call caller callee => if caller = c then some callee else none
    | .function _ | .explicit _ => none

theorem callees_ofRecords (rs : List Record) (c : Caller) :
    (ofRecords rs).callees c = calleesIn rs c := by
  rw [callees, calls_ofRecords, List.filterMap_filterMap]
  refine List.filterMap_congr fun r _ => ?_
  rcases r with name | ⟨caller, callee⟩ | name <;> rfl

/-- **What the order depends on.** When two lists of records are about the same functions and hold
the same calls, the same functions stand in the two orders. And the orders are the same, if each
caller calls these functions for the first time in the same order. -/
theorem topologicalOrder_of_same_records
    (hnames : ∀ n, n ∈ rs.flatMap Record.names ↔ n ∈ rs'.flatMap Record.names)
    (hcalls : ∀ c n, .call c n ∈ rs ↔ .call c n ∈ rs') :
    (ofRecords rs).topologicalOrder.Perm (ofRecords rs').topologicalOrder ∧
      ((∀ c, Name.distinct (calleesIn rs c) = Name.distinct (calleesIn rs' c)) →
        (ofRecords rs).topologicalOrder = (ofRecords rs').topologicalOrder) := by
  have hcomplete := complete_ofRecords rs
  have hcomplete' := complete_ofRecords rs'
  have hfunctions : (ofRecords rs).functions.Perm (ofRecords rs').functions :=
    (List.perm_ext_iff_of_nodup (nodup_functions_ofRecords rs) (nodup_functions_ofRecords rs')).mpr
      fun n => by rw [mem_functions_ofRecords, mem_functions_ofRecords, hnames]
  have hcircles : (ofRecords rs).Acyclic ↔ (ofRecords rs').Acyclic := by
    have hsame : Calls rs = Calls rs' := by
      funext m n
      exact propext (hcalls (some m) n)
    simp only [acyclic_ofRecords, OnCircle, hsame]
  by_cases hacyclic : (ofRecords rs).Acyclic
  · have hacyclic' := hcircles.mp hacyclic
    constructor
    · refine (List.perm_ext_iff_of_nodup (nodup_topologicalOrder _)
        (nodup_topologicalOrder _)).mpr fun n => ?_
      rw [mem_topologicalOrder hcomplete hacyclic, mem_topologicalOrder hcomplete' hacyclic',
        hfunctions.mem_iff]
    · -- The two graphs differ in the order of calls of different callers, and in repeated calls.
      intro hcallees
      have horder : (ofRecords rs).leavingOrder = (ofRecords rs').leavingOrder :=
        leavingOrder_eq_of_callees hfunctions fun c => by
          rw [callees_ofRecords, callees_ofRecords, hcallees]
      rw [topologicalOrder_eq hacyclic, topologicalOrder_eq hacyclic', horder]
  · rw [topologicalOrder_eq_nil hcomplete hacyclic,
      topologicalOrder_eq_nil hcomplete' (mt hcircles.mpr hacyclic)]
    exact ⟨.refl _, fun _ => rfl⟩

/-- The sample records in another order. -/
def shuffledRecords : List Record :=
  [.call (some "a") "c", .call (some "b") "c", .explicit "e", .call (some "b") "c",
    .call (some "b") "a", .function "d", .call none "b"]

theorem shuffledRecords_order :
    (∀ n, n ∈ sampleRecords.flatMap Record.names ↔ n ∈ shuffledRecords.flatMap Record.names) ∧
    (∀ c n, .call c n ∈ sampleRecords ↔ .call c n ∈ shuffledRecords) ∧
    (∀ c, Name.distinct (calleesIn sampleRecords c) = Name.distinct (calleesIn shuffledRecords c)) ∧
    (ofRecords sampleRecords).topologicalOrder = (ofRecords shuffledRecords).topologicalOrder := by
  have hnames : ∀ n, n ∈ sampleRecords.flatMap Record.names ↔
      n ∈ shuffledRecords.flatMap Record.names := by
    intro n
    simp only [sampleRecords, shuffledRecords, Record.names, List.flatMap_cons, List.flatMap_nil,
      List.mem_append, List.mem_cons, Option.toList_some, Option.toList_none, List.not_mem_nil]
    tauto
  have hcalls : ∀ c n, .call c n ∈ sampleRecords ↔ .call c n ∈ shuffledRecords := by
    intro c n
    simp only [sampleRecords, shuffledRecords, List.mem_cons, reduceCtorEq]
    tauto
  have hcallees : ∀ c, Name.distinct (calleesIn sampleRecords c) =
      Name.distinct (calleesIn shuffledRecords c) := by
    intro c
    by_cases hb : c = some "b"
    · subst hb
      decide
    · by_cases ha : c = some "a"
      · subst ha
        decide
      · have hb' : ¬ some "b" = c := fun h => hb h.symm
        have ha' : ¬ some "a" = c := fun h => ha h.symm
        by_cases hroot : none = c <;>
          simp [sampleRecords, shuffledRecords, calleesIn, hb', ha', hroot]
  exact ⟨hnames, hcalls, hcallees,
    (topologicalOrder_of_same_records hnames hcalls).2 hcallees⟩

/-- The order in which one caller calls two functions is not among what may change. -/
example : (ofRecords [.call (some "a") "b", .call (some "a") "c"]).topologicalOrder =
    ["a", "c", "b"] ∧
    (ofRecords [.call (some "a") "c", .call (some "a") "b"]).topologicalOrder =
      ["a", "b", "c"] := by
  decide

end FlatScript.CallGraph
