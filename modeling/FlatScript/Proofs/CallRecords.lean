import FlatScript.Proofs.CallOrder
import Mathlib.Logic.Relation

/-!
# Recording calls

A graph of calls is built up by recording functions, calls and marks, one after the other. What it
holds in the end can be read off the records: the functions are the names in the records, each in
the place where it comes first, and the calls are the calls in the records. So *one function calls
another one*, and *a function lies on a circle of calls*, are statements about the records, which
know nothing of the graph or of any search in it.

* `FlatScript.CallGraph.ofRecords` is the graph.
* `FlatScript.CallGraph.functions_ofRecords` and `FlatScript.CallGraph.calls_ofRecords` say what it
  holds.
* `FlatScript.CallGraph.acyclic_ofRecords` compares circles of records with circles of the graph.
-/

namespace FlatScript

namespace CallGraph

/-! ### Records -/

/-- **What is recorded** in a graph of calls. -/
inductive Record where
  /-- There is a function. -/
  | function (name : String)
  /-- A caller calls a function. -/
  | call (caller : Caller) (callee : String)
  /-- A function is called with the keyword `call`. -/
  | explicit (name : String)
deriving DecidableEq, Repr

namespace Record

/-- The functions that a record is about; a mark alone makes no function. -/
def names : Record → List String
  | function name => [name]
  | call caller callee => caller.toList ++ [callee]
  | explicit _ => []

/-- The call that a record is about. -/
def call? : Record → Option (Caller × String)
  | call caller callee => some (caller, callee)
  | function _ | explicit _ => none

end Record

/-- The graph with a record more. -/
def record (g : CallGraph) : Record → CallGraph
  | .function name => g.ensure name
  | .call caller callee => g.addCall caller callee
  | .explicit name => g.markExplicit name

/-- **The graph of what has been recorded.** -/
def ofRecords (rs : List Record) : CallGraph := rs.foldl record {}

/-- One function calls another one, by what has been recorded. -/
def Calls (rs : List Record) (m n : String) : Prop := .call (some m) n ∈ rs

/-- **A function lies on a circle of calls**, by what has been recorded. -/
def OnCircle (rs : List Record) (n : String) : Prop := Relation.TransGen (Calls rs) n n

variable {g : CallGraph} {rs : List Record} {c : Caller} {m n : String}

/-! ### What the graph holds -/

theorem functions_record (g : CallGraph) (r : Record) :
    (g.record r).functions = r.names.foldl Name.insertNew g.functions := by
  rcases r with name | ⟨_ | caller, callee⟩ | name <;> rfl

theorem calls_record (g : CallGraph) (r : Record) :
    (g.record r).calls = g.calls ++ r.call?.toList := by
  rcases r with name | ⟨_ | caller, callee⟩ | name <;>
    simp [record, addCall, ensure, markExplicit, Record.call?]

/-- **The functions of the graph** are the names in the records. -/
theorem functions_ofRecords (rs : List Record) :
    (ofRecords rs).functions = Name.distinct (rs.flatMap Record.names) := by
  have hfold : ∀ (rs : List Record) (g : CallGraph), (rs.foldl record g).functions =
      (rs.flatMap Record.names).foldl Name.insertNew g.functions := by
    intro rs
    induction rs with
    | nil => exact fun g => rfl
    | cons r rs ih =>
      intro g
      rw [List.foldl_cons, ih, functions_record, List.flatMap_cons, List.foldl_append]
  exact hfold rs {}

/-- **The calls of the graph** are the calls in the records, in the same order. -/
theorem calls_ofRecords (rs : List Record) : (ofRecords rs).calls = rs.filterMap Record.call? := by
  have hfold : ∀ (rs : List Record) (g : CallGraph), (rs.foldl record g).calls =
      g.calls ++ rs.filterMap Record.call? := by
    intro rs
    induction rs with
    | nil => exact fun g => (List.append_nil _).symm
    | cons r rs ih =>
      intro g
      rw [List.foldl_cons, ih, calls_record, List.append_assoc]
      rcases hcall : r.call? with _ | call <;> simp [hcall]
  exact hfold rs {}

theorem mem_functions_ofRecords :
    n ∈ (ofRecords rs).functions ↔ n ∈ rs.flatMap Record.names := by
  rw [functions_ofRecords, Name.mem_distinct]

theorem nodup_functions_ofRecords (rs : List Record) : (ofRecords rs).functions.Nodup :=
  functions_ofRecords rs ▸ Name.nodup_distinct _

theorem mem_calls_ofRecords : (c, n) ∈ (ofRecords rs).calls ↔ .call c n ∈ rs := by
  rw [calls_ofRecords, List.mem_filterMap]
  constructor
  · rintro ⟨_ | ⟨caller, callee⟩ | _, hmem, hcall⟩
    · cases hcall
    · obtain ⟨rfl, rfl⟩ := Prod.mk.inj (Option.some.inj hcall)
      exact hmem
    · cases hcall
  · exact fun hmem => ⟨_, hmem, rfl⟩

/-- The functions that are called and those that call have been recorded with the call. -/
theorem complete_ofRecords (rs : List Record) : (ofRecords rs).Complete := by
  rintro ⟨caller, callee⟩ hcall
  have hmem := mem_calls_ofRecords.mp hcall
  simp only [mem_functions_ofRecords, List.mem_flatMap]
  exact ⟨fun n hn => ⟨_, hmem, by simp [Record.names, Option.mem_def.mp hn]⟩,
    ⟨_, hmem, by simp [Record.names]⟩⟩

/-- Calls lead from one function to another one by a chain of calls between functions. -/
theorem leadsTo_iff_transGen :
    g.LeadsTo (some m) n ↔ Relation.TransGen (fun m n => (some m, n) ∈ g.calls) m n := by
  constructor
  · intro h
    induction h with
    | call hcall => exact .single hcall
    | step _ hcall ih => exact ih.tail hcall
  · intro h
    induction h with
    | single hcall => exact .call hcall
    | tail _ hcall ih => exact .step ih hcall

/-- The calls between functions are those that have been recorded. -/
theorem calls_between_ofRecords (rs : List Record) :
    (fun m n => (some m, n) ∈ (ofRecords rs).calls) = Calls rs := by
  funext m n
  exact propext mem_calls_ofRecords

/-- Calls lead from one function to another one as they have been recorded. -/
theorem leadsTo_ofRecords :
    (ofRecords rs).LeadsTo (some m) n ↔ Relation.TransGen (Calls rs) m n := by
  rw [leadsTo_iff_transGen, calls_between_ofRecords]

/-- **The graph is without circles when the records are.** -/
theorem acyclic_ofRecords : (ofRecords rs).Acyclic ↔ ∀ n, ¬ OnCircle rs n :=
  forall_congr' fun _ => not_congr leadsTo_ofRecords

end CallGraph

end FlatScript
