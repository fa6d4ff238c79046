import FlatScript.Arrangement
import FlatScript.Proofs.Leaves
import FlatScript.Proofs.Sigils.Table
import FlatScript.Taskfunc
import Mathlib.Algebra.Group.Nat.Defs

/-!
# What single steps leave behind

A step that treats the blocks of a script and the functions of the table one by one is told by
what it does to each of them.
-/

namespace FlatScript

variable {env : Env} {s s' : Script} {p p' : Program} {ε : Type}

/-- A function is found by its name, if no other one has it. -/
theorem Program.function?_of_mem {e : FunctionEntry}
    (hnodup : (p.functions.map FunctionEntry.name).Nodup)
    (he : e ∈ p.functions) : p.function? e.name = some e := by
  unfold Program.function?
  generalize p.functions = es at hnodup he
  induction es with
  | nil => cases he
  | cons e' es ih =>
    rw [List.map_cons, List.nodup_cons] at hnodup
    rcases List.mem_cons.mp he with rfl | he
    · simp
    · have hne : e'.name ≠ e.name := fun heq =>
        hnodup.1 (heq ▸ List.mem_map_of_mem he)
      simp [hne, ih hnodup.2 he]

/-- **A function of the table is changed.** What is counted in all functions changes by what is
counted in this one, if no other one has its name. -/
theorem Program.count_updateFunction {β : Type} [DecidableEq β] (f : FunctionEntry → FunctionEntry)
    (g : FunctionEntry → List β) (hnodup : (p.functions.map FunctionEntry.name).Nodup)
    {e : FunctionEntry} (he : e ∈ p.functions) (x : β) :
    ((p.updateFunction e.name f).functions.flatMap g).count x + (g e).count x =
      (p.functions.flatMap g).count x + (g (f e)).count x := by
  unfold Program.updateFunction
  dsimp only
  generalize p.functions = es at hnodup he
  induction es with
  | nil => cases he
  | cons e' es ih =>
    rw [List.map_cons, List.nodup_cons] at hnodup
    simp only [List.map_cons, List.flatMap_cons, List.count_append]
    rcases List.mem_cons.mp he with rfl | he
    · -- No other function has this name, so the rest of the table stays.
      have hrest : (es.map fun e' => if e'.name == e.name then f e' else e') = es := by
        refine (List.map_congr_left fun e' he' => ?_).trans (List.map_id es)
        rw [if_neg]
        · rfl
        · intro hname
          exact hnodup.1 (List.mem_map.mpr ⟨e', he', beq_iff_eq.mp hname⟩)
      rw [hrest, beq_self_eq_true, if_pos rfl]
      omega
    · have hne : e'.name ≠ e.name := fun hname =>
        hnodup.1 (hname ▸ List.mem_map_of_mem he)
      have hrest := ih hnodup.2 he
      rw [if_neg (by simpa using hne)]
      omega

/-- A block with its leaves changed. -/
inductive Block.MapLeaves (r : LeafMap ε) (control : Ident → Except ε Ident) : Block → Block → Prop
  | callback {c : Callback} {bound : Option Ident} {body : List Stmt}
    (hcontrol : c.control.mapM control = .ok bound) (hbody : mapLeavesStmts r [] c.body = .ok body) :
    MapLeaves r control (.callback c) (.callback { c with control := bound, body })
  | function {f f' : FunctionDef} (h : f.mapLeaves r = .ok f') :
    MapLeaves r control (.function f) (.function f')

/-- A block with its leaves changed meets the rule that its statements are carried to. -/
theorem LeafMap.Carries.block {f : LeafMap ε} {r r' : Rule} (hf : f.Carries r r')
    {control : Ident → Except ε Ident} {b b' : Block} (hb : stmtsMeet r b.body)
    (h : b.MapLeaves f control b') : stmtsMeet r' b'.body := by
  cases h with
  | callback _ hbody => exact hf.stmts trivial _ hb hbody
  | function hf' =>
    obtain ⟨body, hbody, hf'⟩ := Except.bind_eq_ok.mp hf'
    cases hf'
    exact hf.stmts trivial _ hb hbody

/-- The leaves of a script change block by block. -/
theorem Script.mapLeaves_eq_ok {r : LeafMap ε} {control : Ident → Except ε Ident}
    (h : s.mapLeaves r control = .ok s') :
    List.Forall₂ (Block.MapLeaves r control) s.blocks s'.blocks := by
  unfold Script.mapLeaves at h
  obtain ⟨blocks, hblocks, h⟩ := Except.bind_eq_ok.mp h
  cases h
  refine (Except.mapM_eq_ok.mp hblocks).imp fun b b' hb => ?_
  cases b with
  | callback c =>
    obtain ⟨bound, hcontrol, hb⟩ := Except.bind_eq_ok.mp hb
    obtain ⟨body, hbody, hb⟩ := Except.bind_eq_ok.mp hb
    cases hb
    exact .callback hcontrol hbody
  | function f =>
    obtain ⟨f', hf, hb⟩ := Except.bind_eq_ok.mp hb
    cases hb
    exact .function hf

/-- A sigil is found for a name, and the name stays. -/
theorem Sigils.ident_name {scope : Scope} {i j : Ident} {subscripted : Bool}
    (h : ident env p scope i subscripted = .ok j) : j.name = i.name := by
  unfold ident resolve at h
  split at h
  · split at h
    · cases h
      rfl
    · split at h <;> cases h
      rfl
  · split at h
    · cases h
      rfl
    · split at h <;> cases h

/-- **Finding sigils** treats the blocks and the functions one by one. -/
theorem Sigils.script_run (h : (Sigils.script env s).run p = .ok (s', p')) :
    List.Forall₂ (Block.MapLeaves (leafMap env p) fun i => ident env p ⟨[], []⟩ i false)
        s.blocks s'.blocks ∧
      ∃ functions, p' = { p with functions } ∧
        List.Forall₂ (fun e e' => entry env p e = .ok e') p.functions functions := by
  rw [Sigils.script_run_eq] at h
  obtain ⟨blocks, hscript, h⟩ := Except.bind_eq_ok.mp h
  obtain ⟨functions, hmap, h⟩ := Except.bind_eq_ok.mp h
  cases h
  exact ⟨Script.mapLeaves_eq_ok hscript, functions, rfl, Except.mapM_eq_ok.mp hmap⟩

/-- Finding sigils keeps the names of functions. -/
theorem Sigils.names_eq {es es' : List FunctionEntry}
    (h : List.Forall₂ (fun e e' => entry env p e = .ok e') es es') :
    es'.map FunctionEntry.name = es.map FunctionEntry.name := by
  refine map_eq_of_forall₂ h fun e e' he => ?_
  obtain ⟨body, globals, locals, -, -, -, rfl⟩ := entry_eq_ok he
  rfl

/-- **Frames** are built function by function. -/
theorem Taskfunc.program_run (h : (Taskfunc.program env).run p = .ok ((), p')) :
    ∃ functions, p' = { p with functions } ∧
      List.Forall₂ (fun e e' => withFrame env e = .ok e') p.functions functions := by
  unfold Taskfunc.program at h
  simp only [StateT.run_bind, StateT.run_get, pure_bind] at h
  obtain ⟨⟨functions, q⟩, hfunctions, h⟩ := Except.bind_eq_ok.mp h
  obtain ⟨hmap, rfl⟩ := StateT.lift_eq_ok.mp hfunctions
  cases h
  exact ⟨functions, rfl, Except.mapM_eq_ok.mp hmap⟩

/-- What a function with its frame is made of. -/
theorem Taskfunc.withFrame_eq_ok {e e' : FunctionEntry} (h : withFrame env e = .ok e') :
    (e.fn.isTaskfunc = false ∧ e' = e) ∨ (e.fn.isTaskfunc = true ∧ frameSize e < 2 ^ 31 ∧
      ∃ body, (slots e).stmts env e.fn.body = .ok body ∧
        e' = { e with fn := { e.fn with
          params := []
          result := none
          body := enter (frameSize e) e.fn.span ++ body ++ leave (frameSize e) e.fn.span } }) := by
  unfold withFrame at h
  split at h
  · next htask =>
    dsimp only at h
    split at h
    · cases h
    · next hbound =>
      obtain ⟨body, hbody, h⟩ := Except.bind_eq_ok.mp h
      cases h
      exact .inr ⟨htask, by omega, body, hbody, rfl⟩
  · next htask =>
    cases h
    exact .inl ⟨by simpa using htask, rfl⟩

theorem Taskfunc.withFrame_name {e e' : FunctionEntry} (h : withFrame env e = .ok e') :
    e'.name = e.name := by
  rcases withFrame_eq_ok h with ⟨-, rfl⟩ | ⟨-, -, body, -, rfl⟩ <;> rfl

/-- **An arranged script**: the init callback with the declarations that have moved into it, the
functions that are written, and the other blocks. -/
theorem Arrangement.script_run (h : (Arrangement.script s).run p = .ok (s', p')) :
    ∃ init rest, s.blocks = .callback init :: rest ∧
      s'.blocks = .callback { init with body := hoist (markUsed p) init.body } ::
        ((written p.calls (markUsed p)).map .function ++ rest) ∧
      p' = { p with functions := (markUsed p).map withoutHoisted } := by
  unfold Arrangement.script at h
  simp only [StateT.run_bind, StateT.run_get, pure_bind] at h
  split at h
  · cases h
  · split at h
    · next init rest hblocks =>
      cases h
      exact ⟨init, rest, hblocks, rfl, rfl⟩
    · cases h

/-- A script is arranged only if there is no circle of calls. -/
theorem Arrangement.findCycle_eq_none (h : (Arrangement.script s).run p = .ok (s', p')) :
    p.calls.findCycle = none := by
  unfold Arrangement.script at h
  simp only [StateT.run_bind, StateT.run_get, pure_bind] at h
  split at h
  · cases h
  · next hnone => exact hnone

/-- What is asked of a body and of all declarations is true of the body with the declarations
around it. -/
theorem Arrangement.meets_hoist {r : Rule} {functions : List FunctionEntry}
    (hf : ∀ e ∈ functions, stmtsMeet r (e.globals ++ e.locals)) {body : List Stmt}
    (hbody : stmtsMeet r body) : stmtsMeet r (hoist functions body) := by
  induction functions with
  | nil => exact hbody
  | cons e functions ih =>
    have hrest := ih fun e' he' => hf e' (by simp [he'])
    have hdecls := stmtsMeet_append.mp (hf e (by simp))
    change stmtsMeet r (if e.used then e.globals ++ _ ++ e.locals else _)
    split
    · simp only [stmtsMeet_append]
      exact ⟨⟨hdecls.1, hrest⟩, hdecls.2⟩
    · exact hrest

/-- The functions with a mark are the functions of the table. -/
theorem Arrangement.mem_markUsed {e : FunctionEntry} (h : e ∈ markUsed p) :
    ∃ e₀ ∈ p.functions, ∃ used, e = { e₀ with used } := by
  obtain ⟨e₀, he₀, rfl⟩ := List.mem_map.mp h
  exact ⟨e₀, he₀, _, rfl⟩

end FlatScript
