import FlatScript.Inlining.Expand
import FlatScript.Proofs.Outcome
import FlatScript.Proofs.Reachability
import FlatScript.Proofs.Sigils.Table

/-!
# What expansion does to the program

While calls are expanded, little happens to the program. Calls are recorded, functions are
marked as used, and the init callback takes the declarations of functions away. Names, bodies
and symbols stay. `FlatScript.Program.Grows` is this relation between the program before and
after, and everything about expansion rests on it: a function that is in the table stays in
it, a recorded call stays recorded, only functions that can be called are marked as called, and
declarations that were taken away do not come back.
-/

namespace FlatScript

/-! ### Growth of a function -/

/-- **A function of the table, later on**: it may have become used, and its declarations may
have been taken away. -/
structure FunctionEntry.Grows (e e' : FunctionEntry) : Prop where
  fn : e'.fn = e.fn
  decls : (e'.globals = e.globals ∧ e'.locals = e.locals) ∨ (e'.globals = [] ∧ e'.locals = [])
  frame : e'.frame = e.frame

namespace FunctionEntry

variable {e e' e'' : FunctionEntry}

theorem Grows.refl (e : FunctionEntry) : e.Grows e := ⟨rfl, .inl ⟨rfl, rfl⟩, rfl⟩

theorem Grows.trans (h : e.Grows e') (h' : e'.Grows e'') : e.Grows e'' := by
  refine ⟨h'.fn.trans h.fn, ?_, h'.frame.trans h.frame⟩
  rcases h'.decls with ⟨hg', hl'⟩ | hnil
  · rcases h.decls with ⟨hg, hl⟩ | ⟨hg, hl⟩
    · exact .inl ⟨hg'.trans hg, hl'.trans hl⟩
    · exact .inr ⟨hg'.trans hg, hl'.trans hl⟩
  · exact .inr hnil

theorem Grows.name (h : e.Grows e') : e'.name = e.name := congrArg (·.name.name) h.fn

/-- Whether a function has declarations that belong into the init callback. -/
def hasDecls (e : FunctionEntry) : Bool := !(e.globals ++ e.locals).isEmpty

/-- A function gets no declarations. -/
theorem Grows.hasDecls (h : e.Grows e') : e'.hasDecls = true → e.hasDecls = true := by
  rcases h.decls with ⟨hg, hl⟩ | ⟨hg, hl⟩ <;> simp [FunctionEntry.hasDecls, hg, hl]

end FunctionEntry

/-! ### Growth of a program -/

/-- **A function that can be the target of `call`**: a task function, or one without
parameters. -/
def FunctionDef.IsTarget (f : FunctionDef) : Prop := f.isTaskfunc = true ∨ f.params = []

/-- A name is that of a function that can be the target of `call`. -/
def Program.IsTarget (p : Program) (name : String) : Prop :=
  ∃ e, p.function? name = some e ∧ e.fn.IsTarget

/-- **The program, later on.** -/
structure Program.Grows (p p' : Program) : Prop where
  symbols : p'.symbols = p.symbols
  functions : List.Forall₂ FunctionEntry.Grows p.functions p'.functions
  calls : p.calls.calls ⊆ p'.calls.calls
  explicit : p.calls.explicit ⊆ p'.calls.explicit
  marked : ∀ name ∈ p'.calls.explicit, name ∈ p.calls.explicit ∨ p.IsTarget name
  complete : p.calls.Complete → p'.calls.Complete

namespace Program

variable {p p' p'' : Program} {name : String}

theorem Grows.refl (p : Program) : p.Grows p :=
  ⟨rfl, List.forall₂_same.mpr fun e _ => .refl e, fun _ h => h, fun _ h => h, fun _ => .inl, id⟩

theorem forall₂_grows_trans {es es' es'' : List FunctionEntry}
    (h : List.Forall₂ FunctionEntry.Grows es es') (h' : List.Forall₂ FunctionEntry.Grows es' es'') :
    List.Forall₂ FunctionEntry.Grows es es'' := by
  induction h generalizing es'' with
  | nil => exact h'
  | cons he _ ih =>
    cases h' with
    | cons he' hs' => exact .cons (he.trans he') (ih hs')

/-- A function of the table was in it before. -/
theorem Grows.mem_before (h : p.Grows p') {e' : FunctionEntry} (he' : e' ∈ p'.functions) :
    ∃ e ∈ p.functions, e.Grows e' :=
  exists_mem_of_forall₂ h.functions he'

/-- A function of the table stays at its place. -/
theorem Grows.getElem?_after (h : p.Grows p') {i : Nat} {e : FunctionEntry}
    (he : p.functions[i]? = some e) : ∃ e', p'.functions[i]? = some e' ∧ e.Grows e' := by
  have hrel := optionRel_getElem? h.functions i
  rw [he] at hrel
  cases hfind : p'.functions[i]? with
  | none =>
    rw [hfind] at hrel
    cases hrel
  | some e' =>
    rw [hfind] at hrel
    cases hrel with
    | some hgrows => exact ⟨e', rfl, hgrows⟩

/-- The names of the functions stay. -/
theorem Grows.names (h : p.Grows p') :
    p'.functions.map FunctionEntry.name = p.functions.map FunctionEntry.name :=
  map_eq_of_forall₂ h.functions fun _ _ he => he.name

theorem Grows.isUserFunction (h : p.Grows p') (name : String) :
    p'.isUserFunction name = p.isUserFunction name :=
  isUserFunction_congr h.names name

theorem mem_functions_of_function? {e : FunctionEntry} (h : p.function? name = some e) :
    e ∈ p.functions ∧ e.name = name := by
  refine ⟨List.mem_of_find?_eq_some h, ?_⟩
  simpa using List.find?_some h

theorem isUserFunction_of_function? {e : FunctionEntry} (h : p.function? name = some e) :
    p.isUserFunction name = true := by
  obtain ⟨hmem, hname⟩ := mem_functions_of_function? h
  exact List.any_eq_true.mpr ⟨e, hmem, by simp [hname]⟩

/-- A function that is found by its name is found later on too. -/
theorem Grows.function? (h : p.Grows p') (name : String) :
    Option.Rel FunctionEntry.Grows (p.function? name) (p'.function? name) :=
  optionRel_find? h.functions fun _ _ he => by rw [he.name]

/-- A function that is found later on was there before. -/
theorem Grows.exists_before (h : p.Grows p') {e' : FunctionEntry}
    (he' : p'.function? name = some e') :
    ∃ e, p.function? name = some e ∧ e.Grows e' := by
  have hrel := h.function? name
  rw [he'] at hrel
  cases hfind : p.function? name with
  | none => rw [hfind] at hrel; cases hrel
  | some e =>
    rw [hfind] at hrel
    cases hrel with
    | some he => exact ⟨e, rfl, he⟩

/-- A function that was there before is found later on. -/
theorem Grows.exists_after (h : p.Grows p') {e : FunctionEntry}
    (he : p.function? name = some e) :
    ∃ e', p'.function? name = some e' ∧ e.Grows e' := by
  have hrel := h.function? name
  rw [he] at hrel
  cases hfind : p'.function? name with
  | none => rw [hfind] at hrel; cases hrel
  | some e' =>
    rw [hfind] at hrel
    cases hrel with
    | some he' => exact ⟨e', rfl, he'⟩

/-- A function that can be called later on could be called before. -/
theorem Grows.isTarget_before (h : p.Grows p') (hname : p'.IsTarget name) : p.IsTarget name := by
  obtain ⟨e', he', hkind⟩ := hname
  obtain ⟨e, he, hgrows⟩ := h.exists_before he'
  exact ⟨e, he, hgrows.fn ▸ hkind⟩

theorem Grows.trans (h : p.Grows p') (h' : p'.Grows p'') : p.Grows p'' := by
  refine ⟨h'.symbols.trans h.symbols, forall₂_grows_trans h.functions h'.functions,
    fun _ hx => h'.calls (h.calls hx), fun _ hx => h'.explicit (h.explicit hx), fun name hname => ?_,
    h'.complete ∘ h.complete⟩
  rcases h'.marked name hname with hname' | htarget
  · exact h.marked name hname'
  · exact .inr (h.isTarget_before htarget)

theorem Grows.isBuiltinCall (h : p.Grows p') (b : Builtins) (name : String) :
    p'.isBuiltinCall b name = p.isBuiltinCall b name := by
  have hrel := h.function? name
  simp only [Program.isBuiltinCall]
  cases hp : p.function? name with
  | none =>
    rw [hp] at hrel
    cases hp' : p'.function? name with
    | none => rfl
    | some e' => rw [hp'] at hrel; cases hrel
  | some e =>
    rw [hp] at hrel
    cases hp' : p'.function? name with
    | none => rw [hp'] at hrel; cases hrel
    | some e' =>
      rw [hp'] at hrel
      cases hrel with
      | some he => simp [he.fn]

theorem Grows.isExplicit (h : p.Grows p') (hname : p.calls.isExplicit name = true) :
    p'.calls.isExplicit name = true := by
  simp only [CallGraph.isExplicit, List.contains_iff_mem] at hname ⊢
  exact h.explicit hname

/-! ### Single changes -/

/-- Recording a call lets the program grow. -/
theorem grows_addCall (p : Program) (caller : Caller) (name : String) :
    p.Grows { p with calls := p.calls.addCall caller name } := by
  refine ⟨rfl, List.forall₂_same.mpr fun e _ => .refl e, ?_, ?_, ?_, fun h => h.addCall _ _⟩
  · intro c hc
    cases caller <;> simp [CallGraph.addCall, CallGraph.ensure, hc]
  · intro f hf
    cases caller <;> simpa [CallGraph.addCall, CallGraph.ensure] using hf
  · intro f hf
    cases caller <;> exact .inl hf

theorem mem_addCall (g : CallGraph) (caller : Caller) (name : String) :
    (caller, name) ∈ (g.addCall caller name).calls := by
  cases caller <;> simp [CallGraph.addCall]

/-- Marking a function as called lets the program grow, when it can be called. -/
theorem grows_markExplicit (hname : p.IsTarget name) :
    p.Grows { p with calls := p.calls.markExplicit name } := by
  refine ⟨rfl, List.forall₂_same.mpr fun e _ => .refl e, fun _ h => h, ?_, ?_, id⟩
  · intro f hf
    simp only [CallGraph.markExplicit, Name.insertNew]
    split
    · exact hf
    · exact List.mem_append_left _ hf
  · intro f hf
    simp only [CallGraph.markExplicit, Name.insertNew] at hf
    split at hf
    · exact .inl hf
    · rcases List.mem_append.mp hf with hf | hf
      · exact .inl hf
      · exact .inr (List.mem_singleton.mp hf ▸ hname)

theorem isExplicit_markExplicit (g : CallGraph) (name : String) :
    (g.markExplicit name).isExplicit name = true := by
  simp only [CallGraph.markExplicit, CallGraph.isExplicit, Name.insertNew]
  split
  · assumption
  · simp

/-- Changing the functions of a name by a step that lets them grow lets the program grow. -/
theorem grows_updateFunction (p : Program) (name : String) {f : FunctionEntry → FunctionEntry}
    (hf : ∀ e, FunctionEntry.Grows e (f e)) : p.Grows (p.updateFunction name f) := by
  refine ⟨rfl, ?_, fun _ h => h, fun _ h => h, fun _ => .inl, id⟩
  simp only [updateFunction, List.forall₂_map_right_iff, List.forall₂_same]
  intro e _
  split
  · exact hf e
  · exact .refl e

/-- The program without the declarations of a function. -/
def drained (p : Program) (name : String) : Program :=
  p.updateFunction name ({ · with globals := [], locals := [] })

theorem grows_drained (p : Program) (name : String) : p.Grows (p.drained name) :=
  p.grows_updateFunction name fun _ => ⟨rfl, .inr ⟨rfl, rfl⟩, rfl⟩

/-- Noting a function that waits lets the program grow. -/
theorem grows_waiting (p : Program) (waiting : List String) :
    p.Grows { p with waiting } :=
  ⟨rfl, List.forall₂_same.mpr fun e _ => .refl e, fun _ h => h, fun _ h => h, fun _ => .inl, id⟩

end Program

end FlatScript
