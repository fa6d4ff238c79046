import FlatScript.Proofs.Characters
import FlatScript.Proofs.Dialect
import FlatScript.Proofs.Inlining.Declared
import FlatScript.Proofs.Reachability

/-!
# Hoisting is exact

The declarations of a function end up in the init callbacks of the arranged script, each of them
once, if a callback reaches the function, and they end up nowhere if none does. It makes no
difference whether a copy in an init callback has taken them there, or the arrangement, and how
often the function was copied. The declarations in the frames of task functions are not written.

Declared names carry their places, so the lists of declared names that are compared here tell one
declaration from another; `FlatScript.hoisting_exact` says that the lists are the same up to
order.
-/

namespace FlatScript

variable {env : Env} {s s' : Script} {p p' : Program}

/-! ### Functions that are reached -/

instance (g : CallGraph) (c : Caller) : DecidablePred (g.LeadsTo c) := fun n =>
  decidable_of_iff (n ∈ g.reachableFrom (g.callees c)) CallGraph.mem_reachableFrom_callees

/-- **The declarations of the functions that satisfy a condition.** -/
def Program.declaredBy (p : Program) (P : String → Prop) [DecidablePred P] : List Ident :=
  (p.functions.filter fun e => P e.name).flatMap FunctionEntry.declared

variable {P : String → Prop} [DecidablePred P]

/-- A function satisfies a condition or it does not. -/
theorem Program.count_declared (p : Program) (P : String → Prop) [DecidablePred P] (i : Ident) :
    p.declared.count i = (p.declaredBy P).count i + (p.declaredBy (¬ P ·)).count i := by
  unfold declared declaredBy
  induction p.functions with
  | nil => rfl
  | cons e es ih =>
    simp only [List.flatMap_cons, List.count_append, List.filter_cons, decide_not]
    by_cases hP : P e.name
    · simp only [hP, decide_true, if_true, Bool.not_true, Bool.false_eq_true, if_false,
        List.flatMap_cons, List.count_append]
      simp only [decide_not] at ih
      omega
    · simp only [hP, decide_false, Bool.false_eq_true, if_false, Bool.not_false, if_true,
        List.flatMap_cons, List.count_append]
      simp only [decide_not] at ih
      omega

/-- Functions that declare the same under the same names. -/
theorem Program.declaredBy_eq {R : FunctionEntry → FunctionEntry → Prop}
    (h : List.Forall₂ R p.functions p'.functions)
    (hR : ∀ e e', R e e' → e'.name = e.name ∧ (P e.name → e'.declared = e.declared)) :
    p'.declaredBy P = p.declaredBy P := by
  unfold declaredBy
  generalize p.functions = es at h ⊢
  generalize p'.functions = es' at h ⊢
  induction h with
  | nil => rfl
  | @cons e e' es es' he _ ih =>
    obtain ⟨hname, hdeclared⟩ := hR e e' he
    simp only [List.filter_cons, hname]
    by_cases hP : P e.name
    · simp only [hP, decide_true, if_true, List.flatMap_cons, hdeclared hP, ih]
    · simp only [hP, decide_false, Bool.false_eq_true, if_false, ih]

/-! ### Lowering and sigils -/

theorem Sigils.entry_declared {e e' : FunctionEntry} (h : entry env p e = .ok e') :
    e'.declared = e.declared := by
  obtain ⟨body, globals, locals, -, hglobals, hlocals, rfl⟩ := entry_eq_ok h
  simp only [FunctionEntry.declared, stmtsDeclared_append, stmtsDeclared_mapLeaves _ hglobals,
    stmtsDeclared_mapLeaves _ hlocals]

/-- What expansion asks of the table is true of it after lowering. -/
theorem Lowering.script_ready (h : (Lowering.script env s).run {} = .ok (s', p')) :
    Inlining.Ready p' :=
  ⟨(table_undeclared h).1, fun e he => ((table_undeclared h).2 e he).1⟩

/-- What expansion asks of the table stays true when sigils are found. -/
theorem Sigils.script_ready (hp : Inlining.Ready p)
    (h : (Sigils.script env s).run p = .ok (s', p')) : Inlining.Ready p' := by
  obtain ⟨-, functions, rfl, hfunctions⟩ := Sigils.script_run h
  refine ⟨?_, fun e he => ?_⟩
  · change (functions.map FunctionEntry.name).Nodup
    rw [names_eq hfunctions]
    exact hp.nodup
  · obtain ⟨e₀, he₀, hentry⟩ := exists_mem_of_forall₂ hfunctions he
    obtain ⟨body, globals, locals, hbody, -, -, rfl⟩ := entry_eq_ok hentry
    exact (stmtsDeclared_mapLeaves _ hbody).trans (hp.bodies e₀ he₀)

theorem Block.MapLeaves.isInit {ε : Type} {r : LeafMap ε} {control : Ident → Except ε Ident}
    {b b' : Block} (h : b.MapLeaves r control b') : b'.isInit = b.isInit := by
  cases h <;> rfl

theorem Sigils.script_declaredIn (h : (Sigils.script env s).run p = .ok (s', p')) (init : Bool) :
    s'.declaredIn init = s.declaredIn init := by
  have hblocks := (Sigils.script_run h).1
  clear h
  obtain ⟨bs⟩ := s
  obtain ⟨bs'⟩ := s'
  dsimp only at hblocks
  induction hblocks with
  | nil => rfl
  | cons hb _ ih =>
    rw [Script.declaredIn_cons, Script.declaredIn_cons, hb.isInit, Block.declared_mapLeaves hb, ih]

/-! ### Expansion -/

/-- **Expansion moves the declarations of functions that calls lead to**, into init callbacks. -/
theorem Inlining.count_reached (hp : Ready p) (h : (script env s).run p = .ok (s', p'))
    (i : Ident) :
    (s.declaredIn true).count i + (p.declaredBy (p'.calls.LeadsTo none)).count i =
      (s'.declaredIn true).count i + (p'.declaredBy (p'.calls.LeadsTo none)).count i := by
  obtain ⟨p₁, bodies, -, hmoves, -, rfl⟩ := script_moves hp h
  dsimp only
  have hwith : Program.declaredBy { p₁ with functions := p₁.functions.map (withBody bodies) }
      (p₁.calls.LeadsTo none) = p₁.declaredBy (p₁.calls.LeadsTo none) := by
    refine Program.declaredBy_eq (R := fun e e' => e' = withBody bodies e) ?_ ?_
    · simp [List.forall₂_map_right_iff, List.forall₂_same]
    · rintro e _ rfl
      exact ⟨withBody_name .., fun _ => withBody_declared ..⟩
  -- A function that nothing leads to is called by no callback, so it keeps its declarations.
  have hunreached : p₁.declaredBy (¬ p₁.calls.LeadsTo none ·) =
      p.declaredBy (¬ p₁.calls.LeadsTo none ·) := by
    refine Program.declaredBy_eq hmoves.functions fun e e' hkept => ⟨hkept.name, fun hnot => ?_⟩
    rcases hkept.2 with ⟨hdeclared, -⟩ | hcall
    · exact hdeclared
    · exact absurd (.call hcall) hnot
  have hbalance := hmoves.balance i
  rw [p.count_declared (p₁.calls.LeadsTo none), p₁.count_declared (p₁.calls.LeadsTo none),
    hunreached] at hbalance
  rw [hwith]
  omega

/-- Functions that are used are called by a callback, if none was used before. -/
theorem Inlining.called_of_used (hp : Ready p) (hused : ∀ e ∈ p.functions, e.used = false)
    (h : (script env s).run p = .ok (s', p')) {e : FunctionEntry} (he : e ∈ p'.functions)
    (hmark : e.used = true) : (none, e.name) ∈ p'.calls.calls := by
  obtain ⟨p₁, bodies, -, hmoves, -, rfl⟩ := script_moves hp h
  obtain ⟨e₁, he₁, rfl⟩ := List.mem_map.mp he
  obtain ⟨e₀, he₀, hkept⟩ := exists_mem_of_forall₂ hmoves.functions he₁
  have hmark₁ : e₁.used = true := by
    unfold withBody at hmark
    split at hmark <;> exact hmark
  rw [withBody_name, hkept.name]
  rcases hkept.2 with ⟨-, hu⟩ | hcall
  · rw [hu, hused e₀ he₀] at hmark₁
    cases hmark₁
  · exact hcall

/-- The bodies of functions declare nothing after expansion either. -/
theorem Inlining.bodies_undeclared (hp : Ready p) (h : (script env s).run p = .ok (s', p'))
    {e : FunctionEntry} (he : e ∈ p'.functions) : stmtsDeclared e.fn.body = [] := by
  obtain ⟨p₁, bodies, -, hmoves, hbodies, rfl⟩ := script_moves hp h
  obtain ⟨e₁, he₁, rfl⟩ := List.mem_map.mp he
  rcases withBody_cases bodies e₁ with heq | ⟨body, hmem, heq⟩
  · rw [heq]
    exact (hmoves.ready hp).bodies e₁ he₁
  · rw [heq]
    exact hbodies _ hmem

/-! ### Frames -/

theorem Taskfunc.withFrame_undeclared {e e' : FunctionEntry} (h : withFrame env e = .ok e')
    (he : stmtsDeclared e.fn.body = []) :
    stmtsDeclared e'.fn.body = [] ∧ e'.declared = e.declared ∧ e'.used = e.used := by
  rcases withFrame_eq_ok h with ⟨-, rfl⟩ | ⟨-, -, body, hbody, rfl⟩
  · exact ⟨he, rfl, rfl⟩
  · refine ⟨?_, rfl, rfl⟩
    have hnil : stmtsDeclared body = [] := (stmtsDeclared_mapLeaves _ hbody).trans he
    simp [enter, leave, assign, Stmt.written, stmtsDeclared, Stmt.declared, hnil]

/-! ### Arrangement -/

namespace Arrangement

/-- The hoisted declarations are those of the functions that are used. -/
theorem hoist_perm (functions : List FunctionEntry) (body : List Stmt) :
    (stmtsDeclared (hoist functions body)).Perm
      (stmtsDeclared body ++ (functions.filter (·.used)).flatMap FunctionEntry.declared) := by
  refine List.perm_iff_count.mpr fun i => ?_
  induction functions with
  | nil => simp [hoist]
  | cons e functions ih =>
    change (stmtsDeclared (if e.used then e.globals ++ hoist functions body ++ e.locals
      else hoist functions body)).count i = _
    cases hused : e.used with
    | false => simpa [hused] using ih
    | true =>
      simp only [if_true, stmtsDeclared_append, List.count_append, List.filter_cons, hused,
        List.flatMap_cons, FunctionEntry.declared] at ih ⊢
      omega

/-- **The functions that are used are those that calls lead to from a callback**, if those that were
used before the marks are called by one. -/
theorem used_iff (hp : ∀ e ∈ p.functions, e.used = true → (none, e.name) ∈ p.calls.calls)
    {e : FunctionEntry} (he : e ∈ markUsed p) : e.used = true ↔ p.calls.LeadsTo none e.name := by
  obtain ⟨e₀, he₀, rfl⟩ := List.mem_map.mp he
  simp only [Bool.or_eq_true, List.contains_eq_mem, decide_eq_true_eq,
    CallGraph.mem_reachableFromRoot]
  exact ⟨fun h => h.elim (fun hmark => .call (hp e₀ he₀ hmark)) id, .inr⟩

/-- What calls lead to from a callback is used, if it is in the table. -/
theorem exists_used {e : FunctionEntry} (he : e ∈ p.functions)
    (hled : p.calls.LeadsTo none e.name) : ∃ e' ∈ markUsed p, e'.name = e.name ∧ e'.used = true := by
  refine ⟨_, List.mem_map_of_mem he, rfl, ?_⟩
  simp [CallGraph.mem_reachableFromRoot.mpr hled]

/-- The functions that are marked are those that calls lead to. -/
theorem used_markUsed (hp : ∀ e ∈ p.functions, e.used = true → (none, e.name) ∈ p.calls.calls) :
    ((markUsed p).filter (·.used)).flatMap FunctionEntry.declared =
      p.declaredBy (p.calls.LeadsTo none) := by
  have hfilter : (markUsed p).filter (·.used) =
      (markUsed p).filter fun e => p.calls.LeadsTo none e.name :=
    List.filter_congr fun e he => by rw [Bool.eq_iff_iff, used_iff hp he, decide_eq_true_eq]
  rw [hfilter]
  unfold markUsed Program.declaredBy
  rw [List.filter_map, List.flatMap_map]
  rfl

/-- **Arrangement puts the declarations of the functions that are reached into the init
callback**, and no others anywhere. -/
theorem script_perm (hinit : ∀ b ∈ s.blocks.head?, b.isInit = true)
    (hused : ∀ e ∈ p.functions, e.used = true → (none, e.name) ∈ p.calls.calls)
    (hbodies : ∀ e ∈ p.functions, stmtsDeclared e.fn.body = [])
    (h : (Arrangement.script s).run p = .ok (s', p')) :
    (s'.declaredIn true).Perm (s.declaredIn true ++ p.declaredBy (p.calls.LeadsTo none)) ∧
      s'.declaredIn false = s.declaredIn false := by
  obtain ⟨init, rest, hblocks, hblocks', -⟩ := Arrangement.script_run h
  have hfirst : Block.isInit (.callback init) = true := hinit _ (by simp [hblocks])
  have hfirst' : Block.isInit (.callback { init with body := hoist (markUsed p) init.body }) = true :=
    hfirst
  have hwritten : ∀ init', Script.declaredIn
      ⟨(written p.calls (markUsed p)).map Block.function⟩ init' = [] := by
    intro init'
    refine List.flatMap_eq_nil_iff.mpr fun b hb => ?_
    obtain ⟨f, hf, rfl⟩ := List.mem_map.mp (List.mem_filter.mp hb).1
    obtain ⟨-, e, he, -, rfl⟩ := mem_written hf
    obtain ⟨e₀, he₀, used, rfl⟩ := mem_markUsed he
    exact hbodies e₀ he₀
  obtain ⟨bs⟩ := s
  obtain ⟨bs'⟩ := s'
  dsimp only at hblocks hblocks'
  subst hblocks hblocks'
  simp only [Script.declaredIn_cons, Script.declaredIn_append, hwritten, hfirst, hfirst',
    List.nil_append]
  refine ⟨?_, rfl⟩
  have hhoist := hoist_perm (markUsed p) init.body
  rw [used_markUsed hused] at hhoist
  refine List.perm_iff_count.mpr fun i => ?_
  have hcount := hhoist.count_eq i
  simp only [beq_self_eq_true, if_true, Block.body, List.count_append] at hcount ⊢
  omega

end Arrangement

/-! ### Whole scripts -/

theorem isInit_of_head {s : Script} (h : s.heads.head? = some (.callback "init")) :
    ∀ b ∈ s.blocks.head?, b.isInit = true := by
  intro b hb
  rw [Script.heads, List.head?_map, Option.mem_def.mp hb, Option.map_some, Option.some.injEq] at h
  cases b with
  | callback c =>
    cases c
    cases h
    rfl
  | function f => cases h

/-- The declarations in the frames of task functions. -/
def Program.framed (p : Program) : List Ident :=
  p.functions.flatMap fun e => stmtsDeclared e.frame

/-- **Declarations are hoisted exactly**, from a lowered script and its table to an arranged script.
The first two fields compare lists; the others say what that means for a single declaration, when
no two declarations have the same name and place. -/
structure Hoisted (lowered : Script) (table : Program) (calls : CallGraph) (arranged : Script) :
    Prop where
  /-- The init callbacks have their own declarations, and those of the functions that are reached
  from a callback. -/
  init : (arranged.declaredIn true).Perm
    (lowered.declaredIn true ++ table.declaredBy (calls.LeadsTo none))
  /-- The other blocks have their own declarations. -/
  elsewhere : (arranged.declaredIn false).Perm (lowered.declaredIn false)
  /-- The declaration of a function is written once in an init callback or not at all. -/
  once : (lowered.declared ++ table.declared ++ table.framed).Nodup →
    ∀ e ∈ table.functions, ∀ i ∈ e.declared, (arranged.declaredIn false).count i = 0 ∧
      (arranged.declaredIn true).count i = if calls.LeadsTo none e.name then 1 else 0
  /-- The declaration of a cell of a frame is not written. -/
  frames : (lowered.declared ++ table.declared ++ table.framed).Nodup →
    ∀ i ∈ table.framed, i ∉ arranged.declared

/-- Whether a declaration is among those of the functions that satisfy a condition, when it is
there once. -/
theorem Program.count_declaredBy (hnodup : p.declared.Nodup) {e : FunctionEntry}
    (he : e ∈ p.functions) {i : Ident} (hi : i ∈ e.declared) :
    (p.declaredBy P).count i = if P e.name then 1 else 0 := by
  have hone : p.declared.count i = 1 :=
    List.count_eq_one_of_mem hnodup (List.mem_flatMap.mpr ⟨e, he, hi⟩)
  rw [p.count_declared P] at hone
  split_ifs with hP
  · have hpos : 0 < (p.declaredBy P).count i :=
      List.count_pos_iff.mpr (List.mem_flatMap.mpr ⟨e, by simp [he, hP], hi⟩)
    omega
  · have hpos : 0 < (p.declaredBy (¬ P ·)).count i :=
      List.count_pos_iff.mpr (List.mem_flatMap.mpr ⟨e, by simp [he, hP], hi⟩)
    omega

theorem Program.declaredBy_subset : p.declaredBy P ⊆ p.declared := by
  intro i hi
  obtain ⟨e, he, hi⟩ := List.mem_flatMap.mp hi
  exact List.mem_flatMap.mpr ⟨e, (List.mem_filter.mp he).1, hi⟩

/-- What the comparison of lists means for single declarations. -/
theorem Hoisted.of_perm {lowered arranged : Script} {table : Program} {calls : CallGraph}
    (hinit : (arranged.declaredIn true).Perm
      (lowered.declaredIn true ++ table.declaredBy (calls.LeadsTo none)))
    (helse : (arranged.declaredIn false).Perm (lowered.declaredIn false)) :
    Hoisted lowered table calls arranged := by
  have hlowered := lowered.declared_perm
  refine ⟨hinit, helse, fun hnodup e he i hi => ?_, fun hnodup i hi hmem => ?_⟩
  · have hdisjoint := List.nodup_append'.mp (List.nodup_append'.mp hnodup).1
    have hnone : lowered.declared.count i = 0 := by
      refine List.count_eq_zero.mpr fun hmem => hdisjoint.2.2 hmem ?_
      exact List.mem_flatMap.mpr ⟨e, he, hi⟩
    rw [hlowered.count_eq, List.count_append] at hnone
    rw [hinit.count_eq, helse.count_eq, List.count_append,
      Program.count_declaredBy hdisjoint.2.1 he hi]
    omega
  · have hdisjoint := (List.nodup_append'.mp hnodup).2.2
    refine hdisjoint (a := i) ?_ hi
    rcases List.mem_append.mp (arranged.declared_perm.subset hmem) with hmem | hmem
    · rcases List.mem_append.mp (hinit.subset hmem) with hmem | hmem
      · exact List.mem_append_left _ (hlowered.symm.subset (List.mem_append_left _ hmem))
      · exact List.mem_append_right _ (Program.declaredBy_subset hmem)
    · exact List.mem_append_left _
        (hlowered.symm.subset (List.mem_append_right _ (helse.subset hmem)))

section Steps

variable {s₁ s₂ s₃ s₄ : Script} {p₁ p₂ p₃ p₄ p₅ : Program}

/-- A function that is used before the script is arranged is called by a callback. -/
theorem called_of_framed (hlower : (Lowering.script env s).run {} = .ok (s₁, p₁))
    (hsigils : (Sigils.script env s₁).run p₁ = .ok (s₂, p₂))
    (hexpand : (Inlining.script env s₂).run p₂ = .ok (s₃, p₃))
    (hframes : (Taskfunc.program env).run p₃ = .ok ((), p₄)) {e : FunctionEntry}
    (he : e ∈ p₄.functions) (hmark : e.used = true) : (none, e.name) ∈ p₄.calls.calls := by
  have hready₂ := Sigils.script_ready (Lowering.script_ready hlower) hsigils
  have hused₂ : ∀ e ∈ p₂.functions, e.used = false := by
    obtain ⟨-, functions₂, rfl, hentries⟩ := Sigils.script_run hsigils
    intro e he
    obtain ⟨e₀, he₀, hentry⟩ := exists_mem_of_forall₂ hentries he
    obtain ⟨body, globals, locals, -, -, -, rfl⟩ := Sigils.entry_eq_ok hentry
    exact ((Lowering.table_undeclared hlower).2 e₀ he₀).2
  obtain ⟨functions₄, rfl, hwith⟩ := Taskfunc.program_run hframes
  obtain ⟨e₀, he₀, hframe⟩ := exists_mem_of_forall₂ hwith he
  obtain ⟨-, -, hused⟩ :=
    Taskfunc.withFrame_undeclared hframe (Inlining.bodies_undeclared hready₂ hexpand he₀)
  rw [Taskfunc.withFrame_name hframe]
  exact Inlining.called_of_used hready₂ hused₂ hexpand he₀ (hused ▸ hmark)

/-- **Where the declarations of a lowered script and its table are** once it is arranged. -/
theorem arranged_perm (hlower : (Lowering.script env s).run {} = .ok (s₁, p₁))
    (hsigils : (Sigils.script env s₁).run p₁ = .ok (s₂, p₂))
    (hexpand : (Inlining.script env s₂).run p₂ = .ok (s₃, p₃))
    (hframes : (Taskfunc.program env).run p₃ = .ok ((), p₄))
    (harrange : (Arrangement.script s₃).run p₄ = .ok (s₄, p₅)) :
    (s₄.declaredIn true).Perm (s₁.declaredIn true ++ p₁.declaredBy (p₄.calls.LeadsTo none)) ∧
      (s₄.declaredIn false).Perm (s₁.declaredIn false) := by
  have hready₁ := Lowering.script_ready hlower
  have hready₂ := Sigils.script_ready hready₁ hsigils
  have hhead : s₃.heads.head? = some (.callback "init") := by
    rw [(Inlining.script_heads hexpand).1, Sigils.script_heads hsigils]
    exact Lowering.script_init hlower
  -- The table before expansion is the lowered one, with sigils.
  obtain ⟨-, functions₂, hp₂, hentries⟩ := Sigils.script_run hsigils
  have hby₂ : p₂.declaredBy (p₃.calls.LeadsTo none) = p₁.declaredBy (p₃.calls.LeadsTo none) := by
    rw [← show p₂.functions = functions₂ by rw [hp₂]] at hentries
    refine Program.declaredBy_eq hentries fun e e' hentry => ?_
    refine ⟨?_, fun _ => Sigils.entry_declared hentry⟩
    obtain ⟨body, globals, locals, -, -, -, rfl⟩ := Sigils.entry_eq_ok hentry
    rfl
  -- The table before arrangement is the expanded one, with frames.
  have hcalled : ∀ e ∈ p₄.functions, e.used = true → (none, e.name) ∈ p₄.calls.calls :=
    fun e he => called_of_framed hlower hsigils hexpand hframes he
  obtain ⟨functions₄, rfl, hwith⟩ := Taskfunc.program_run hframes
  have hundeclared : ∀ e ∈ functions₄, stmtsDeclared e.fn.body = [] := by
    intro e he
    obtain ⟨e₀, he₀, hframe⟩ := exists_mem_of_forall₂ hwith he
    exact (Taskfunc.withFrame_undeclared hframe
      (Inlining.bodies_undeclared hready₂ hexpand he₀)).1
  have hby₄ : Program.declaredBy { p₃ with functions := functions₄ } (p₃.calls.LeadsTo none) =
      p₃.declaredBy (p₃.calls.LeadsTo none) := by
    refine Program.declaredBy_eq hwith fun e e' hframe => ⟨Taskfunc.withFrame_name hframe, ?_⟩
    rcases Taskfunc.withFrame_eq_ok hframe with ⟨-, rfl⟩ | ⟨-, -, body, -, rfl⟩ <;> exact fun _ => rfl
  obtain ⟨hinit, helse⟩ := Arrangement.script_perm (p := { p₃ with functions := functions₄ })
    (isInit_of_head hhead) hcalled hundeclared harrange
  refine ⟨List.perm_iff_count.mpr fun i => ?_, ?_⟩
  · have hcount := hinit.count_eq i
    have hmoved := Inlining.count_reached hready₂ hexpand i
    rw [hby₄] at hcount
    rw [Sigils.script_declaredIn hsigils, hby₂] at hmoved
    simp only [List.count_append] at hcount ⊢
    omega
  · obtain ⟨-, -, halike, -⟩ := Inlining.script_moves hready₂ hexpand
    rw [helse, ← Sigils.script_declaredIn hsigils]
    exact (Inlining.declaredIn_false_perm halike).symm

/-- **Hoisting is exact.** Whatever script is lowered, gets its sigils, is expanded, gets its frames
and is arranged: the declarations of a function end up in the init callbacks, once each, if calls
lead to the function from a callback, and they are dropped otherwise. -/
theorem hoisting_exact (hlower : (Lowering.script env s).run {} = .ok (s₁, p₁))
    (hsigils : (Sigils.script env s₁).run p₁ = .ok (s₂, p₂))
    (hexpand : (Inlining.script env s₂).run p₂ = .ok (s₃, p₃))
    (hframes : (Taskfunc.program env).run p₃ = .ok ((), p₄))
    (harrange : (Arrangement.script s₃).run p₄ = .ok (s₄, p₅)) :
    Hoisted s₁ p₁ p₄.calls s₄ := by
  obtain ⟨hinit, helsewhere⟩ := arranged_perm hlower hsigils hexpand hframes harrange
  exact .of_perm hinit helsewhere

end Steps

/-! ### Functions that are copied, called and dropped -/

/-- A function that is copied twice in the init callback and once elsewhere, one that is only
called, and one that is neither. -/
def copiedText : String :=
  "on init\ncopied\ncopied\nend on\non note\ncopied\ncall called\nend on\n" ++
    "function copied\ndeclare x\nx := 1\nend function\n" ++
    "function called\ndeclare global y\ny := 2\nend function\n" ++
    "function dropped\ndeclare z\nz := 3\nend function\n"

/-- What is written for it. -/
def copiedCode : String :=
  "on init\ndeclare $y\ndeclare $_x\n$_x := 1\n$_x := 1\nend on\n" ++
    "function called\n$y := 2\nend function\non note\n$_x := 1\ncall called\nend on\n"

theorem copiedText_hoisted : ∃ c, compile ⟨{}, .empty⟩ {} copiedText = .ok c ∧
    c.code = copiedCode ∧
    ∃ r : Compilation ⟨{}, .empty⟩ (Options.withPragmas {} copiedText .empty) copiedText,
      Hoisted r.lowered.1 r.lowered.2 r.framed.calls r.arranged.1 := by
  set_option maxRecDepth 4000 in
  have htext : copiedText.toList = _ :=
    Text.toList_pieces (Text.toList_pieces (Text.toList_pieces String.toList_ofList
      String.toList_ofList) String.toList_ofList) String.toList_ofList
  have hcode : (compile ⟨{}, .empty⟩ {} copiedText).toOption.map Compiled.code =
      some copiedCode := by
    rw [compile_eq_ofChars _ _ htext (by decide +kernel)]
    decide +kernel
  cases hrun : compile ⟨{}, .empty⟩ {} copiedText with
  | error failure =>
    rw [hrun] at hcode
    cases hcode
  | ok c =>
    rw [hrun] at hcode
    obtain ⟨r, -⟩ := exists_compilation hrun
    exact ⟨c, rfl, Option.some.inj hcode, r,
      hoisting_exact r.lower_eq r.type_eq r.expand_eq r.frame_eq r.arrange_eq⟩

end FlatScript
