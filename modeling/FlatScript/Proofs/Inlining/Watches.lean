import FlatScript.Proofs.Inlining.Parameters
import FlatScript.Proofs.Inlining.Tracks

/-!
# Where copies end up

A call is recorded when it is expanded, and the declarations of a function are taken out of the
table when they move. Both are seen in the program afterwards, and for both something has to be
seen in the statements that expansion leaves: a copy of the function, or its declarations. A
`FlatScript.Inlining.Watch` is such an event together with what it leaves behind, and the theorems
of this file follow all of expansion, once for all watches: when the event has happened, what it
leaves behind is there.

One thing has to be arranged for that. Inside an expression only the value of a copy stays, and the
rest of it is thrown away; `FlatScript.Inlining.Watch.inValue` is what is left then. Wherever a step
expands an expression the event leaves this much, and a copied body is thrown away only when it is a
single assignment.

* `FlatScript.Within` says that statements stand somewhere in others, one behind the other.
* `FlatScript.Inlining.script_run` is the statement for whole scripts.
-/

namespace FlatScript

/-! ### Statements in others -/

/-- The bodies that a statement is made of. -/
def Stmt.bodies : Stmt → List (List Stmt)
  | ⟨.property _ functions, _, _⟩ => functions.map FunctionDef.body
  | ⟨.whileLoop _ body, _, _⟩ | ⟨.forLoop _ _ _ _ _ body, _, _⟩ | ⟨.family _ body, _, _⟩ => [body]
  | ⟨.ifChain branches otherwise, _, _⟩ => branches.map Branch.body ++ [otherwise]
  | ⟨.select _ cases, _, _⟩ => cases.map Case.body
  | ⟨.synonym _ _ _, _, _⟩ | ⟨.declare _, _, _⟩ | ⟨.assign _ _, _, _⟩ | ⟨.call _, _, _⟩ => []

/-- **Statements stand somewhere in others**, one behind the other. -/
inductive Within (ys : List Stmt) : List Stmt → Prop
  /-- They are a piece of the list. -/
  | here (before after : List Stmt) : Within ys (before ++ ys ++ after)
  /-- They stand in the body of a statement. -/
  | inside {s : Stmt} {body ss : List Stmt} (hs : s ∈ ss) (hbody : body ∈ s.bodies)
    (h : Within ys body) : Within ys ss

namespace Within

variable {ys ss ss' : List Stmt}

theorem refl (ys : List Stmt) : Within ys ys := by
  have h : Within ys ([] ++ ys ++ []) := here [] []
  rwa [List.nil_append, List.append_nil] at h

/-- A statement stands in the list. -/
theorem of_mem {s : Stmt} (h : s ∈ ss) : Within [s] ss := by
  obtain ⟨before, after, rfl⟩ := List.append_of_mem h
  have h : Within [s] (before ++ [s] ++ after) := here before after
  rwa [List.append_assoc] at h

theorem around (h : Within ys ss) (before after : List Stmt) :
    Within ys (before ++ ss ++ after) := by
  cases h with
  | here before' after' =>
    have h : Within ys (before ++ before' ++ ys ++ (after' ++ after)) := here _ _
    simpa only [List.append_assoc] using h
  | inside hs hbody h => exact inside (by simp [hs]) hbody h

theorem left (h : Within ys ss) (after : List Stmt) : Within ys (ss ++ after) := h.around [] after

theorem right (h : Within ys ss) (before : List Stmt) : Within ys (before ++ ss) := by
  simpa only [List.append_nil] using h.around before []

theorem trans {zs : List Stmt} (h : Within zs ys) (h' : Within ys ss) : Within zs ss := by
  induction h' with
  | here before after => exact h.around before after
  | inside hs hbody _ ih => exact inside hs hbody ih

/-- A body of a statement stands in it. -/
theorem of_body {s : Stmt} (h : ys ∈ s.bodies) : Within ys [s] :=
  inside (List.mem_singleton.mpr rfl) h (refl ys)

/-- **In a single statement without bodies** stands nothing else. -/
theorem of_leaf {s : Stmt} (hs : s.bodies = []) (h : Within ys [s]) : ys = [] ∨ ys = [s] := by
  generalize hsingle : [s] = ss at h ⊢
  cases h with
  | here before after =>
    rcases before with _ | ⟨_, before⟩
    · rcases ys with _ | ⟨y, ys⟩
      · exact .inl rfl
      · have hnil := List.append_eq_nil_iff.mp (List.cons.inj hsingle).2.symm
        exact .inr (by rw [List.nil_append, hnil.2, List.append_nil])
    · have hnil := List.append_eq_nil_iff.mp (List.cons.inj hsingle).2.symm
      exact .inl (List.append_eq_nil_iff.mp hnil.1).2
  | inside hmem hbody _ =>
    rw [← hsingle, List.mem_singleton] at hmem
    rw [hmem, hs] at hbody
    cases hbody

end Within

/-- The declarations that a function has for the init callback. -/
def Program.decls? (p : Program) (name : String) : Option (List Stmt) :=
  (p.function? name).map fun e => e.globals ++ e.locals

/-- Functions that change and keep their names. -/
theorem Program.decls?_map {p : Program} {name : String} {f : FunctionEntry → FunctionEntry}
    (hname : ∀ e, (f e).name = e.name) :
    Program.decls? { p with functions := p.functions.map f } name =
      (p.function? name).map fun e => (f e).globals ++ (f e).locals := by
  simp only [Program.decls?, Program.function?, List.find?_map, Function.comp_def, hname,
    Option.map_map]

namespace Inlining

variable {env : Env} {p₀ p p' : Program} {at' : Place} {t : Top}

/-! ### Expanded statements and copies -/

/-- **Statements are expanded** in a block, while some functions are being copied, at some time after
the program was `p₀`. -/
def Expands (env : Env) (p₀ : Program) (t : Top) (stack : List String) (ss ys : List Stmt) : Prop :=
  ∃ n trace p p', p₀.Grows p ∧
    (stmts env (below env n) ⟨t, stack, trace⟩ ss).run p = .ok (ys, p')

theorem expands_of_expandAt {n : Nat} {ss ys : List Stmt} (hp : p₀.Grows p)
    (h : (expandAt env n at' ss).run p = .ok (ys, p')) :
    Expands env p₀ at'.top at'.stack ss ys := by
  rw [expandAt_eq] at h
  exact ⟨n, at'.trace, p, p', hp, h⟩

theorem expands_of_below {n : Nat} {ss ys : List Stmt} (hp : p₀.Grows p)
    (h : (below env n at' ss).run p = .ok (ys, p')) :
    Expands env p₀ at'.top at'.stack ss ys := by
  cases n with
  | zero => cases h
  | succ n => exact expands_of_expandAt hp h

theorem expands_of_expand {ss ys : List Stmt} (hp : p₀.Grows p)
    (h : (expand env at' ss).run p = .ok (ys, p')) : Expands env p₀ at'.top at'.stack ss ys := by
  obtain ⟨_, _, hget, h⟩ := StateT.bind_eq_ok.mp h
  cases hget
  exact expands_of_expandAt hp h

/-- **A copy of a function in a block**: its body, with something in the place of its parameters and
its result, expanded. -/
structure CopyIn (env : Env) (p₀ : Program) (t : Top) (e : FunctionEntry) (site : Span)
    (σ : Substitution) (stack : List String) (ys : List Stmt) : Prop where
  found : p₀.function? e.name = some e
  names : ∀ b ∈ σ, b.1 ∈ Taskfunc.slotNames e.fn
  expands : ∃ body, σ.stmts env (stmtsCopiedTo site e.fn.body) = .ok body ∧
    Expands env p₀ t stack body ys

/-- **A copy of the function of a name** in a block. -/
def IsCopy (env : Env) (p₀ : Program) (t : Top) (name : String) (ys : List Stmt) : Prop :=
  ∃ e site σ stack, e.name = name ∧ CopyIn env p₀ t e site σ stack ys

/-! ### Watches -/

/-- **An event during expansion, and what it leaves behind**, when expansion is started on `p₀`. -/
structure Watch (env : Env) (p₀ : Program) where
  /-- The event has happened. -/
  happened : Program → Prop
  /-- Nothing has to be left behind. -/
  excused : Program → Prop
  /-- What is left behind is in the statements of a block. -/
  shown : Top → List Stmt → Prop
  /-- What is left behind of a copy that only gives its value is in a block. -/
  inValue : Top → Prop
  -- What is left behind stays.
  later : ∀ {p p' : Program}, excused p → p.calls.explicit ⊆ p'.calls.explicit → excused p'
  within : ∀ {t ys ss}, shown t ys → Within ys ss → shown t ss
  anywhere : ∀ {t}, inValue t → ∀ ss, shown t ss
  valued : ∀ {t ys v} {e : FunctionEntry}, e ∈ p₀.functions → resultOf? e.fn ys = some v →
    shown t ys → inValue t
  -- How the event happens.
  unchanged : ∀ {p p'}, p'.calls.calls = p.calls.calls → (∀ name, p'.decls? name = p.decls? name) →
    happened p' → happened p
  entered : ∀ {p t name usingCall}, happened (entered p t name usingCall) → happened p ∨
    (∀ q, q.calls.isExplicit name = true → excused q) ∧ ∀ ys, IsCopy env p₀ t name ys → shown t ys
  drained : ∀ {p t stack ys} {e : FunctionEntry}, p₀.Grows p → t.isInit = true →
    p.decls? e.name = some (e.globals ++ e.locals) →
    Expands env p₀ t stack (e.globals ++ e.locals) ys →
    happened (p.drained e.name) → happened p ∨ shown t ys

namespace Watch

variable {W : Watch env p₀}

/-- **When the event happens in a step, its result has a property.** -/
def Sees (W : Watch env p₀) {α : Type} (x : Compile α) (Q : α → Prop) : Prop :=
  ∀ p, p₀.Grows p → ∀ a p', x.run p = .ok (a, p') →
    p.Grows p' ∧ (W.happened p' → W.happened p ∨ Q a ∨ W.excused p')

/-- When the event happens in a step, it is in a copy that only gives its value. -/
def Quiet (W : Watch env p₀) (t : Top) {α : Type} (x : Compile α) : Prop :=
  W.Sees x fun _ => W.inValue t

namespace Sees

variable {α β γ : Type} {x : Compile α} {f : α → Compile β} {P : α → Prop} {Q : β → Prop}

theorem ret {b : β} : W.Sees (pure b) Q := by
  intro p _ a p' h
  cases h
  exact ⟨.refl p, .inl⟩

theorem fail {e : CompileError} : W.Sees (throw e : Compile β) Q := by
  intro p _ a p' h
  cases h

theorem imp {P' : α → Prop} (hx : W.Sees x P) (h : ∀ a, P a → P' a) : W.Sees x P' := by
  intro p hp a p' hrun
  obtain ⟨hgrows, hseen⟩ := hx p hp a p' hrun
  exact ⟨hgrows, fun hnow => (hseen hnow).imp_right (Or.imp_left (h a))⟩

/-- Of two steps the event happens in the first one or in the second one. -/
theorem bind (hx : W.Sees x P) (hf : ∀ a, W.Sees (f a) Q) (h : ∀ a b, P a → Q b) :
    W.Sees (x >>= f) Q := by
  intro p hp b p'' hrun
  obtain ⟨a, p', hrunx, hrunf⟩ := StateT.bind_eq_ok.mp hrun
  obtain ⟨hgrows, hfirst⟩ := hx p hp a p' hrunx
  obtain ⟨hgrows', hsecond⟩ := hf a p' (hp.trans hgrows) b p'' hrunf
  refine ⟨hgrows.trans hgrows', fun hnow => ?_⟩
  rcases hsecond hnow with hbefore | hseen
  · rcases hfirst hbefore with hbefore | hP | hexcused
    · exact .inl hbefore
    · exact .inr (.inl (h a b hP))
    · exact .inr (.inr (W.later hexcused hgrows'.explicit))
  · exact .inr hseen

theorem map {g : α → β} (hx : W.Sees x P) (h : ∀ a, P a → Q (g a)) :
    W.Sees (do return g (← x)) Q := by
  intro p hp b p' hrun
  obtain ⟨a, p₁, hrunx, hrun⟩ := StateT.bind_eq_ok.mp hrun
  cases hrun
  obtain ⟨hgrows, hseen⟩ := hx p hp a p' hrunx
  exact ⟨hgrows, fun hnow => (hseen hnow).imp_right (Or.imp_left (h a))⟩

/-- Two steps whose results are put together. -/
theorem both {R : γ → Prop} {g : α → β → γ} (hx : W.Sees x P) (hf : ∀ a, W.Sees (f a) Q)
    (hleft : ∀ a b, P a → R (g a b)) (hright : ∀ a b, Q b → R (g a b)) :
    W.Sees (do
      let a ← x
      return g a (← f a)) R := by
  intro p hp c p'' hrun
  obtain ⟨a, p', hrunx, hrun⟩ := StateT.bind_eq_ok.mp hrun
  have hrest := (hf a).map (g := g a) (hright a)
  obtain ⟨hgrows, hfirst⟩ := hx p hp a p' hrunx
  obtain ⟨hgrows', hsecond⟩ := hrest p' (hp.trans hgrows) c p'' hrun
  obtain ⟨b, p₁, -, hrun⟩ := StateT.bind_eq_ok.mp hrun
  cases hrun
  refine ⟨hgrows.trans hgrows', fun hnow => ?_⟩
  rcases hsecond hnow with hbefore | hseen
  · rcases hfirst hbefore with hbefore | hP | hexcused
    · exact .inl hbefore
    · exact .inr (.inl (hleft a b hP))
    · exact .inr (.inr (W.later hexcused hgrows'.explicit))
  · exact .inr hseen

theorem read {f : Program → Compile β} (hf : ∀ p, W.Sees (f p) Q) : W.Sees (get >>= f) Q :=
  fun p hp b p' hrun => hf p p hp b p' (by simpa using hrun)

theorem lift_bind {z : Except CompileError α} (hf : ∀ a, z = .ok a → W.Sees (f a) Q) :
    W.Sees ((liftM z : Compile α) >>= f) Q := by
  intro p hp b p' hrun
  obtain ⟨a, p₁, hlift, hrun⟩ := StateT.bind_eq_ok.mp hrun
  obtain ⟨hz, rfl⟩ := StateT.lift_eq_ok.mp hlift
  exact hf a hz p hp b p' hrun

/-- A change of the program that is not the event. -/
theorem change {m : Program → Program} {Q : Unit → Prop} (hm : ∀ p : Program, p.Grows (m p))
    (h : ∀ p, W.happened (m p) → W.happened p) : W.Sees (modify m) Q := by
  intro p _ a p' hrun
  cases hrun
  exact ⟨hm p, fun hnow => .inl (h p hnow)⟩

end Sees

namespace Quiet

variable {α β : Type} {x : Compile α} {f : α → Compile β}

theorem bind (hx : W.Quiet t x) (hf : ∀ a, W.Quiet t (f a)) : W.Quiet t (x >>= f) :=
  Sees.bind hx hf fun _ _ h => h

/-- In front of a step that leaves statements. -/
theorem before {Q : β → Prop} (hx : W.Quiet t x) (hf : ∀ a, W.Sees (f a) Q)
    (h : W.inValue t → ∀ b, Q b) : W.Sees (x >>= f) Q :=
  Sees.bind hx hf fun _ b hvalue => h hvalue b

/-- A step on a value that may be missing. -/
theorem option {o : Option α} (h : ∀ a ∈ o, W.Quiet t (f a)) : W.Quiet t (o.mapM f) := by
  cases o with
  | none => exact Sees.ret
  | some a =>
    simp only [Option.mapM_some, map_eq_pure_bind]
    exact (h a rfl).bind fun _ => Sees.ret

theorem list {as : List α} (h : ∀ a ∈ as, W.Quiet t (f a)) : W.Quiet t (as.mapM f) := by
  induction as with
  | nil => exact Sees.ret
  | cons a as ih =>
    rw [List.mapM_cons]
    exact (h a (by simp)).bind fun _ => (ih fun b hb => h b (by simp [hb])).bind fun _ => Sees.ret

end Quiet

/-! ### Calls -/

/-- The event does not happen in the expansions of an argument, but for copies that only give their
value. -/
structure QuietArg (W : Watch env p₀) (t : Top) (a : Argument) : Prop where
  value : W.Quiet t a.value
  target : ∀ x ∈ a.target?, W.Quiet t x

/-- **What the event leaves behind is in copied bodies.** -/
def Follows (W : Watch env p₀) (inner : Expander) : Prop :=
  ∀ at' ss, W.Sees (inner at' ss) (W.shown at'.top)

theorem builtinArgs_quiet {name : String} {args : List Argument} (h : ∀ a ∈ args, W.QuietArg t a) :
    W.Quiet t (builtinArgs name args) := by
  cases args with
  | nil => exact Sees.ret
  | cons first rest =>
    simp only [builtinArgs]
    have hrest : ∀ e, W.Quiet t (rest.mapM (·.value) >>= fun es => (pure (e :: es) : Compile _)) :=
      fun e => (Quiet.list fun a ha => (h a (by simp [ha])).value).bind fun _ => Sees.ret
    split
    · rw [pure_bind]
      exact hrest _
    · exact (h first (by simp)).value.bind hrest

theorem builtinCall_quiet {c : CallSite} (h : ∀ a ∈ c.args, W.QuietArg t a) :
    W.Quiet t (builtinCall at' c) := by
  have hargs : W.Quiet t (builtinArgs c.name.name c.args >>= fun args =>
      (pure ⟨c.name, args, c.isProcedure, c.usingCall, c.span⟩ : Compile Call)) :=
    (builtinArgs_quiet h).bind fun _ => Sees.ret
  have hwaiting : ∀ name, W.Quiet t (modify fun p : Program =>
      { p with waiting := Name.insertNew p.waiting name } : Compile Unit) := fun name =>
    Sees.change (fun p : Program => p.grows_waiting _) fun _ => W.unchanged rfl fun _ => rfl
  unfold builtinCall
  split
  · split
    · exact (hwaiting _).bind fun _ => hargs
    · exact hargs
  · exact hargs

theorem storeArgs_quiet {count : Nat} {span : Span} :
    ∀ {i : Nat} {l : List (Argument × ParamKind)}, (∀ a ∈ l, W.QuietArg t a.1) →
      W.Quiet t (storeArgs at' count span i l)
  | _, [], _ => Sees.ret
  | i, (arg, kind) :: rest, h => by
    have hrest : ∀ first, W.Quiet t (storeArgs at' count span (i + 1) rest >>= fun ss =>
        (pure (first ++ ss) : Compile (List Stmt))) := fun first =>
      (storeArgs_quiet fun a ha => h a (by simp [ha])).bind fun _ => Sees.ret
    simp only [storeArgs]
    split
    · simp only [pure_bind]
      exact (h (arg, kind) (by simp)).value.bind fun _ => hrest _
    · rw [pure_bind]
      exact hrest _

theorem loadArgs_quiet {count : Nat} {span : Span} :
    ∀ {i : Nat} {l : List (Argument × ParamKind)}, (∀ a ∈ l, W.QuietArg t a.1) →
      W.Quiet t (loadArgs at' count span i l)
  | _, [], _ => Sees.ret
  | i, (arg, kind) :: rest, h => by
    have hrest : ∀ first, W.Quiet t (loadArgs at' count span (i + 1) rest >>= fun ss =>
        (pure (first ++ ss) : Compile (List Stmt))) := fun first =>
      (loadArgs_quiet fun a ha => h a (by simp [ha])).bind fun _ => Sees.ret
    simp only [loadArgs]
    split
    · next htarget =>
      simp only [pure_bind]
      exact ((h (arg, kind) (by simp)).target _ htarget).bind fun _ => hrest _
    · rw [pure_bind]
      exact hrest _

/-- **The call of a task function** marks the function. -/
theorem taskfuncCall_run {f : FunctionDef} {c : CallSite} {captured : Option VarRef}
    (hargs : ∀ a ∈ c.args, W.QuietArg t a) (hp : p₀.Grows p) (htarget : p.IsTarget c.name.name)
    {ss : List Stmt} (h : (taskfuncCall at' f c captured).run p = .ok (ss, p')) :
    p.Grows p' ∧ p'.calls.isExplicit c.name.name = true ∧
      (W.happened p' → W.happened p ∨ W.inValue t ∨ W.excused p') := by
  have hzipped : ∀ a ∈ c.args.zip (f.params.map (·.kind)) ++ (captured.map fun v =>
      ((⟨v.toExpr, pure v.toExpr, some (pure v)⟩ : Argument), ParamKind.out)).toList,
      W.QuietArg t a.1 := by
    intro a ha
    rcases List.mem_append.mp ha with ha | ha
    · exact hargs _ (List.of_mem_zip ha).1
    · cases captured with
      | none => cases ha
      | some v =>
        rw [List.mem_singleton.mp ha]
        refine ⟨Sees.ret, fun x hx => ?_⟩
        cases hx
        exact Sees.ret
  unfold taskfuncCall at h
  extract_lets args count at h
  split at h
  · cases h
  obtain ⟨_, q, hmark, h⟩ := StateT.bind_eq_ok.mp h
  cases hmark
  set q : Program := { p with calls := p.calls.markExplicit c.name.name }
  have hgrows : p.Grows q := Program.grows_markExplicit htarget
  have hrest := ((storeArgs_quiet hzipped).bind fun stores =>
    (loadArgs_quiet hzipped).bind fun loads => Sees.ret) q (hp.trans hgrows) ss p' h
  have hbefore : W.happened q → W.happened p := W.unchanged rfl fun _ => rfl
  exact ⟨hgrows.trans hrest.1, hrest.1.isExplicit (Program.isExplicit_markExplicit _ _),
    fun hnow => (hrest.2 hnow).imp_left hbefore⟩

theorem argumentSubstitution_quiet :
    ∀ {l : List (Param × Argument)}, (∀ a ∈ l, W.QuietArg t a.2) →
      W.Quiet t (argumentSubstitution l)
  | [], _ => Sees.ret
  | (param, arg) :: rest, h => by
    have hrest : ∀ value : Expr, W.Quiet t (argumentSubstitution rest >>= fun s =>
        (pure (s ++ [(Name.firstPart param.name.name, value)]) : Compile Substitution)) :=
      fun value => (argumentSubstitution_quiet fun a ha => h a (by simp [ha])).bind fun _ =>
        Sees.ret
    simp only [argumentSubstitution]
    split
    · rw [pure_bind]
      exact hrest _
    · exact (h (param, arg) (by simp)).value.bind hrest

/-! ### Copies -/

/-- The names that arguments are put in the place of are those of the parameters. -/
theorem argumentSubstitution_names : ∀ {l : List (Param × Argument)} {p p' : Program}
    {σ : Substitution}, (argumentSubstitution l).run p = .ok (σ, p') →
    ∀ b ∈ σ, ∃ a ∈ l, b.1 = Name.firstPart a.1.name.name
  | [], _, _, _, h, b, hb => by
    cases h
    cases hb
  | (param, arg) :: rest, _, _, _, h, b, hb => by
    rw [argumentSubstitution_cons] at h
    obtain ⟨value, p₁, -, h⟩ := StateT.bind_eq_ok.mp h
    obtain ⟨σ, p₂, hσ, h⟩ := StateT.bind_eq_ok.mp h
    cases h
    rcases List.mem_append.mp hb with hb | hb
    · obtain ⟨a, ha, hname⟩ := argumentSubstitution_names hσ b hb
      exact ⟨a, List.mem_cons_of_mem _ ha, hname⟩
    · rw [List.mem_singleton.mp hb]
      exact ⟨_, List.mem_cons_self, rfl⟩

/-- What a copy puts something in the place of are the parameters of the function and its result. -/
theorem names_of_copy {f : FunctionDef} {args : List Argument} {result : Option VarRef}
    {σ : Substitution} (h : (argumentSubstitution (f.params.zip args)).run p = .ok (σ, p')) :
    ∀ b ∈ resultsOf f result ++ σ, b.1 ∈ Taskfunc.slotNames f := by
  intro b hb
  rw [Taskfunc.slotNames, List.map_append]
  rcases List.mem_append.mp hb with hb | hb
  · refine List.mem_append_right _ ?_
    unfold resultsOf resultKey? at hb
    cases hresult : f.result with
    | none => simp [hresult] at hb
    | some r =>
      cases result with
      | none => simp [hresult] at hb
      | some target =>
        have hbound : b ∈ [(Name.firstPart r.name, target.toExpr)] := by simpa [hresult] using hb
        simpa [hresult] using congrArg Prod.fst (List.mem_singleton.mp hbound)
  · refine List.mem_append_left _ ?_
    obtain ⟨a, ha, hname⟩ := argumentSubstitution_names h b hb
    rw [hname, List.map_map]
    exact List.mem_map_of_mem (List.of_mem_zip ha).1

/-- The declarations that a copy takes along are expanded in front of it. -/
theorem takeDeclarations_run {e : FunctionEntry} {stack : List String} {taken decls : List Stmt}
    (hp : p₀.Grows p) (hdecls : p.decls? e.name = some (e.globals ++ e.locals))
    (h : (takeDeclarations at' e).run p = .ok (taken, p'))
    (hexpands : Expands env p₀ at'.top stack taken decls) (hnow : W.happened p') :
    W.happened p ∨ W.shown at'.top decls := by
  unfold takeDeclarations at h
  split at h
  · next hinit =>
    cases h
    exact W.drained hp hinit hdecls hexpands hnow
  · cases h
    exact .inl hnow

/-- **A copy of a body**, with what the function had for the init callback in front. -/
theorem inlineBody_run {n : Nat} (hinner : W.Follows (below env n)) {e : FunctionEntry} {u : Bool}
    {c : CallSite} (hargs : ∀ a ∈ c.args, W.QuietArg at'.top a) {result : Option VarRef}
    (hp : p₀.Grows p) (hfound : p.function? e.name = some { e with used := u }) {ss : List Stmt}
    (h : (inlineBody env (below env n) at' e c result).run p = .ok (ss, p')) :
    p.Grows p' ∧ (W.happened p' → W.happened p ∨ W.shown at'.top ss ∨ W.excused p') ∧
      ∃ decls ys, ss = decls ++ ys ∧ IsCopy env p₀ at'.top e.name ys := by
  rw [inlineBody_eq] at h
  obtain ⟨taken, p₁, htake, h⟩ := StateT.bind_eq_ok.mp h
  obtain ⟨decls, p₂, hdecls, h⟩ := StateT.bind_eq_ok.mp h
  obtain ⟨σ, p₃, hσ, h⟩ := StateT.bind_eq_ok.mp h
  obtain ⟨copy, p₄, hcopy, h⟩ := StateT.bind_eq_ok.mp h
  cases h
  have hp₁ : p.Grows p₁ := takeDeclarations_grows htake
  obtain ⟨hp₂, hseen₂⟩ := hinner at' taken p₁ (hp.trans hp₁) decls p₂ hdecls
  have hquiet := argumentSubstitution_quiet (l := e.fn.params.zip c.args) (W := W) (t := at'.top)
    fun a ha => hargs _ (List.of_mem_zip ha).2
  obtain ⟨hp₃, hseen₃⟩ := hquiet p₂ (hp.trans (hp₁.trans hp₂)) σ p₃ hσ
  obtain ⟨body, q, hlift, hcopy⟩ := StateT.bind_eq_ok.mp hcopy
  obtain ⟨hbody, rfl⟩ := StateT.lift_eq_ok.mp hlift
  have hp₀₃ := hp.trans (hp₁.trans (hp₂.trans hp₃))
  obtain ⟨hp₄, hseen₄⟩ := hinner _ body p₃ hp₀₃ copy p' hcopy
  refine ⟨hp₁.trans (hp₂.trans (hp₃.trans hp₄)), fun hnow => ?_, decls, copy, rfl, ?_⟩
  · have hcopied : W.shown at'.top copy → W.shown at'.top (decls ++ copy) :=
      fun hshown => W.within hshown (.right (.refl _) decls)
    have hdeclared : W.shown at'.top decls → W.shown at'.top (decls ++ copy) :=
      fun hshown => W.within hshown (.left (.refl _) copy)
    -- The event has happened in one of the four steps.
    rcases hseen₄ hnow with hnow | hshown | hexcused
    · rcases hseen₃ hnow with hnow | hvalue | hexcused
      · rcases hseen₂ hnow with hnow | hshown | hexcused
        · have hdecls? : p.decls? e.name = some (e.globals ++ e.locals) := by
            rw [Program.decls?, hfound]
            rfl
          have hexpands := expands_of_below (hp.trans hp₁) hdecls
          rcases takeDeclarations_run hp hdecls? htake hexpands hnow with hbefore | hshown
          · exact .inl hbefore
          · exact .inr (.inl (hdeclared hshown))
        · exact .inr (.inl (hdeclared hshown))
        · exact .inr (.inr (W.later hexcused (hp₃.trans hp₄).explicit))
      · exact .inr (.inl (W.anywhere hvalue _))
      · exact .inr (.inr (W.later hexcused hp₄.explicit))
    · exact .inr (.inl (hcopied hshown))
    · exact .inr (.inr hexcused)
  · obtain ⟨e₀, hfound₀, hgrows⟩ := hp.exists_before hfound
    have hname : e₀.name = e.name := hgrows.name.symm
    have hfn : e₀.fn = e.fn := hgrows.fn.symm
    have hexpands : Expands env p₀ _ _ body copy := expands_of_below hp₀₃ hcopy
    refine ⟨e₀, c.span, _, _, hname, hname ▸ hfound₀, ?_, body, hfn ▸ hbody, hexpands⟩
    rw [hfn]
    exact names_of_copy hσ

/-- **A call that is entered.** The event may have happened by it, and then the call has to leave
something behind. -/
structure EntersAs (W : Watch env p₀) (at' : Place) (c : CallSite) (use : Use) (e : FunctionEntry)
    (p p' : Program) : Prop where
  grows : p.Grows p'
  faultless : Faultless at' e.fn c use
  name : e.name = c.name.name
  found : ∃ u, p'.function? e.name = some { e with used := u }
  explicit : c.usingCall = true → p'.calls.isExplicit e.name = true
  seen : W.happened p' → W.happened p ∨ (∀ q, q.calls.isExplicit e.name = true → W.excused q) ∧
    ∀ ys, IsCopy env p₀ at'.top e.name ys → W.shown at'.top ys

theorem enterCall_sees {c : CallSite} {use : Use} {e : FunctionEntry}
    (h : (enterCall env at' c use).run p = .ok (e, p')) : W.EntersAs at' c use e p p' := by
  rw [enterCall_run] at h
  split at h
  · cases h
  next hfound =>
  split at h
  · cases h
  next hfault =>
  cases h
  have hfaultless := faultless_of_callFault? hfault
  have hname : e.name = c.name.name := (Program.mem_functions_of_function? hfound).2
  refine ⟨grows_entered _ fun hcall => ⟨e, hfound, hfaultless.isTarget hcall⟩, hfaultless, hname,
    ?_, fun hcall => ?_, ?_⟩
  · rw [hname]
    exact function?_entered hfound
  · rw [hname, hcall]
    exact isExplicit_entered ..
  · rw [hname]
    exact W.entered

variable {n : Nat}

/-- **A call that is entered and copied** leaves its copy behind. -/
theorem EntersAs.inlined (hinner : W.Follows (below env n)) {c : CallSite}
    (hargs : ∀ a ∈ c.args, W.QuietArg at'.top a) {use : Use} {e : FunctionEntry}
    (h : W.EntersAs at' c use e p p') (hp : p₀.Grows p) {result : Option VarRef} {ss : List Stmt}
    {p'' : Program} (hrun : (inlineBody env (below env n) at' e c result).run p' = .ok (ss, p'')) :
    p.Grows p'' ∧ (W.happened p'' → W.happened p ∨ W.shown at'.top ss ∨ W.excused p'') := by
  obtain ⟨u, hfound⟩ := h.found
  obtain ⟨hgrows, hseen, decls, ys, rfl, hcopy⟩ :=
    inlineBody_run hinner hargs (hp.trans h.grows) hfound hrun
  refine ⟨h.grows.trans hgrows, fun hnow => ?_⟩
  rcases hseen hnow with hnow | hseen
  · refine (h.seen hnow).imp_right fun hentered => .inl ?_
    exact W.within (hentered.2 ys hcopy) (.right (.refl ys) decls)
  · exact .inr hseen

/-- **A call that is a statement.** -/
theorem callStmts_sees (hinner : W.Follows (below env n)) {c : CallSite}
    (hargs : ∀ a ∈ c.args, W.QuietArg at'.top a) {target : Option VarRef} :
    W.Sees (callStmts env (below env n) at' c target) (W.shown at'.top) := by
  rw [callStmts_eq]
  refine .read fun q => ?_
  split
  · exact (builtinCall_quiet hargs).map fun call h => W.anywhere h _
  · intro p hp ss p' h
    obtain ⟨e, p₁, hrun, h⟩ := StateT.bind_eq_ok.mp h
    have henters := enterCall_sees (W := W) hrun
    split at h
    · next htask =>
      obtain ⟨u, hfound⟩ := henters.found
      have htarget : p₁.IsTarget c.name.name := by
        rw [← henters.name]
        exact ⟨_, hfound, .inl htask⟩
      obtain ⟨hgrows, hmarked, hseen⟩ :=
        taskfuncCall_run hargs (hp.trans henters.grows) htarget h
      refine ⟨henters.grows.trans hgrows, fun hnow => ?_⟩
      rcases hseen hnow with hnow | hvalue | hexcused
      · exact (henters.seen hnow).imp_right fun hentered =>
          .inr (hentered.1 p' (henters.name ▸ hmarked))
      · exact .inr (.inl (W.anywhere hvalue _))
      · exact .inr (.inr hexcused)
    · split at h
      · next hcall =>
        cases h
        exact ⟨henters.grows, fun hnow => (henters.seen hnow).imp_right fun hentered =>
          .inr (hentered.1 _ (henters.explicit hcall))⟩
      · exact henters.inlined hinner hargs hp h

/-- **A call inside an expression.** -/
theorem callExpr_quiet (hinner : W.Follows (below env n)) {c : CallSite}
    (hargs : ∀ a ∈ c.args, W.QuietArg at'.top a) :
    W.Quiet at'.top (callExpr env (below env n) at' c) := by
  rw [callExpr_eq]
  refine Sees.read fun q => ?_
  split
  · exact (builtinCall_quiet hargs).bind fun _ => Sees.ret
  · intro p hp v p' h
    obtain ⟨e, p₁, hrun, h⟩ := StateT.bind_eq_ok.mp h
    obtain ⟨body, p₂, hbody, h⟩ := StateT.bind_eq_ok.mp h
    have henters := enterCall_sees (W := W) hrun
    obtain ⟨hgrows, hseen⟩ := henters.inlined hinner hargs hp hbody
    split at h
    · next hvalue =>
      cases h
      -- The copy is thrown away, apart from its value.
      obtain ⟨u, hfound⟩ := henters.found
      obtain ⟨e₀, he₀, hentry⟩ :=
        (hp.trans henters.grows).mem_before (Program.mem_functions_of_function? hfound).1
      have hfn : e₀.fn = e.fn := hentry.fn.symm
      exact ⟨hgrows, fun hnow => (hseen hnow).imp_right (Or.imp_left
        (W.valued he₀ (hfn ▸ hvalue)))⟩
    · cases h

/-! ### Expressions -/

mutual

theorem expr_quiet (hinner : W.Follows (below env n)) :
    ∀ e : Expr, W.Quiet at'.top (expr env (below env n) at' e)
  | .binary _ left right _ => by
    simp only [expr]
    exact (expr_quiet hinner left).bind fun _ => (expr_quiet hinner right).bind fun _ => Sees.ret
  | .unary _ operand _ => by
    simp only [expr]
    exact (expr_quiet hinner operand).bind fun _ => Sees.ret
  | .var i subscripts _ => by
    simp only [expr]
    refine Sees.read fun p => ?_
    split
    · refine Sees.lift_bind fun site hsite => callExpr_quiet hinner ?_
      rw [getterSite_args hsite]
      exact arguments_quiet hinner subscripts
    · split
      · exact callExpr_quiet hinner fun a ha => absurd ha List.not_mem_nil
      · exact (exprs_quiet hinner subscripts).bind fun _ => Sees.ret
  | .call _ args _ _ _ => by
    simp only [expr]
    exact callExpr_quiet hinner (arguments_quiet hinner args)
  | .int _ _ | .real _ _ | .str _ _ | .bool _ _ | .raw _ _ => by
    simp only [expr]
    exact Sees.ret

/-- **Expressions**: the event happens in copies that only give their values. -/
theorem exprs_quiet (hinner : W.Follows (below env n)) :
    ∀ es : List Expr, W.Quiet at'.top (exprs env (below env n) at' es)
  | [] => by
    simp only [exprs]
    exact Sees.ret
  | e :: es => by
    simp only [exprs]
    exact (expr_quiet hinner e).bind fun _ => (exprs_quiet hinner es).bind fun _ => Sees.ret

theorem targetOf?_quiet (hinner : W.Follows (below env n)) :
    ∀ e : Expr, ∀ x ∈ targetOf? env (below env n) at' e, W.Quiet at'.top x
  | .var i subscripts span, x, hx => by
    simp only [targetOf?, Option.mem_some_iff] at hx
    subst hx
    exact (exprs_quiet hinner subscripts).bind fun _ => Sees.ret
  | .binary _ _ _ _, _, hx | .unary _ _ _, _, hx | .call _ _ _ _ _, _, hx | .int _ _, _, hx
  | .real _ _, _, hx | .str _ _, _, hx | .bool _ _, _, hx | .raw _ _, _, hx => by
    simp [targetOf?] at hx

theorem arguments_quiet (hinner : W.Follows (below env n)) :
    ∀ es : List Expr, ∀ a ∈ arguments env (below env n) at' es, W.QuietArg at'.top a
  | [], a, ha => by simp [arguments] at ha
  | e :: es, a, ha => by
    simp only [arguments] at ha
    rcases List.mem_cons.mp ha with rfl | ha
    · exact ⟨expr_quiet hinner e, targetOf?_quiet hinner e⟩
    · exact arguments_quiet hinner es a ha

end

theorem varRef_quiet (hinner : W.Follows (below env n)) (v : VarRef) :
    W.Quiet at'.top (varRef env (below env n) at' v) :=
  (exprs_quiet hinner v.subscripts).bind fun _ => Sees.ret

theorem siteOfValue?_args (hinner : W.Follows (below env n)) {e : Expr} {c : CallSite}
    (h : siteOfValue? env (below env n) at' p e = .ok (some c)) :
    ∀ a ∈ c.args, W.QuietArg at'.top a := by
  unfold siteOfValue? at h
  split at h
  · cases h
    exact arguments_quiet hinner _
  · split at h
    · obtain ⟨site, hsite, h⟩ := Except.bind_eq_ok.mp h
      cases h
      rw [getterSite_args hsite]
      exact arguments_quiet hinner _
    · split at h <;> cases h
      exact fun a ha => absurd ha List.not_mem_nil
  · cases h

/-- **An assignment.** -/
theorem assignment_sees (hinner : W.Follows (below env n)) (target : VarRef) (value : Expr)
    (span : Span) :
    W.Sees (assignment env (below env n) at' target value span) (W.shown at'.top) := by
  have hplain {α : Type} {x : Compile α} {g : α → List Stmt} (hx : W.Quiet at'.top x) :
      W.Sees (do return g (← x)) (W.shown at'.top) := hx.map fun _ h => W.anywhere h _
  unfold assignment
  refine .read fun p => ?_
  split
  · refine .lift_bind fun site hsite => callStmts_sees hinner ?_
    rw [setterSite_args hsite]
    exact arguments_quiet hinner _
  · refine .lift_bind fun site hsite => ?_
    split
    · have hargs := siteOfValue?_args hinner hsite
      split
      · exact (varRef_quiet hinner target).before (fun _ => hplain (callExpr_quiet hinner hargs))
          W.anywhere
      · exact (varRef_quiet hinner target).before (fun _ => callStmts_sees hinner hargs) W.anywhere
    · exact (varRef_quiet hinner target).before (fun _ => hplain (expr_quiet hinner value))
        W.anywhere

theorem initializer_quiet (hinner : W.Follows (below env n)) (x : Initializer) :
    W.Quiet at'.top (initializer env (below env n) at' x) := by
  cases x with
  | single e => exact (expr_quiet hinner e).bind fun _ => Sees.ret
  | list es => exact (exprs_quiet hinner es).bind fun _ => Sees.ret

theorem declaration_quiet (hinner : W.Follows (below env n)) (d : Declaration) :
    W.Quiet at'.top (declaration env (below env n) at' d) := by
  unfold declaration
  refine (Quiet.option fun e _ => expr_quiet hinner e).bind fun size => ?_
  refine (exprs_quiet hinner d.params).bind fun params => ?_
  exact (Quiet.option fun x _ => initializer_quiet hinner x).bind fun init => Sees.ret

/-! ### Statements -/

mutual

theorem stmt_sees (hinner : W.Follows (below env n)) {outer : Place} :
    ∀ s : Stmt, W.Sees (stmt env (below env n) outer s) (W.shown outer.top)
  | ⟨.call c, _, trace⟩ => by
    simp only [stmt]
    exact callStmts_sees hinner (arguments_quiet hinner c.args)
  | ⟨.assign target value, span, trace⟩ => by
    simp only [stmt]
    exact assignment_sees hinner target value span
  | ⟨.declare d, span, trace⟩ => by
    simp only [stmt]
    exact Sees.map (declaration_quiet hinner d) fun _ h => W.anywhere h _
  | ⟨.whileLoop cond body, span, trace⟩ => by
    simp only [stmt]
    refine (expr_quiet hinner cond).before (fun _ => ?_) W.anywhere
    refine .map (stmts_sees hinner body) fun body' h => ?_
    exact W.within h (.of_body (List.mem_singleton_self _))
  | ⟨.forLoop var start stop step _ body, span, trace⟩ => by
    simp only [stmt]
    refine (varRef_quiet hinner var).before (fun _ => ?_) W.anywhere
    refine (expr_quiet hinner start).before (fun _ => ?_) W.anywhere
    refine (expr_quiet hinner stop).before (fun _ => ?_) W.anywhere
    refine (Quiet.option fun e _ => expr_quiet hinner e).before (fun _ => ?_) W.anywhere
    refine .map (stmts_sees hinner body) fun body' h => ?_
    exact W.within h (.of_body (List.mem_singleton_self _))
  | ⟨.family _ body, span, trace⟩ => by
    simp only [stmt]
    refine .map (stmts_sees hinner body) fun body' h => ?_
    exact W.within h (.of_body (List.mem_singleton_self _))
  | ⟨.ifChain bs otherwise, span, trace⟩ => by
    simp only [stmt]
    refine .both (branches_see hinner bs) (fun _ => stmts_sees hinner otherwise) ?_ ?_
    · rintro bs' otherwise' (hvalue | ⟨b, hb, hshown⟩)
      · exact W.anywhere hvalue _
      · exact W.within hshown (.of_body (List.mem_append_left _ (List.mem_map_of_mem hb)))
    · intro bs' otherwise' hshown
      exact W.within hshown (.of_body (List.mem_append_right _ (List.mem_singleton_self _)))
  | ⟨.select subject cs, span, trace⟩ => by
    simp only [stmt]
    refine (expr_quiet hinner subject).before (fun _ => .map (cases_see hinner cs) ?_) W.anywhere
    rintro cs' (hvalue | ⟨c, hc, hshown⟩)
    · exact W.anywhere hvalue _
    · exact W.within hshown (.of_body (List.mem_map_of_mem hc))
  | ⟨.property _ fs, span, trace⟩ => by
    simp only [stmt]
    refine .map (functions_see hinner fs) ?_
    rintro fs' ⟨f, hf, hshown⟩
    exact W.within hshown (.of_body (List.mem_map_of_mem hf))
  | ⟨.synonym _ _ target, span, trace⟩ => by
    simp only [stmt]
    exact Sees.map (varRef_quiet hinner target) fun _ h => W.anywhere h _

/-- **Statements**: what the event leaves behind is in them. -/
theorem stmts_sees (hinner : W.Follows (below env n)) {outer : Place} :
    ∀ ss : List Stmt, W.Sees (stmts env (below env n) outer ss) (W.shown outer.top)
  | [] => by
    simp only [stmts]
    exact .ret
  | s :: ss => by
    simp only [stmts]
    exact .both (stmt_sees hinner s) (fun _ => stmts_sees hinner ss)
      (fun first rest h => W.within h (.left (.refl first) rest))
      (fun first rest h => W.within h (.right (.refl rest) first))

theorem branches_see (hinner : W.Follows (below env n)) {outer : Place} :
    ∀ bs : List Branch, W.Sees (branches env (below env n) outer bs)
      fun bs' => W.inValue outer.top ∨ ∃ b ∈ bs', W.shown outer.top b.body
  | [] => by
    simp only [branches]
    exact .ret
  | ⟨cond, body⟩ :: rest => by
    simp only [branches]
    refine (expr_quiet hinner cond).before (fun _ => ?_) fun h _ => .inl h
    exact .both (stmts_sees hinner body) (fun _ => branches_see hinner rest)
      (fun body' rest' h => .inr ⟨_, List.mem_cons_self, h⟩)
      (fun body' rest' h => h.imp_right (Exists.imp fun _ =>
        And.imp_left (List.mem_cons_of_mem _)))

theorem cases_see (hinner : W.Follows (below env n)) {outer : Place} :
    ∀ cs : List Case, W.Sees (cases env (below env n) outer cs)
      fun cs' => W.inValue outer.top ∨ ∃ c ∈ cs', W.shown outer.top c.body
  | [] => by
    simp only [cases]
    exact .ret
  | ⟨start, stop, body⟩ :: rest => by
    simp only [cases]
    refine (expr_quiet hinner start).before (fun _ => ?_) fun h _ => .inl h
    refine (Quiet.option fun e _ => expr_quiet hinner e).before (fun _ => ?_) fun h _ => .inl h
    exact .both (stmts_sees hinner body) (fun _ => cases_see hinner rest)
      (fun body' rest' h => .inr ⟨_, List.mem_cons_self, h⟩)
      (fun body' rest' h => h.imp_right (Exists.imp fun _ =>
        And.imp_left (List.mem_cons_of_mem _)))

theorem functions_see (hinner : W.Follows (below env n)) {outer : Place} :
    ∀ fs : List FunctionDef, W.Sees (functions env (below env n) outer fs)
      fun fs' => ∃ f ∈ fs', W.shown outer.top f.body
  | [] => by
    simp only [functions]
    exact .ret
  | ⟨_, _, _, body, _, _, _⟩ :: rest => by
    simp only [functions]
    exact .both (stmts_sees hinner body) (fun _ => functions_see hinner rest)
      (fun body' rest' h => ⟨_, List.mem_cons_self, h⟩)
      (fun body' rest' => Exists.imp fun _ => And.imp_left (List.mem_cons_of_mem _))

end

/-! ### Scripts -/

theorem below_sees (W : Watch env p₀) : ∀ n : Nat, W.Follows (below env n)
  | 0 => fun _ _ => Sees.fail
  | n + 1 => fun _ ss => by
    rw [below, expandAt_eq]
    exact stmts_sees (below_sees W n) ss

/-- **Expansion leaves behind what it has to**, to whatever depth. -/
theorem expand_sees (W : Watch env p₀) : W.Follows (expand env) := fun _ ss =>
  .read fun p => by
    rw [expandAt_eq]
    exact stmts_sees (below_sees W _) ss

/-- What the event leaves behind is in a callback. -/
def InCallback (W : Watch env p₀) (bs : List Block) : Prop :=
  ∃ c, .callback c ∈ bs ∧ W.shown (.callback c.isInit) c.body

theorem blocks_see (W : Watch env p₀) :
    ∀ bs : List Block, W.Sees (bs.mapM (block (expand env))) W.InCallback
  | [] => .ret
  | .function f :: bs => by
    rw [List.mapM_cons]
    exact .bind (P := fun _ => False) .fail (fun _ => .map (blocks_see W bs) fun _ h =>
      h.imp fun _ hc => hc.imp_left (List.mem_cons_of_mem _)) fun _ _ h => h.elim
  | .callback c :: bs => by
    rw [List.mapM_cons]
    simp only [block, bind_assoc, pure_bind]
    exact .both (expand_sees W ⟨.callback c.isInit, [], []⟩ c.body) (fun _ => blocks_see W bs)
      (fun body rest h => ⟨{ c with body }, List.mem_cons_self, h⟩)
      (fun body rest => Exists.imp fun _ => And.imp_left (List.mem_cons_of_mem _))

theorem standaloneBodies_see (W : Watch env p₀) : ∀ n i : Nat,
    W.Sees (standaloneBodies (expand env) i n) fun bodies =>
      ∃ b ∈ bodies, W.shown (.function b.1) b.2
  | 0, _ => .ret
  | n + 1, i => by
    simp only [standaloneBodies]
    refine .read fun p => ?_
    split
    · exact .fail
    · next e _ =>
      split
      · exact .both (expand_sees W ⟨.function e.name, [e.name], []⟩ e.fn.body)
          (fun _ => standaloneBodies_see W n (i + 1))
          (fun body rest h => ⟨_, List.mem_cons_self, h⟩)
          (fun body rest => Exists.imp fun _ => And.imp_left (List.mem_cons_of_mem _))
      · exact standaloneBodies_see W n (i + 1)

end Watch

/-- The expanded body of a function that can be called with `call`. -/
def BodyOf (env : Env) (p₀ : Program) (e : FunctionEntry) (b : String × List Stmt) : Prop :=
  b.1 = e.name ∧ Expands env p₀ (.function e.name) [e.name] e.fn.body b.2

theorem expand_grows {body ss : List Stmt} (h : (expand env at' body).run p = .ok (ss, p')) :
    p.Grows p' := by
  obtain ⟨q, _, hget, h⟩ := StateT.bind_eq_ok.mp h
  cases hget
  exact below_grows (n := depthBound p + 1) h

theorem blocks_grow : ∀ (bs : List Block) {p p' : Program} {bs' : List Block},
    (bs.mapM (block (expand env))).run p = .ok (bs', p') → p.Grows p'
  | [], p, _, _, h => by
    cases h
    exact .refl p
  | .function f :: bs, _, _, _, h => by
    rw [List.mapM_cons] at h
    cases h
  | .callback c :: bs, p, p', bs', h => by
    rw [List.mapM_cons] at h
    simp only [block, bind_assoc, pure_bind] at h
    obtain ⟨body, p₁, hbody, h⟩ := StateT.bind_eq_ok.mp h
    obtain ⟨rest, p₂, hrest, h⟩ := StateT.bind_eq_ok.mp h
    cases h
    exact (expand_grows hbody).trans (blocks_grow bs hrest)

/-- **The functions that can be called are expanded one after the other.** -/
theorem standaloneBodies_run : ∀ (n i : Nat) {p p' : Program} {bodies : List (String × List Stmt)},
    i + n = p₀.functions.length → p₀.Grows p →
    (standaloneBodies (expand env) i n).run p = .ok (bodies, p') →
    p₀.Grows p' ∧
      List.Forall₂ (BodyOf env p₀) ((p₀.functions.drop i).filter (isStandalone ·.fn)) bodies
  | 0, i, _, _, _, hi, hp, h => by
    cases h
    rw [List.drop_eq_nil_of_le (by omega)]
    exact ⟨hp, .nil⟩
  | n + 1, i, p, p', bodies, hi, hp, h => by
    have hlt : i < p₀.functions.length := by omega
    obtain ⟨e, he, hgrows⟩ := hp.getElem?_after (List.getElem?_eq_getElem hlt)
    simp only [standaloneBodies, StateT.run_bind, StateT.run_get, pure_bind, he] at h
    rw [List.drop_eq_getElem_cons hlt, List.filter_cons]
    set e₀ := p₀.functions[i]
    rw [hgrows.fn, hgrows.name] at h
    split at h
    · next hstand =>
      rw [if_pos hstand]
      obtain ⟨⟨body, p₁⟩, hbody, h⟩ := Except.bind_eq_ok.mp h
      obtain ⟨⟨rest, p₂⟩, hrest, h⟩ := Except.bind_eq_ok.mp h
      cases h
      obtain ⟨hgrows, hbodies⟩ :=
        standaloneBodies_run n (i + 1) (by omega) (hp.trans (expand_grows hbody)) hrest
      exact ⟨hgrows, .cons ⟨rfl, expands_of_expand hp hbody⟩ hbodies⟩
    · next hstand =>
      rw [if_neg hstand]
      exact standaloneBodies_run n (i + 1) (by omega) hp h

section Bodies

variable {bodies : List (String × List Stmt)}
  (hbodies : List.Forall₂ (BodyOf env p₀) (p₀.functions.filter (isStandalone ·.fn)) bodies)

include hbodies

/-- A function that can be called with `call` has an expanded body. -/
theorem exists_body {e : FunctionEntry} (he : e ∈ p₀.functions) (hstand : isStandalone e.fn = true) :
    ∃ body, (e.name, body) ∈ bodies ∧
      Expands env p₀ (.function e.name) [e.name] e.fn.body body := by
  obtain ⟨⟨name, body⟩, hb, hname, hexpands⟩ :=
    exists_mem_of_forall₂ hbodies.flip (List.mem_filter.mpr ⟨he, hstand⟩)
  exact ⟨body, hname ▸ hb, hexpands⟩

/-- The functions have different names, so the body of a function is found under its name. -/
theorem withBody_body (hnodup : (p₀.functions.map FunctionEntry.name).Nodup) {e : FunctionEntry}
    {body : List Stmt} (hb : (e.name, body) ∈ bodies) : (withBody bodies e).fn.body = body := by
  have hnames : (bodies.map Prod.fst).Nodup := by
    rw [map_eq_of_forall₂ hbodies fun _ _ hbody => hbody.1]
    exact hnodup.sublist (List.filter_sublist.map _)
  exact congrArg Prod.snd (List.inj_on_of_nodup_map hnames (mem_of_withBody ⟨body, hb⟩) hb rfl)

/-- A function that cannot be called with `call` keeps its body. -/
theorem withBody_eq_self (hnodup : (p₀.functions.map FunctionEntry.name).Nodup)
    {e e₀ : FunctionEntry} (he₀ : e₀ ∈ p₀.functions) (hname : e.name = e₀.name)
    (hstand : isStandalone e₀.fn = false) : withBody bodies e = e := by
  rcases withBody_cases bodies e with heq | ⟨body, hb, -⟩
  · exact heq
  · obtain ⟨e', he', hname', -⟩ := exists_mem_of_forall₂ hbodies hb
    obtain ⟨hmem, hstand'⟩ := List.mem_filter.mp he'
    have hsame : e' = e₀ := List.inj_on_of_nodup_map hnodup hmem he₀ (hname'.symm.trans hname)
    rw [hsame, hstand] at hstand'
    cases hstand'

end Bodies

/-- **A function, when expansion is over.** -/
structure ExpandedTo (env : Env) (p₀ : Program) (e e' : FunctionEntry) : Prop where
  name : e'.name = e.name
  /-- If it can be called with `call`, its body is expanded. -/
  body : isStandalone e.fn = true → Expands env p₀ (.function e.name) [e.name] e.fn.body e'.fn.body
  /-- Otherwise it stays. -/
  kept : isStandalone e.fn = false → e'.fn.body = e.fn.body
  /-- It keeps its declarations or gives them up. -/
  decls : (e'.globals = e.globals ∧ e'.locals = e.locals) ∨ (e'.globals = [] ∧ e'.locals = [])

theorem expandedTo_withBody {bodies : List (String × List Stmt)}
    (hbodies : List.Forall₂ (BodyOf env p₀) (p₀.functions.filter (isStandalone ·.fn)) bodies)
    (hnodup : (p₀.functions.map FunctionEntry.name).Nodup) {e e' : FunctionEntry}
    (he : e ∈ p₀.functions) (hgrows : e.Grows e') : ExpandedTo env p₀ e (withBody bodies e') where
  name := (withBody_name ..).trans hgrows.name
  body hstand := by
    obtain ⟨body, hb, hexpands⟩ := exists_body hbodies he hstand
    rw [← hgrows.name] at hb
    rwa [withBody_body hbodies hnodup hb]
  kept hstand := by rw [withBody_eq_self hbodies hnodup he hgrows.name hstand, hgrows.fn]
  decls := by
    have hdecls := hgrows.decls
    rcases withBody_cases bodies e' with heq | ⟨body, -, heq⟩ <;> rwa [heq]

/-- **A script is expanded**: its callbacks and the functions that can be called with `call`. When an
event has happened on the way, what it leaves behind is in one of them. -/
theorem script_run {s s' : Script} (hnodup : (p₀.functions.map FunctionEntry.name).Nodup)
    (h : (script env s).run p₀ = .ok (s', p')) :
    List.Forall₂ (ExpandedTo env p₀) p₀.functions p'.functions ∧
      ∀ W : Watch env p₀, W.happened p' → W.happened p₀ ∨ W.InCallback s'.blocks ∨
        (∃ e ∈ p'.functions, W.shown (.function e.name) e.fn.body) ∨ W.excused p' := by
  unfold script scriptBy at h
  obtain ⟨first, p₁, hfirst, h⟩ := StateT.bind_eq_ok.mp h
  obtain ⟨q, _, hget, h⟩ := StateT.bind_eq_ok.mp h
  cases hget
  obtain ⟨bodies, p₂, hrun, h⟩ := StateT.bind_eq_ok.mp h
  obtain ⟨rest, p₃, hrest, h⟩ := StateT.bind_eq_ok.mp h
  cases h
  have hp₁ := blocks_grow _ hfirst
  rw [← hp₁.functions.length_eq] at hrun
  obtain ⟨hp₂, hbodies⟩ := standaloneBodies_run _ 0 (Nat.zero_add _) hp₁ hrun
  have hp₃ := blocks_grow _ hrest
  have hgrows := hp₂.trans hp₃
  constructor
  · rw [List.forall₂_map_right_iff]
    refine ((List.forall₂_and_left _ _).mpr ⟨fun e he => he, hgrows.functions⟩).imp fun e e' he => ?_
    exact expandedTo_withBody hbodies hnodup he.1 he.2
  dsimp only
  intro W hnow
  have hcallback : ∀ bs, (∀ b ∈ bs, b ∈ first ++ rest) → W.InCallback bs →
      W.InCallback (first ++ rest) := fun bs hbs => Exists.imp fun _ => And.imp_left (hbs _)
  have hdecls : ∀ name, Program.decls? { p₃ with functions := p₃.functions.map (withBody bodies) }
      name = p₃.decls? name := by
    intro name
    refine (Program.decls?_map fun e => withBody_name bodies e).trans ?_
    unfold Program.decls?
    congr 1
    funext e
    rcases withBody_cases bodies e with heq | ⟨body, -, heq⟩ <;> rw [heq]
  have hnow := W.unchanged (p := p₃) (by rfl) hdecls hnow
  -- The event has happened in the first block, in a function, or in one of the other blocks.
  rcases (Watch.blocks_see W _ p₂ hp₂ rest p₃ hrest).2 hnow with hnow | hseen | hexcused
  · obtain ⟨hlater, hseen⟩ := Watch.standaloneBodies_see W _ 0 p₁ hp₁ bodies p₂ hrun
    rcases hseen hnow with hnow | ⟨b, hb, hseen⟩ | hexcused
    · rcases (Watch.blocks_see W _ p₀ (.refl p₀) first p₁ hfirst).2 hnow with
        hnow | hseen | hexcused
      · exact .inl hnow
      · exact .inr (.inl (hcallback first (fun b hb => List.mem_append_left _ hb) hseen))
      · exact .inr (.inr (.inr (W.later hexcused (hlater.trans hp₃).explicit)))
    · -- The body is that of a function of the table.
      obtain ⟨e, he, hname, -⟩ := exists_mem_of_forall₂ hbodies hb
      obtain ⟨e', he', hentry⟩ :=
        exists_mem_of_forall₂ hgrows.functions.flip (List.mem_filter.mp he).1
      have hname' : e'.name = b.1 := hentry.name.trans hname.symm
      have hbody : (withBody bodies e').fn.body = b.2 :=
        withBody_body hbodies hnodup (by rw [hname']; exact hb)
      refine .inr (.inr (.inl ⟨withBody bodies e', List.mem_map_of_mem he', ?_⟩))
      rw [withBody_name, hname', hbody]
      exact hseen
    · exact .inr (.inr (.inr (W.later hexcused hp₃.explicit)))
  · exact .inr (.inl (hcallback rest (fun b hb => List.mem_append_right _ hb) hseen))
  · exact .inr (.inr (.inr (W.later hexcused fun _ hmark => hmark)))

end Inlining

end FlatScript
