import FlatScript.Proofs.Declared
import FlatScript.Proofs.Inlining.Whole
import FlatScript.Proofs.Lowering.Declared
import Mathlib.Data.List.Nodup

/-!
# Where expansion leaves declarations

Expansion moves declarations, and neither loses nor doubles one of them. What a statement
declares is declared by the statements that it becomes, and what a function of the table has for
the init callback stays with the function, until the first call in an init callback takes it
there. The bodies that are copied declare nothing themselves.

A call inside an expression has no place for the declarations that it would take along; but
then what is copied is no single assignment, so expansion fails.

* `FlatScript.Inlining.Keeps` holds of a step that leaves the declarations of functions alone.
* `FlatScript.Inlining.Accounts` holds of a step that leaves statements.
* `FlatScript.Inlining.script_moves` is the statement for whole scripts.
-/

namespace FlatScript.Inlining

variable {α β : Type} {env : Env} {p p' : Program}

/-- **What is asked of the table**: the names in it are different, and the bodies declare
nothing. -/
structure Ready (p : Program) : Prop where
  nodup : (p.functions.map FunctionEntry.name).Nodup
  bodies : ∀ e ∈ p.functions, stmtsDeclared e.fn.body = []

/-! ### The table, later on -/

/-- **A function of the table, later on.** It is as it was, unless a callback calls it. -/
def Kept (calls : List (Caller × String)) (e e' : FunctionEntry) : Prop :=
  e'.fn = e.fn ∧ ((e'.declared = e.declared ∧ e'.used = e.used) ∨ (none, e.name) ∈ calls)

theorem Kept.refl (calls : List (Caller × String)) (e : FunctionEntry) : Kept calls e e :=
  ⟨rfl, .inl ⟨rfl, rfl⟩⟩

theorem Kept.name {calls : List (Caller × String)} {e e' : FunctionEntry} (h : Kept calls e e') :
    e'.name = e.name := congrArg (·.name.name) h.1

theorem Kept.trans {calls calls' : List (Caller × String)} {e e' e'' : FunctionEntry}
    (h : Kept calls e e') (hsub : calls ⊆ calls') (h' : Kept calls' e' e'') :
    Kept calls' e e'' := by
  refine ⟨h'.1.trans h.1, ?_⟩
  rcases h.2 with ⟨hd, hu⟩ | hcall
  · rcases h'.2 with ⟨hd', hu'⟩ | hcall'
    · exact .inl ⟨hd'.trans hd, hu'.trans hu⟩
    · exact .inr (h.name ▸ hcall')
  · exact .inr (hsub hcall)

/-- **The program, later on**, as far as declarations go. -/
structure Later (p p' : Program) : Prop where
  calls : p.calls.calls ⊆ p'.calls.calls
  functions : List.Forall₂ (Kept p'.calls.calls) p.functions p'.functions

theorem Later.refl (p : Program) : Later p p :=
  ⟨fun _ h => h, List.forall₂_same.mpr fun e _ => .refl _ e⟩

theorem Later.trans {p'' : Program} (h : Later p p') (h' : Later p' p'') : Later p p'' := by
  refine ⟨fun _ hx => h'.calls (h.calls hx), ?_⟩
  have hfirst := h.functions
  have hsecond := h'.functions
  have hsub := h'.calls
  generalize p''.functions = es'' at hsecond ⊢
  generalize p'.functions = es' at hfirst hsecond
  generalize p.functions = es at hfirst ⊢
  induction hfirst generalizing es'' with
  | nil => exact hsecond
  | cons he _ ih =>
    cases hsecond with
    | cons he' hs' => exact .cons (he.trans hsub he') (ih _ hs')

theorem Later.names (h : Later p p') :
    p'.functions.map FunctionEntry.name = p.functions.map FunctionEntry.name :=
  map_eq_of_forall₂ h.functions fun _ _ => Kept.name

theorem Later.ready (h : Later p p') (hp : Ready p) : Ready p' := by
  refine ⟨h.names ▸ hp.nodup, fun e' he' => ?_⟩
  obtain ⟨e, he, hkept⟩ := exists_mem_of_forall₂ h.functions he'
  rw [hkept.1]
  exact hp.bodies e he

/-! ### Steps that leave declarations alone -/

/-- A program with the same functions, which declare the same. -/
structure Holds (p p' : Program) : Prop extends Later p p' where
  declared : ∀ i, p'.declared.count i = p.declared.count i

theorem Holds.refl (p : Program) : Holds p p := ⟨.refl p, fun _ => rfl⟩

theorem Holds.trans {p'' : Program} (h : Holds p p') (h' : Holds p' p'') : Holds p p'' :=
  ⟨h.toLater.trans h'.toLater, fun i => (h'.declared i).trans (h.declared i)⟩

/-- **A step that leaves the declarations of functions alone.** -/
def Keeps (x : Compile α) : Prop :=
  ∀ p a p', Ready p → x.run p = .ok (a, p') → Holds p p'

namespace Keeps

theorem ret (a : α) : Keeps (pure a : Compile α) := by
  intro p b p' _ h
  cases h
  exact .refl p

theorem fail (e : CompileError) : Keeps (throw e : Compile α) := by
  intro p b p' _ h
  cases h

theorem bind {x : Compile α} {f : α → Compile β} (hx : Keeps x) (hf : ∀ a, Keeps (f a)) :
    Keeps (x >>= f) := by
  intro p b p' hp h
  obtain ⟨a, p₁, hx', h⟩ := StateT.bind_eq_ok.mp h
  have h₁ := hx p a p₁ hp hx'
  exact h₁.trans (hf a p₁ b p' (h₁.ready hp) h)

theorem read : Keeps (get : Compile Program) := by
  intro p a p' _ h
  cases h
  exact .refl p

theorem lift_bind {z : Except CompileError α} {f : α → Compile β}
    (h : ∀ a, z = .ok a → Keeps (f a)) : Keeps ((liftM z : Compile α) >>= f) := by
  intro p b p' hp hrun
  obtain ⟨a, p₁, hz, hrun⟩ := StateT.bind_eq_ok.mp hrun
  obtain ⟨hok, rfl⟩ := StateT.lift_eq_ok.mp hz
  exact h a hok p b p' hp hrun

theorem change {m : Program → Program} (hm : ∀ p, Holds p (m p)) :
    Keeps (modify m : Compile Unit) := by
  intro p a p' _ h
  cases h
  exact hm p

theorem choice {c : Prop} [Decidable c] {x y : Compile α} (hx : Keeps x) (hy : Keeps y) :
    Keeps (if c then x else y) := by
  split
  · exact hx
  · exact hy

theorem list {f : α → Compile β} : ∀ {l : List α}, (∀ a ∈ l, Keeps (f a)) → Keeps (l.mapM f)
  | [], _ => by
    simp only [List.mapM_nil]
    exact .ret _
  | a :: l, h => by
    simp only [List.mapM_cons]
    exact (h a (by simp)).bind fun _ => (list fun b hb => h b (by simp [hb])).bind fun _ => .ret _

theorem option {f : α → Compile β} {o : Option α} (h : ∀ a, Keeps (f a)) : Keeps (o.mapM f) := by
  cases o with
  | none => exact .ret _
  | some a =>
    simp only [Option.mapM_some, map_eq_pure_bind]
    exact (h a).bind fun _ => .ret _

end Keeps

/-! ### Steps that leave statements -/

/-- **What becomes of the declarations** of functions and of `before`, when a step leaves
something that declares `out`. Only in an init callback may functions give theirs up. -/
structure Moves (init : Bool) (p p' : Program) (before out : List Ident) : Prop
    extends Later p p' where
  balance : ∀ i, before.count i + p.declared.count i = out.count i + p'.declared.count i
  outside : init = false → ∀ i, p'.declared.count i = p.declared.count i

/-- **A step accounts for its declarations.** -/
def Accounts (init : Bool) (x : Compile α) (before : List Ident) (out : α → List Ident) : Prop :=
  ∀ p a p', Ready p → x.run p = .ok (a, p') → Moves init p p' before (out a)

variable {init : Bool} {before before' out out' : List Ident}

theorem Holds.moves (h : Holds p p') (hout : before.Perm out) : Moves init p p' before out :=
  ⟨h.toLater, fun i => by rw [hout.count_eq, h.declared], fun _ => h.declared⟩

/-- A step behind one that leaves declarations alone. -/
theorem Moves.after {p₁ : Program} (h₁ : Holds p p₁) (h : Moves init p₁ p' before out) :
    Moves init p p' before out where
  toLater := h₁.toLater.trans h.toLater
  balance i := by rw [← h₁.declared i, h.balance i]
  outside hinit i := (h.outside hinit i).trans (h₁.declared i)

/-- A step that goes on with what another one has left. -/
theorem Moves.trans {p₁ : Program} (h₁ : Moves init p p₁ before out)
    (h₂ : Moves init p₁ p' (out ++ before') out') :
    Moves init p p' (before ++ before') out' where
  toLater := h₁.toLater.trans h₂.toLater
  balance i := by
    have hb₁ := h₁.balance i
    have hb₂ := h₂.balance i
    simp only [List.count_append] at hb₂ ⊢
    omega
  outside hinit i := (h₂.outside hinit i).trans (h₁.outside hinit i)

namespace Accounts

theorem ret {a : α} {out : α → List Ident} (h : before.Perm (out a)) :
    Accounts init (pure a : Compile α) before out := by
  intro p b p' _ hrun
  cases hrun
  exact (Holds.refl p).moves h

/-- A step that leaves declarations alone may come first. -/
theorem after {x : Compile α} {f : α → Compile β} {out : β → List Ident} (hx : Keeps x)
    (hf : ∀ a, Accounts init (f a) before out) : Accounts init (x >>= f) before out := by
  intro p b p' hp h
  obtain ⟨a, p₁, hx', h⟩ := StateT.bind_eq_ok.mp h
  have h₁ := hx p a p₁ hp hx'
  exact (hf a p₁ b p' (h₁.ready hp) h).after h₁

theorem lift_bind {z : Except CompileError α} {f : α → Compile β} {out : β → List Ident}
    (h : ∀ a, z = .ok a → Accounts init (f a) before out) :
    Accounts init ((liftM z : Compile α) >>= f) before out := by
  intro p b p' hp hrun
  obtain ⟨a, p₁, hz, hrun⟩ := StateT.bind_eq_ok.mp hrun
  obtain ⟨hok, rfl⟩ := StateT.lift_eq_ok.mp hz
  exact h a hok p b p' hp hrun

theorem choice {c : Prop} [Decidable c] {x y : Compile α} {out : α → List Ident}
    (hx : Accounts init x before out) (hy : Accounts init y before out) :
    Accounts init (if c then x else y) before out := by
  split
  · exact hx
  · exact hy

/-- What has been left behind is put together. -/
theorem bind {x : Compile α} {f : α → Compile β} {out : α → List Ident} {out' : β → List Ident}
    (hx : Accounts init x before out)
    (hf : ∀ a, Accounts init (f a) (out a ++ before') out') :
    Accounts init (x >>= f) (before ++ before') out' := by
  intro p b p' hp h
  obtain ⟨a, p₁, hx', h⟩ := StateT.bind_eq_ok.mp h
  have h₁ := hx p a p₁ hp hx'
  exact h₁.trans (hf a p₁ b p' (h₁.ready hp) h)

theorem congr {x : Compile α} {out : α → List Ident} (before : List Ident)
    (hx : Accounts init x before out) (hperm : before'.Perm before) :
    Accounts init x before' out := by
  intro p a p' hp h
  have hmoves := hx p a p' hp h
  exact ⟨hmoves.toLater, fun i => by rw [hperm.count_eq, hmoves.balance], hmoves.outside⟩

theorem map {x : Compile α} {g : α → β} {out : α → List Ident} {out' : β → List Ident}
    (hx : Accounts init x before out) (hout : ∀ a, (out a).Perm (out' (g a))) :
    Accounts init (x >>= fun a => pure (g a)) before out' := by
  have hbind : Accounts init (x >>= fun a => pure (g a)) (before ++ []) out' :=
    hx.bind fun a => .ret (by rw [List.append_nil]; exact hout a)
  rwa [List.append_nil] at hbind

/-- Nothing is taken where nothing is left behind. -/
theorem keeps (init : Bool) {x : Compile α} (hx : Accounts init x [] fun _ => []) : Keeps x := by
  intro p a p' hp h
  have hmoves := hx p a p' hp h
  exact ⟨hmoves.toLater, fun i => by simpa using (hmoves.balance i).symm⟩

end Accounts

/-! ### Programs -/

/-- A change to functions that are called by callbacks, or to nothing that matters here. -/
theorem holds_of_forall₂ {es : List FunctionEntry}
    (h : List.Forall₂ (fun e e' : FunctionEntry => e'.fn = e.fn ∧ e'.declared = e.declared ∧
      (e'.used = e.used ∨ (none, e.name) ∈ p.calls.calls)) p.functions es) :
    Holds p { p with functions := es } where
  calls _ hc := hc
  functions := h.imp fun e e' ⟨hfn, hd, hu⟩ => ⟨hfn, hu.imp_left fun hu => ⟨hd, hu⟩⟩
  declared i := by
    have hmap : es.map FunctionEntry.declared = p.functions.map FunctionEntry.declared :=
      map_eq_of_forall₂ h fun _ _ he => he.2.1
    rw [Program.declared, Program.declared, List.flatMap_def, List.flatMap_def, hmap]

/-- Recording a call changes no declarations. -/
theorem holds_calls {g : CallGraph} (h : p.calls.calls ⊆ g.calls) :
    Holds p { p with calls := g } :=
  ⟨⟨h, List.forall₂_same.mpr fun e _ => .refl _ e⟩, fun _ => rfl⟩

theorem holds_used {name : String} (h : (none, name) ∈ p.calls.calls) :
    Holds p (p.updateFunction name ({ · with used := true })) := by
  refine holds_of_forall₂ ?_
  simp only [List.forall₂_map_right_iff, List.forall₂_same]
  intro e _
  split
  · next hname => exact ⟨rfl, rfl, .inr (beq_iff_eq.mp hname ▸ h)⟩
  · exact ⟨rfl, rfl, .inl rfl⟩

theorem holds_entered (t : Top) (name : String) (usingCall : Bool) :
    Holds p (entered p t name usingCall) := by
  have hcalls : p.calls.calls ⊆ (p.calls.addCall t.caller name).calls :=
    (p.grows_addCall t.caller name).calls
  have hmem := Program.mem_addCall p.calls t.caller name
  unfold entered
  dsimp only
  split_ifs with hcaller husing husing
  · rw [Option.isNone_iff_eq_none] at hcaller
    rw [hcaller] at hmem hcalls ⊢
    have hmarked : Holds p
        { p with calls := (p.calls.addCall none name).markExplicit name } := holds_calls hcalls
    exact hmarked.trans (holds_used hmem)
  · rw [Option.isNone_iff_eq_none] at hcaller
    rw [hcaller] at hmem hcalls ⊢
    exact (holds_calls hcalls).trans (holds_used hmem)
  · exact holds_calls hcalls
  · exact holds_calls hcalls

/-- A function that gives its declarations up is the only one to do so. -/
theorem moves_drained {entry : FunctionEntry} {u : Bool} (hp : Ready p)
    (hfound : p.function? entry.name = some { entry with used := u })
    (hcall : (none, entry.name) ∈ p.calls.calls) :
    Moves true p (p.drained entry.name) [] (stmtsDeclared (entry.globals ++ entry.locals)) where
  calls _ hc := hc
  functions := by
    simp only [Program.drained, Program.updateFunction, List.forall₂_map_right_iff,
      List.forall₂_same]
    intro e _
    split
    · next hname => exact ⟨rfl, .inr (beq_iff_eq.mp hname ▸ hcall)⟩
    · exact .refl _ e
  balance i := by
    have hmem := (Program.mem_functions_of_function? hfound).1
    have hcount := p.count_updateFunction ({ · with globals := [], locals := [] })
      FunctionEntry.declared hp.nodup hmem i
    have hnone : FunctionEntry.declared { entry with globals := [], locals := [], used := u } = [] :=
      rfl
    rw [hnone, List.count_nil, Nat.add_zero] at hcount
    rw [List.count_nil, Nat.zero_add, Nat.add_comm]
    exact hcount.symm
  outside h := absurd h (by decide)

/-! ### Calls -/

/-- The expansions of an argument leave the declarations of functions alone. -/
structure KeepsArg (a : Argument) : Prop where
  value : Keeps a.value
  target : ∀ x ∈ a.target?, Keeps x

/-- **Copied bodies account for their declarations.** -/
def AccountsInner (inner : Expander) : Prop :=
  ∀ at' ss, Accounts at'.top.isInit (inner at' ss) (stmtsDeclared ss) stmtsDeclared

theorem builtinArgs_keeps {name : String} {args : List Argument} (h : ∀ a ∈ args, KeepsArg a) :
    Keeps (builtinArgs name args) := by
  cases args with
  | nil => exact .ret _
  | cons first rest =>
    simp only [builtinArgs]
    have hrest : ∀ e, Keeps (rest.mapM (·.value) >>= fun es => (pure (e :: es) : Compile _)) :=
      fun e => (Keeps.list fun a ha => (h a (by simp [ha])).value).bind fun _ => .ret _
    split
    · rw [pure_bind]
      exact hrest _
    · exact (h first (by simp)).value.bind hrest

theorem builtinCall_keeps {at' : Place} {c : CallSite} (h : ∀ a ∈ c.args, KeepsArg a) :
    Keeps (builtinCall at' c) := by
  have hargs := (builtinArgs_keeps h : Keeps (builtinArgs c.name.name c.args)).bind fun args =>
    Keeps.ret (⟨c.name, args, c.isProcedure, c.usingCall, c.span⟩ : Call)
  have hwaiting : ∀ name, Keeps (modify fun p : Program =>
      { p with waiting := Name.insertNew p.waiting name } : Compile Unit) :=
    fun name => .change fun p =>
      ⟨⟨fun _ h => h, List.forall₂_same.mpr fun e _ => .refl _ e⟩, fun _ => rfl⟩
  unfold builtinCall
  split
  · split
    · exact (hwaiting _).bind fun _ => hargs
    · exact hargs
  · exact hargs

theorem enterCall_keeps {at' : Place} {c : CallSite} {use : Use} :
    Keeps (enterCall env at' c use) := by
  intro p e p' _ h
  rw [enterCall_run] at h
  split at h
  · cases h
  · split at h
    · cases h
    · cases h
      exact holds_entered ..

theorem storeArgs_accounts {at' : Place} {count : Nat} {span : Span} :
    ∀ {i : Nat} {l : List (Argument × ParamKind)}, (∀ a ∈ l, KeepsArg a.1) →
      Accounts init (storeArgs at' count span i l) [] stmtsDeclared
  | _, [], _ => .ret .nil
  | i, (arg, kind) :: rest, h => by
    have hrest : Accounts init (storeArgs at' count span (i + 1) rest) [] stmtsDeclared :=
      storeArgs_accounts fun a ha => h a (by simp [ha])
    simp only [storeArgs]
    split
    · simp only [pure_bind]
      exact .after (h (arg, kind) (by simp)).value fun _ => hrest.map fun _ => .refl _
    · rw [pure_bind]
      exact hrest.map fun _ => .refl _

theorem loadArgs_accounts {at' : Place} {count : Nat} {span : Span} :
    ∀ {i : Nat} {l : List (Argument × ParamKind)}, (∀ a ∈ l, KeepsArg a.1) →
      Accounts init (loadArgs at' count span i l) [] stmtsDeclared
  | _, [], _ => .ret .nil
  | i, (arg, kind) :: rest, h => by
    have hrest : Accounts init (loadArgs at' count span (i + 1) rest) [] stmtsDeclared :=
      loadArgs_accounts fun a ha => h a (by simp [ha])
    simp only [loadArgs]
    split
    · next htarget =>
      simp only [pure_bind]
      exact .after ((h (arg, kind) (by simp)).target _ htarget) fun _ => hrest.map fun _ => .refl _
    · rw [pure_bind]
      exact hrest.map fun _ => .refl _

/-- **The call of a task function** leaves assignments and a call. -/
theorem taskfuncCall_accounts {at' : Place} {f : FunctionDef} {c : CallSite}
    {captured : Option VarRef} (h : ∀ a ∈ c.args, KeepsArg a) :
    Accounts init (taskfuncCall at' f c captured) [] stmtsDeclared := by
  have hargs : ∀ a ∈ c.args.zip (f.params.map (·.kind)) ++ (captured.map fun v =>
      ((⟨v.toExpr, pure v.toExpr, some (pure v)⟩ : Argument), ParamKind.out)).toList,
      KeepsArg a.1 := by
    intro a ha
    rcases List.mem_append.mp ha with ha | ha
    · exact h _ (List.of_mem_zip ha).1
    · cases captured with
      | none => cases ha
      | some v =>
        rw [List.mem_singleton.mp ha]
        refine ⟨.ret _, fun x hx => ?_⟩
        cases hx
        exact .ret _
  have hmark : Keeps (modify fun p : Program =>
      { p with calls := p.calls.markExplicit c.name.name } : Compile Unit) :=
    .change fun _ => holds_calls fun _ hc => hc
  unfold taskfuncCall
  refine .choice (.after (.fail _) fun _ => ?_) ?_
  all_goals
    refine .after hmark fun _ => .congr ([] ++ []) ?_ (by simp)
    refine (storeArgs_accounts hargs).bind fun stores => ?_
    refine .congr ([] ++ stmtsDeclared stores) ?_ (by simp)
    refine (loadArgs_accounts hargs).bind fun loads => .ret ?_
    simpa [stmtsDeclared, Stmt.declared, Place.stmt] using List.perm_append_comm

theorem argumentSubstitution_keeps :
    ∀ {l : List (Param × Argument)}, (∀ a ∈ l, KeepsArg a.2) → Keeps (argumentSubstitution l)
  | [], _ => .ret _
  | (param, arg) :: rest, h => by
    have hrest : ∀ value : Expr, Keeps (argumentSubstitution rest >>= fun s =>
        (pure (s ++ [(Name.firstPart param.name.name, value)]) : Compile Substitution)) :=
      fun value => (argumentSubstitution_keeps fun a ha => h a (by simp [ha])).bind fun _ => .ret _
    simp only [argumentSubstitution]
    split
    · rw [pure_bind]
      exact hrest _
    · exact (h (param, arg) (by simp)).value.bind hrest

/-- What a copy takes along stands in front of it. -/
theorem copy_accounts {inner : Expander} (hinner : AccountsInner inner) {at' : Place}
    {entry : FunctionEntry} {c : CallSite} (hargs : ∀ a ∈ c.args, KeepsArg a)
    (hbody : stmtsDeclared entry.fn.body = []) {results : Substitution} {decls : List Stmt} :
    Accounts at'.top.isInit (do
      let decls ← inner at' decls
      let params ← argumentSubstitution (entry.fn.params.zip c.args)
      let body ← Substitution.stmts env (results ++ params) (stmtsCopiedTo c.span entry.fn.body)
      return decls ++ (← inner { at' with stack := at'.stack ++ [entry.name] } body))
      (stmtsDeclared decls) stmtsDeclared := by
  refine .congr (stmtsDeclared decls ++ []) ?_ (by simp)
  refine (hinner at' decls).bind fun decls' => ?_
  refine .after (argumentSubstitution_keeps fun a ha => hargs _ (List.of_mem_zip ha).2)
    fun params => ?_
  refine .lift_bind fun body hsubst => ?_
  have hnil : stmtsDeclared body = [] := by
    rw [stmtsDeclared_mapLeaves _ hsubst, stmtsDeclared_copiedTo, hbody]
  refine .congr ([] ++ stmtsDeclared decls') ?_ (by simp)
  refine Accounts.bind (hnil ▸ hinner _ body) fun copy => .ret ?_
  rw [stmtsDeclared_append]
  exact List.perm_append_comm

/-- The declarations that are taken along with a copy stand in front of it. -/
theorem inlineBody_moves {inner : Expander} (hinner : AccountsInner inner) {at' : Place}
    {entry : FunctionEntry} {c : CallSite} (hargs : ∀ a ∈ c.args, KeepsArg a)
    {result : Option VarRef} {u : Bool} (hp : Ready p)
    (hfound : p.function? entry.name = some { entry with used := u })
    (hcall : (at'.top.caller, entry.name) ∈ p.calls.calls) {ss : List Stmt}
    (h : (inlineBody env inner at' entry c result).run p = .ok (ss, p')) :
    Moves at'.top.isInit p p' [] (stmtsDeclared ss) := by
  unfold inlineBody at h
  obtain ⟨decls, p₁, htake, h⟩ := StateT.bind_eq_ok.mp h
  have h₁ : Moves at'.top.isInit p p₁ [] (stmtsDeclared decls) := by
    unfold takeDeclarations at htake
    split at htake
    · next hinit =>
      cases htake
      have htop : at'.top = .callback true := beq_iff_eq.mp hinit
      rw [hinit]
      rw [htop] at hcall
      exact moves_drained hp hfound hcall
    · cases htake
      exact (Holds.refl p).moves .nil
  have hbody : stmtsDeclared entry.fn.body = [] :=
    hp.bodies { entry with used := u } (Program.mem_functions_of_function? hfound).1
  have h₂ : Moves at'.top.isInit p₁ p' (stmtsDeclared decls ++ []) (stmtsDeclared ss) := by
    rw [List.append_nil]
    exact copy_accounts hinner hargs hbody p₁ ss p' (h₁.ready hp) h
  exact h₁.trans h₂

/-- A call that is entered, and then copied. -/
theorem enterCall_inlineBody {inner : Expander} (hinner : AccountsInner inner) {at' : Place}
    {c : CallSite} (hargs : ∀ a ∈ c.args, KeepsArg a) {use : Use} {result : Option VarRef}
    {entry : FunctionEntry} {p₁ : Program} (hp : Ready p)
    (henter : (enterCall env at' c use).run p = .ok (entry, p₁)) {ss : List Stmt}
    (h : (inlineBody env inner at' entry c result).run p₁ = .ok (ss, p')) :
    Moves at'.top.isInit p p' [] (stmtsDeclared ss) := by
  have hholds := enterCall_keeps p entry p₁ hp henter
  rw [enterCall_run] at henter
  split at henter
  · cases henter
  next e hfind =>
  split at henter
  · cases henter
  cases henter
  obtain ⟨u, hu⟩ : ∃ u, (entered p at'.top c.name.name c.usingCall).function?
      c.name.name = some { entry with used := u } := function?_entered hfind
  have hname : entry.name = c.name.name := (Program.mem_functions_of_function? hfind).2
  have hcall := mem_calls_entered p at'.top c.name.name c.usingCall
  have hmoves := inlineBody_moves hinner hargs (hholds.ready hp) (by rw [hname]; exact hu)
    (by rw [hname]; exact hcall) h
  exact hmoves.after hholds

/-- **A call that is a statement** leaves what the function had for the init callback. -/
theorem callStmts_accounts {inner : Expander} (hinner : AccountsInner inner) {at' : Place}
    {c : CallSite} (hargs : ∀ a ∈ c.args, KeepsArg a) {target : Option VarRef} :
    Accounts at'.top.isInit (callStmts env inner at' c target) [] stmtsDeclared := by
  rw [callStmts_eq]
  refine .after .read fun q => ?_
  split
  · refine .after (builtinCall_keeps hargs) fun call => .ret ?_
    cases target <;> exact .refl _
  · intro p ss p' hp h
    obtain ⟨entry, p₁, henter, h⟩ := StateT.bind_eq_ok.mp h
    have hholds := enterCall_keeps p entry p₁ hp henter
    split at h
    · exact (taskfuncCall_accounts hargs _ _ _ (hholds.ready hp) h).after hholds
    · split at h
      · cases h
        exact hholds.moves (.refl _)
      · exact enterCall_inlineBody hinner hargs hp henter h

theorem stmtsDeclared_of_resultOf? {f : FunctionDef} {ss : List Stmt} {e : Expr}
    (h : resultOf? f ss = some e) : stmtsDeclared ss = [] := by
  unfold resultOf? at h
  split at h
  · rfl
  · cases h

/-- **A call inside an expression** takes no declarations along. -/
theorem callExpr_keeps {inner : Expander} (hinner : AccountsInner inner) {at' : Place}
    {c : CallSite} (hargs : ∀ a ∈ c.args, KeepsArg a) : Keeps (callExpr env inner at' c) := by
  rw [callExpr_eq]
  refine Keeps.read.bind fun q => ?_
  split
  · exact (builtinCall_keeps hargs).bind fun _ => .ret _
  · refine Accounts.keeps at'.top.isInit fun p e p' hp h => ?_
    obtain ⟨entry, p₁, henter, h⟩ := StateT.bind_eq_ok.mp h
    obtain ⟨body, p₂, hbody, h⟩ := StateT.bind_eq_ok.mp h
    have hmoves := enterCall_inlineBody hinner hargs hp henter hbody
    split at h
    · next value hvalue =>
      rw [stmtsDeclared_of_resultOf? hvalue] at hmoves
      cases h
      exact hmoves
    · cases h

/-! ### Expressions -/

theorem getterSite_args {at' : Place} {i : Ident} {args : List Argument} {span : Span}
    {c : CallSite} (h : getterSite env at' p i args span = .ok c) : c.args = args := by
  unfold getterSite at h
  dsimp only at h
  split at h <;> cases h
  rfl

theorem setterSite_args {at' : Place} {target : VarRef} {args : List Argument} {span : Span}
    {c : CallSite} (h : setterSite env at' p target args span = .ok c) : c.args = args := by
  unfold setterSite at h
  dsimp only at h
  split at h <;> cases h
  rfl

variable {inner : Expander}

mutual

theorem expr_keeps (hinner : AccountsInner inner) {at' : Place} :
    ∀ e : Expr, Keeps (expr env inner at' e)
  | .binary _ left right _ => by
    simp only [expr]
    exact (expr_keeps hinner left).bind fun _ => (expr_keeps hinner right).bind fun _ => .ret _
  | .unary _ operand _ => by
    simp only [expr]
    exact (expr_keeps hinner operand).bind fun _ => .ret _
  | .var i subscripts _ => by
    simp only [expr]
    refine Keeps.read.bind fun p => .choice ?_ (.choice ?_ ?_)
    · refine .lift_bind fun site hsite => callExpr_keeps hinner ?_
      rw [getterSite_args hsite]
      exact arguments_keep hinner subscripts
    · exact callExpr_keeps hinner (by simp)
    · exact (exprs_keeps hinner subscripts).bind fun _ => .ret _
  | .call _ args _ _ _ => by
    simp only [expr]
    exact callExpr_keeps hinner (arguments_keep hinner args)
  | .int _ _ | .real _ _ | .str _ _ | .bool _ _ | .raw _ _ => by
    simp only [expr]
    exact .ret _

theorem exprs_keeps (hinner : AccountsInner inner) {at' : Place} :
    ∀ es : List Expr, Keeps (exprs env inner at' es)
  | [] => by
    simp only [exprs]
    exact .ret _
  | e :: es => by
    simp only [exprs]
    exact (expr_keeps hinner e).bind fun _ => (exprs_keeps hinner es).bind fun _ => .ret _

theorem targetOf?_keeps (hinner : AccountsInner inner) {at' : Place} :
    ∀ e : Expr, ∀ x ∈ targetOf? env inner at' e, Keeps x
  | .var i subscripts span, x, hx => by
    simp only [targetOf?, Option.mem_some_iff] at hx
    subst hx
    exact (exprs_keeps hinner subscripts).bind fun _ => .ret _
  | .binary _ _ _ _, _, hx | .unary _ _ _, _, hx | .call _ _ _ _ _, _, hx | .int _ _, _, hx
  | .real _ _, _, hx | .str _ _, _, hx | .bool _ _, _, hx | .raw _ _, _, hx => by
    simp [targetOf?] at hx

theorem arguments_keep (hinner : AccountsInner inner) {at' : Place} :
    ∀ es : List Expr, ∀ a ∈ arguments env inner at' es, KeepsArg a
  | [], a, ha => by simp [arguments] at ha
  | e :: es, a, ha => by
    simp only [arguments] at ha
    rcases List.mem_cons.mp ha with rfl | ha
    · exact ⟨expr_keeps hinner e, targetOf?_keeps hinner e⟩
    · exact arguments_keep hinner es a ha

end

theorem varRef_keeps (hinner : AccountsInner inner) {at' : Place} (v : VarRef) :
    Keeps (varRef env inner at' v) :=
  (exprs_keeps hinner v.subscripts).bind fun _ => .ret _

theorem siteOfValue?_args (hinner : AccountsInner inner) {at' : Place} {e : Expr} {c : CallSite}
    (h : siteOfValue? env inner at' p e = .ok (some c)) : ∀ a ∈ c.args, KeepsArg a := by
  unfold siteOfValue? at h
  split at h
  · cases h
    exact arguments_keep hinner _
  · split at h
    · obtain ⟨site, hsite, h⟩ := Except.bind_eq_ok.mp h
      cases h
      rw [getterSite_args hsite]
      exact arguments_keep hinner _
    · split at h <;> cases h
      simp
  · cases h

theorem assignment_accounts (hinner : AccountsInner inner) {at' : Place} (target : VarRef)
    (value : Expr) (span : Span) :
    Accounts at'.top.isInit (assignment env inner at' target value span) [] stmtsDeclared := by
  unfold assignment
  refine .after .read fun p => ?_
  split
  · refine .lift_bind fun site hsite => callStmts_accounts hinner ?_
    rw [setterSite_args hsite]
    exact arguments_keep hinner _
  · refine .lift_bind fun site hsite => ?_
    split
    · have hargs := siteOfValue?_args hinner hsite
      split
      · exact .after (varRef_keeps hinner target) fun _ =>
          .after (callExpr_keeps hinner hargs) fun _ => .ret (.refl _)
      · exact .after (varRef_keeps hinner target) fun _ => callStmts_accounts hinner hargs
    · exact .after (varRef_keeps hinner target) fun _ =>
        .after (expr_keeps hinner value) fun _ => .ret (.refl _)

theorem initializer_keeps (hinner : AccountsInner inner) {at' : Place} (x : Initializer) :
    Keeps (initializer env inner at' x) := by
  cases x with
  | single e => exact (expr_keeps hinner e).bind fun _ => .ret _
  | list es => exact (exprs_keeps hinner es).bind fun _ => .ret _

/-- A declaration keeps its name. -/
theorem declaration_accounts (hinner : AccountsInner inner) {at' : Place} (d : Declaration) :
    Accounts init (declaration env inner at' d) [d.name] fun d' => [d'.name] := by
  unfold declaration
  refine .after (.option fun e => expr_keeps hinner e) fun size => ?_
  refine .after (exprs_keeps hinner d.params) fun params => ?_
  exact .after (.option fun x => initializer_keeps hinner x) fun init => .ret (.refl _)

/-! ### Statements -/

mutual

theorem stmt_accounts (hinner : AccountsInner inner) {outer : Place} :
    ∀ s : Stmt, Accounts outer.top.isInit (stmt env inner outer s) s.declared stmtsDeclared
  | ⟨.call c, _, trace⟩ => by
    simp only [stmt, Stmt.declared]
    exact callStmts_accounts hinner (arguments_keep hinner c.args)
  | ⟨.assign target value, span, trace⟩ => by
    simp only [stmt, Stmt.declared]
    exact assignment_accounts hinner target value span
  | ⟨.declare d, span, trace⟩ => by
    simp only [stmt, Stmt.declared]
    exact (declaration_accounts hinner d).map fun d' => by simp [stmtsDeclared, Stmt.declared]
  | ⟨.whileLoop cond body, span, trace⟩ => by
    simp only [stmt, Stmt.declared]
    refine .after (expr_keeps hinner cond) fun _ => ?_
    exact (stmts_accounts hinner body).map fun body' => by simp [stmtsDeclared, Stmt.declared]
  | ⟨.forLoop var start stop step _ body, span, trace⟩ => by
    simp only [stmt, Stmt.declared]
    refine .after (varRef_keeps hinner var) fun _ => .after (expr_keeps hinner start) fun _ => ?_
    refine .after (expr_keeps hinner stop) fun _ =>
      .after (.option fun e => expr_keeps hinner e) fun _ => ?_
    exact (stmts_accounts hinner body).map fun body' => by simp [stmtsDeclared, Stmt.declared]
  | ⟨.family _ body, span, trace⟩ => by
    simp only [stmt, Stmt.declared]
    exact (stmts_accounts hinner body).map fun body' => by simp [stmtsDeclared, Stmt.declared]
  | ⟨.ifChain bs otherwise, span, trace⟩ => by
    simp only [stmt, Stmt.declared]
    -- What is expanded already is counted behind what is still to be expanded.
    refine (branches_accounts hinner bs).bind fun bs' => ?_
    refine .congr (stmtsDeclared otherwise ++ branchesDeclared bs') ?_ List.perm_append_comm
    refine (stmts_accounts hinner otherwise).bind fun otherwise' => .ret ?_
    simpa [stmtsDeclared, Stmt.declared] using List.perm_append_comm
  | ⟨.select subject cs, span, trace⟩ => by
    simp only [stmt, Stmt.declared]
    refine .after (expr_keeps hinner subject) fun _ => ?_
    exact (cases_accounts hinner cs).map fun cs' => by simp [stmtsDeclared, Stmt.declared]
  | ⟨.property _ fs, span, trace⟩ => by
    simp only [stmt, Stmt.declared]
    exact (functions_accounts hinner fs).map fun fs' => by simp [stmtsDeclared, Stmt.declared]
  | ⟨.synonym _ _ target, span, trace⟩ => by
    simp only [stmt, Stmt.declared]
    exact .after (varRef_keeps hinner target) fun _ => .ret (.refl _)

/-- **Statements, expanded, account for their declarations.** -/
theorem stmts_accounts (hinner : AccountsInner inner) {outer : Place} :
    ∀ ss : List Stmt, Accounts outer.top.isInit (stmts env inner outer ss) (stmtsDeclared ss)
      stmtsDeclared
  | [] => by
    simp only [stmts]
    exact .ret (.refl _)
  | s :: ss => by
    simp only [stmts, stmtsDeclared]
    refine (stmt_accounts hinner s).bind fun first => ?_
    refine .congr (stmtsDeclared ss ++ stmtsDeclared first) ?_ List.perm_append_comm
    refine (stmts_accounts hinner ss).bind fun rest => .ret ?_
    rw [stmtsDeclared_append]
    exact List.perm_append_comm

theorem branches_accounts (hinner : AccountsInner inner) {outer : Place} :
    ∀ bs : List Branch,
      Accounts outer.top.isInit (branches env inner outer bs) (branchesDeclared bs) branchesDeclared
  | [] => by
    simp only [branches]
    exact .ret (.refl _)
  | ⟨cond, body⟩ :: rest => by
    simp only [branches, branchesDeclared]
    refine .after (expr_keeps hinner cond) fun _ => (stmts_accounts hinner body).bind fun body' => ?_
    refine .congr (branchesDeclared rest ++ stmtsDeclared body') ?_ List.perm_append_comm
    refine (branches_accounts hinner rest).bind fun rest' => .ret ?_
    exact List.perm_append_comm

theorem cases_accounts (hinner : AccountsInner inner) {outer : Place} :
    ∀ cs : List Case, Accounts outer.top.isInit (cases env inner outer cs) (casesDeclared cs)
      casesDeclared
  | [] => by
    simp only [cases]
    exact .ret (.refl _)
  | ⟨start, stop, body⟩ :: rest => by
    simp only [cases, casesDeclared]
    refine .after (expr_keeps hinner start) fun _ =>
      .after (.option fun e => expr_keeps hinner e) fun _ => ?_
    refine (stmts_accounts hinner body).bind fun body' => ?_
    refine .congr (casesDeclared rest ++ stmtsDeclared body') ?_ List.perm_append_comm
    refine (cases_accounts hinner rest).bind fun rest' => .ret ?_
    exact List.perm_append_comm

theorem functions_accounts (hinner : AccountsInner inner) {outer : Place} :
    ∀ fs : List FunctionDef,
      Accounts outer.top.isInit (functions env inner outer fs) (functionsDeclared fs) functionsDeclared
  | [] => by
    simp only [functions]
    exact .ret (.refl _)
  | ⟨_, _, _, body, _, _, _⟩ :: rest => by
    simp only [functions, functionsDeclared]
    refine (stmts_accounts hinner body).bind fun body' => ?_
    refine .congr (functionsDeclared rest ++ stmtsDeclared body') ?_ List.perm_append_comm
    refine (functions_accounts hinner rest).bind fun rest' => .ret ?_
    exact List.perm_append_comm

end

theorem expandAt_accounts (env : Env) (n : Nat) : AccountsInner (expandAt env n) := by
  induction n with
  | zero =>
    intro at' ss
    exact stmts_accounts (fun _ _ p a p' _ h => by cases h) ss
  | succ n ih =>
    intro at' ss
    exact stmts_accounts ih ss

theorem expand_accounts (env : Env) : AccountsInner (expand env) := fun _ _ =>
  .after .read fun _ => expandAt_accounts env _ _ _

/-! ### Scripts -/

/-- A block in the place of another one: an init callback for an init callback, and for any
other block one that declares the same. -/
def DeclaresAlike (b b' : Block) : Prop :=
  b'.isInit = b.isInit ∧
    (b.isInit = false → (stmtsDeclared b.body).Perm (stmtsDeclared b'.body))

theorem block_moves {ex : Expander} (hex : AccountsInner ex) {b b' : Block} (hp : Ready p)
    (h : (block ex b).run p = .ok (b', p')) :
    DeclaresAlike b b' ∧ Moves b.isInit p p' (stmtsDeclared b.body) (stmtsDeclared b'.body) := by
  cases b with
  | function f => cases h
  | callback c =>
    obtain ⟨body, p₁, hbody, h⟩ := StateT.bind_eq_ok.mp h
    cases h
    have htop : Top.isInit (.callback c.isInit) = c.isInit := by cases c.isInit <;> rfl
    have hmoves := hex ⟨.callback c.isInit, [], []⟩ c.body p body p' hp hbody
    rw [htop] at hmoves
    refine ⟨⟨rfl, fun hinit => List.perm_iff_count.mpr fun i => ?_⟩, hmoves⟩
    have hbalance := hmoves.balance i
    rw [hmoves.outside hinit i] at hbalance
    exact Nat.add_right_cancel hbalance

/-- **The blocks of a script** take declarations along in init callbacks only. -/
theorem blocks_move {ex : Expander} (hex : AccountsInner ex) :
    ∀ {bs bs' : List Block} {p p' : Program}, Ready p →
      (bs.mapM (block ex)).run p = .ok (bs', p') →
      List.Forall₂ DeclaresAlike bs bs' ∧
        Moves true p p' (Script.declaredIn ⟨bs⟩ true) (Script.declaredIn ⟨bs'⟩ true)
  | [], _, p, _, _, h => by
    cases h
    exact ⟨.nil, (Holds.refl p).moves (.refl _)⟩
  | b :: bs, _, p, p', hp, h => by
    rw [List.mapM_cons] at h
    obtain ⟨b', p₁, hb, h⟩ := StateT.bind_eq_ok.mp h
    obtain ⟨bs', p₂, hbs, h⟩ := StateT.bind_eq_ok.mp h
    cases h
    obtain ⟨halike, hmoves⟩ := block_moves hex hp hb
    obtain ⟨halikes, hrest⟩ := blocks_move hex (hmoves.ready hp) hbs
    refine ⟨.cons halike halikes, hmoves.toLater.trans hrest.toLater, fun i => ?_,
      fun h => absurd h (by decide)⟩
    have hbalance := hrest.balance i
    rw [Script.declaredIn_cons, Script.declaredIn_cons, halike.1, List.count_append,
      List.count_append]
    cases hinit : b.isInit with
    | true =>
      have hfirst := hmoves.balance i
      simp only [beq_self_eq_true, if_true]
      omega
    | false =>
      have hfirst := hmoves.outside hinit i
      simp only [show (false == true) = false from rfl, Bool.false_eq_true, if_false,
        List.count_nil]
      omega

theorem standaloneBodies_accounts {ex : Expander} (hex : AccountsInner ex) :
    ∀ n i, Accounts false (standaloneBodies ex i n) [] fun bodies =>
      bodies.flatMap fun b => stmtsDeclared b.2
  | 0, _ => .ret .nil
  | n + 1, i => by
    intro p bodies p' hp h
    have hrest := standaloneBodies_accounts hex n (i + 1)
    simp only [standaloneBodies, StateT.run_bind, StateT.run_get, pure_bind] at h
    cases hfind : p.functions[i]? with
    | none =>
      rw [hfind] at h
      cases h
    | some e =>
      rw [hfind] at h
      dsimp only at h
      split at h
      · have hfirst := hex ⟨.function e.name, [e.name], []⟩ e.fn.body
        rw [hp.bodies e (List.mem_of_getElem? hfind)] at hfirst
        have hboth : Accounts false (do
            let body ← ex ⟨.function e.name, [e.name], []⟩ e.fn.body
            return (e.name, body) :: (← standaloneBodies ex (i + 1) n)) ([] ++ [])
            fun bodies => bodies.flatMap fun b => stmtsDeclared b.2 := by
          refine hfirst.bind fun body => ?_
          refine .congr ([] ++ stmtsDeclared body) ?_ (by simp)
          refine hrest.bind fun bodies => .ret ?_
          rw [List.flatMap_cons]
          exact List.perm_append_comm
        exact hboth p bodies p' hp h
      · exact hrest p bodies p' hp h

/-- **Expansion moves declarations into init callbacks, and nowhere else.** In the end functions
get their expanded bodies, which declare nothing. -/
theorem script_moves {s s' : Script} (hp : Ready p) (h : (script env s).run p = .ok (s', p')) :
    ∃ p₁ bodies, List.Forall₂ DeclaresAlike s.blocks s'.blocks ∧
      Moves true p p₁ (s.declaredIn true) (s'.declaredIn true) ∧
      (∀ b ∈ bodies, stmtsDeclared b.2 = []) ∧
      p' = { p₁ with functions := p₁.functions.map (withBody bodies) } := by
  have hex := expand_accounts env
  unfold script scriptBy at h
  obtain ⟨first, p₁, hfirst, h⟩ := StateT.bind_eq_ok.mp h
  obtain ⟨halike₁, hmoves₁⟩ := blocks_move hex hp hfirst
  have hp₁ := hmoves₁.ready hp
  obtain ⟨q, _, hget, h⟩ := StateT.bind_eq_ok.mp h
  cases hget
  obtain ⟨bodies, p₂, hbodies, h⟩ := StateT.bind_eq_ok.mp h
  have hmoves₂ := standaloneBodies_accounts hex _ _ p₁ bodies p₂ hp₁ hbodies
  have hp₂ := hmoves₂.ready hp₁
  obtain ⟨rest, p₃, hrest, h⟩ := StateT.bind_eq_ok.mp h
  obtain ⟨halike₃, hmoves₃⟩ := blocks_move hex hp₂ hrest
  cases h
  refine ⟨p₃, bodies, ?_, ⟨?_, fun i => ?_, fun h => absurd h (by decide)⟩, ?_, rfl⟩
  · have happend : List.Forall₂ DeclaresAlike (s.blocks.take 1 ++ s.blocks.drop 1) (first ++ rest) :=
      List.rel_append halike₁ halike₃
    rwa [List.take_append_drop] at happend
  · exact (hmoves₁.toLater.trans hmoves₂.toLater).trans hmoves₃.toLater
  · have hsplit : s.declaredIn true = Script.declaredIn ⟨s.blocks.take 1⟩ true ++
        Script.declaredIn ⟨s.blocks.drop 1⟩ true := by
      rw [← Script.declaredIn_append, List.take_append_drop]
    have hb₁ := hmoves₁.balance i
    have hb₂ := hmoves₂.outside rfl i
    have hb₃ := hmoves₃.balance i
    rw [hsplit, Script.declaredIn_append, List.count_append, List.count_append]
    omega
  · -- What the bodies declare would have to come from somewhere.
    intro b hb
    refine List.eq_nil_iff_forall_not_mem.mpr fun i hi => ?_
    have hbalance := hmoves₂.balance i
    dsimp only at hbalance
    rw [hmoves₂.outside rfl i, List.count_nil, Nat.zero_add] at hbalance
    have hpos : 0 < (bodies.flatMap fun b => stmtsDeclared b.2).count i :=
      List.count_pos_iff.mpr (List.mem_flatMap.mpr ⟨b, hb, hi⟩)
    omega

theorem withBody_declared (bodies : List (String × List Stmt)) (e : FunctionEntry) :
    (withBody bodies e).declared = e.declared := by
  unfold withBody
  split <;> rfl

theorem declaredIn_false_perm {bs bs' : List Block} (h : List.Forall₂ DeclaresAlike bs bs') :
    (Script.declaredIn ⟨bs⟩ false).Perm (Script.declaredIn ⟨bs'⟩ false) := by
  induction h with
  | nil => exact .refl _
  | @cons b b' bs bs' hb _ ih =>
    rw [Script.declaredIn_cons, Script.declaredIn_cons, hb.1]
    refine .append ?_ ih
    cases hinit : b.isInit with
    | true => exact .refl _
    | false => exact hb.2 hinit

end FlatScript.Inlining
