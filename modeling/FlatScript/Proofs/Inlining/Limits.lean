import FlatScript.Proofs.Failure
import FlatScript.Proofs.Inlining.Depth

/-!
# What expansion can fail with

Expansion may fail at every call: the function is not known, it is being copied already, the
arguments do not fit. Which of these errors can come up depends on what is known of the text:
which functions may be entered at a stack of functions that are being copied, and what may be
passed to them by name. A `FlatScript.Inlining.Limits` collects these facts, and the theorems of
this file follow all of expansion to its errors, once for all limits.

The results matter too, because an argument is expanded first and then stands in the body of the
function that it is passed to. So `FlatScript.Inlining.Limits.Ends` says of a step that its
errors are within the limits and that its result has a property.
-/

namespace FlatScript.Inlining

/-- The call that a reference may become is not looked at; this is what a call with some
arguments passes by name: all arguments that are references. -/
def PassesOnly (lends : VarRef → Prop) (args : List Expr) : Prop :=
  ∀ a ∈ args, ∀ v, a.asVar? = some v → lends v

/-- **What has to be known to bound the errors of expansion**, started on the program `p₀`. -/
structure Limits (env : Env) (p₀ : Program) where
  /-- The errors that may come up. -/
  fails : CompileError → Prop
  /-- The rule of what is expanded while some functions are being copied. -/
  src : List String → Rule
  /-- The rule of expanded expressions. -/
  dst : Rule
  /-- The functions that may be entered while some functions are being copied. -/
  enters : List String → String → Prop
  /-- The references that may be passed by name to a function, while some are being copied. -/
  lends : List String → String → VarRef → Prop
  -- Errors.
  plain : ∀ {e}, CompileError.IsPlain e → fails e
  recursion : ∀ {stack name chain loc}, p₀.isUserFunction name = true → enters stack name →
    name ∈ stack → fails (.fault (.recursiveCall chain) loc)
  offset : ∀ {e text}, e ∈ p₀.functions → e.fn.isTaskfunc = true →
    2 ^ 31 ≤ e.fn.params.length + 1 → fails (.internal text)
  -- The rules.
  noAtom : ∀ {stack op left right}, ¬ (src stack).atom op left right
  noWhole : ∀ {stack target value}, ¬ (src stack).whole target value
  skips : ∀ {stack name}, (src stack).skips name = true →
    Builtins.keepsFirstArgument name = true ∧ p₀.isBuiltinCall env.builtins name = true ∧
      ∀ e, p₀.function? name = some e → e.fn.isTaskfunc = false
  raw : ∀ {name}, Builtins.keepsFirstArgument name = true →
    p₀.isBuiltinCall env.builtins name = true → ∀ e : Expr, dst.skips name = true ∨ e.Meets dst
  binary : ∀ {stack op left right span left' right'}, (src stack).expr (.binary op left right span) →
    dst.expr (.binary op left' right' span)
  unary : ∀ {stack op e span e'}, (src stack).expr (.unary op e span) →
    dst.expr (.unary op e' span)
  literal : ∀ {stack} {e : Expr}, e.isLiteral = true → (src stack).expr e → dst.expr e
  var : ∀ {stack i es span es'}, (src stack).expr (.var i es span) →
    isPropertyRef p₀ i = false → (es = [] → namesFunction p₀ i = false) →
    es'.length = es.length → dst.expr (.var i es' span)
  builtin : ∀ {name args isProcedure span}, p₀.isBuiltinCall env.builtins name.name = true →
    dst.expr (.call name args isProcedure false span)
  slot : ∀ {count i span}, (argumentSlot count i span).toExpr.Meets dst
  -- What is entered, and what is passed.
  call : ∀ {stack name args isProcedure usingCall span},
    (src stack).expr (.call name args isProcedure usingCall span) →
    argsMeet (src stack) ((src stack).skips name.name) args →
    (usingCall = false ∧ p₀.isBuiltinCall env.builtins name.name = true) ∨
      (enters stack name.name ∧ (usingCall = false → PassesOnly (lends stack name.name) args))
  callStmt : ∀ {stack c}, (src stack).stmt (.call c) →
    argsMeet (src stack) ((src stack).skips c.name.name) c.args →
    (c.usingCall = false ∧ p₀.isBuiltinCall env.builtins c.name.name = true) ∨
      (enters stack c.name.name ∧
        (c.usingCall = false → PassesOnly (lends stack c.name.name) c.args))
  name : ∀ {stack i span}, (src stack).expr (.var i [] span) → namesFunction p₀ i = true →
    enters stack i.name
  getter : ∀ {stack i es span}, (src stack).expr (.var i es span) → exprsMeet (src stack) es →
    isPropertyRef p₀ i = true → p₀.isUserFunction (i.name ++ ".get") = true →
    enters stack (Ident.fixed (i.name ++ ".get") i.span).name ∧
      PassesOnly (lends stack (Ident.fixed (i.name ++ ".get") i.span).name) es
  setter : ∀ {stack target value}, (src stack).stmt (.assign target value) →
    target.Meets (src stack) → value.Meets (src stack) → isPropertyRef p₀ target.ident = true →
    p₀.isUserFunction (target.ident.name ++ ".set") = true →
    enters stack (Ident.fixed (target.ident.name ++ ".set") target.ident.span).name ∧
      PassesOnly (lends stack (Ident.fixed (target.ident.name ++ ".set") target.ident.span).name)
        (target.subscripts ++ [value])
  result : ∀ {stack target value es span}, (src stack).stmt (.assign target value) →
    isPropertyRef p₀ target.ident = false → exprsMeet dst es →
    ∀ name, lends stack name ⟨target.ident, es, span⟩
  -- Copies.
  decls : ∀ {stack name e}, p₀.function? name = some e → enters stack name →
    stmtsMeet (src stack) (e.globals ++ e.locals)
  body : ∀ {stack name e s span body}, p₀.function? name = some e → enters stack name →
    (∀ b ∈ s, b.1 ∈ Taskfunc.slotNames e.fn ∧
      (b.2.Meets dst ∨ ∃ v : VarRef, b.2 = v.toExpr ∧ lends stack name v)) →
    Substitution.stmts env s (stmtsCopiedTo span e.fn.body) = .ok body →
    stmtsMeet (src (stack ++ [name])) body

/-- **What has to be known when anything may be expanded**, entered and passed by name: which errors
may come up, and what holds of expanded expressions. -/
structure FreeLimits (env : Env) (p₀ : Program) where
  /-- The errors that may come up. -/
  fails : CompileError → Prop
  /-- The rule of expanded expressions. -/
  dst : Rule
  plain : ∀ {e}, CompileError.IsPlain e → fails e
  recursion : ∀ {chain loc}, fails (.fault (.recursiveCall chain) loc)
  offset : ∀ {e text}, e ∈ p₀.functions → e.fn.isTaskfunc = true →
    2 ^ 31 ≤ e.fn.params.length + 1 → fails (.internal text)
  raw : ∀ {name}, Builtins.keepsFirstArgument name = true →
    p₀.isBuiltinCall env.builtins name = true → ∀ e : Expr, dst.skips name = true ∨ e.Meets dst
  binary : ∀ {op left right span}, dst.expr (.binary op left right span)
  unary : ∀ {op e span}, dst.expr (.unary op e span)
  literal : ∀ {e : Expr}, e.isLiteral = true → dst.expr e
  var : ∀ {i es span}, isPropertyRef p₀ i = false → (es = [] → namesFunction p₀ i = false) →
    dst.expr (.var i es span)
  builtin : ∀ {name args isProcedure span}, p₀.isBuiltinCall env.builtins name.name = true →
    dst.expr (.call name args isProcedure false span)
  slot : ∀ {count i span}, (argumentSlot count i span).toExpr.Meets dst

/-- Nothing bounds what is expanded. -/
def FreeLimits.limits {env : Env} {p₀ : Program} (F : FreeLimits env p₀) : Limits env p₀ where
  fails := F.fails
  src _ := .trivial
  dst := F.dst
  enters _ _ := True
  lends _ _ _ := True
  plain := F.plain
  recursion _ _ _ := F.recursion
  offset := F.offset
  noAtom h := h
  noWhole h := h
  skips h := absurd h Bool.false_ne_true
  raw := F.raw
  binary _ := F.binary
  unary _ := F.unary
  literal hlit _ := F.literal hlit
  var _ hprop hname hlen := F.var hprop fun h =>
    hname (List.length_eq_zero_iff.mp (hlen.symm.trans (List.length_eq_zero_iff.mpr h)))
  builtin := F.builtin
  slot := F.slot
  call _ _ := .inr ⟨trivial, fun _ _ _ _ _ => trivial⟩
  callStmt _ _ := .inr ⟨trivial, fun _ _ _ _ _ => trivial⟩
  name _ _ := trivial
  getter _ _ _ _ := ⟨trivial, fun _ _ _ _ => trivial⟩
  setter _ _ _ _ _ := ⟨trivial, fun _ _ _ _ => trivial⟩
  result _ _ _ _ := trivial
  decls _ _ := stmtsMeet_trivial _
  body _ _ _ _ := stmtsMeet_trivial _

namespace Limits

variable {env : Env} {p₀ : Program} (L : Limits env p₀) {α β : Type}

/-! ### Steps -/

/-- **A step ends within the limits**: its errors are allowed, and if it leaves a result, the
program has grown and the result has a property. -/
def Ends (x : Compile α) (Q : α → Prop) : Prop :=
  ∀ p, p₀.Grows p → FailsWith L.fails (x.run p) ∧
    ∀ a p', x.run p = .ok (a, p') → p₀.Grows p' ∧ Q a

variable {L}

namespace Ends

variable {x : Compile α} {f : α → Compile β} {Q Q' : α → Prop} {R : β → Prop}

theorem ret {a : α} (h : Q a) : L.Ends (pure a) Q := by
  intro p hp
  refine ⟨.ok _, ?_⟩
  rintro b p' hrun
  cases hrun
  exact ⟨hp, h⟩

theorem fail {e : CompileError} (h : L.fails e) : L.Ends (throw e : Compile α) Q :=
  fun _ _ => ⟨.error h, nofun⟩

theorem bind (hx : L.Ends x Q) (hf : ∀ a, Q a → L.Ends (f a) R) : L.Ends (x >>= f) R := by
  intro p hp
  obtain ⟨hfail, hok⟩ := hx p hp
  constructor
  · rw [StateT.run_bind]
    refine hfail.bind ?_
    rintro ⟨a, p₁⟩ hrun
    obtain ⟨hp₁, hQ⟩ := hok a p₁ hrun
    exact (hf a hQ p₁ hp₁).1
  · intro b p' hrun
    obtain ⟨a, p₁, hrunx, hrunf⟩ := StateT.bind_eq_ok.mp hrun
    obtain ⟨hp₁, hQ⟩ := hok a p₁ hrunx
    exact (hf a hQ p₁ hp₁).2 b p' hrunf

theorem imp (h : L.Ends x Q) (himp : ∀ a, Q a → Q' a) : L.Ends x Q' :=
  fun p hp => ⟨(h p hp).1, fun a p' hrun => ((h p hp).2 a p' hrun).imp id (himp a)⟩

theorem get_bind {f : Program → Compile β} (h : ∀ p, p₀.Grows p → L.Ends (f p) R) :
    L.Ends (get >>= f) R := by
  intro p hp
  have hrun : (get >>= f).run p = (f p).run p := by simp
  rw [hrun]
  exact h p hp p hp

theorem modify_bind {m : Program → Program} {f : Unit → Compile β}
    (hm : ∀ p, p₀.Grows p → p.Grows (m p)) (h : L.Ends (f ()) R) :
    L.Ends (modify m >>= f) R := by
  intro p hp
  have hrun : (modify m >>= f).run p = (f ()).run (m p) := by simp
  rw [hrun]
  exact h (m p) (hp.trans (hm p hp))

/-- A step that does not look at the program. -/
theorem lift_bind {z : Except CompileError α} (hz : FailsWith L.fails z)
    (h : ∀ a, z = .ok a → L.Ends (f a) R) : L.Ends ((liftM z : Compile α) >>= f) R := by
  cases z with
  | error e => exact fun p _ => ⟨.error (hz e rfl), fun b p' hrun => nomatch hrun⟩
  | ok a => exact h a rfl

theorem list {f : α → Compile β} {l : List α} (h : ∀ a ∈ l, L.Ends (f a) R) :
    L.Ends (l.mapM f) fun bs => ∀ b ∈ bs, R b := by
  induction l with
  | nil =>
    rw [List.mapM_nil]
    exact .ret (by simp)
  | cons a l ih =>
    rw [List.mapM_cons]
    refine (h a (by simp)).bind fun b hb => ?_
    refine (ih fun a ha => h a (by simp [ha])).bind fun bs hbs => .ret ?_
    simpa using ⟨hb, hbs⟩

theorem option {f : α → Compile β} {o : Option α} (h : ∀ a ∈ o, L.Ends (f a) R) :
    L.Ends (o.mapM f) fun _ => True := by
  cases o with
  | none => exact .ret trivial
  | some a =>
    simp only [Option.mapM_some, map_eq_pure_bind]
    exact (h a rfl).bind fun _ _ => .ret trivial

end Ends

variable (L)

theorem fails_error {at' : Place} {fault : Fault} {span : Span}
    (h : ∀ chain, fault ≠ .recursiveCall chain) : L.fails (at'.error env fault span) :=
  L.plain (env.isPlain_errorAt _ _ h)

/-! ### Arguments -/

/-- An argument can be expanded, as a value and as a target. -/
structure Arg (a : Argument) : Prop where
  value : L.Ends a.value fun e => e.Meets L.dst
  target : ∀ x ∈ a.target?, L.Ends x fun _ => True

/-- **What is known of a call**: its arguments can be expanded, apart from a first one that is
passed over, and it reaches a built-in function, or one that may be entered with the arguments
that it passes by name. -/
structure Site (stack : List String) (c : CallSite) : Prop where
  args : ∀ a ∈ if (L.src stack).skips c.name.name then c.args.tail else c.args, L.Arg a
  kind : (c.usingCall = false ∧ p₀.isBuiltinCall env.builtins c.name.name = true) ∨
    (L.enters stack c.name.name ∧ (c.usingCall = false →
      PassesOnly (L.lends stack c.name.name) (c.args.map Argument.written)))

/-- Statements that assign expanded values only. -/
def Settled (ss : List Stmt) : Prop :=
  ∀ s ∈ ss, ∀ target value, s.kind = .assign target value → value.Meets L.dst

variable {L} {at' : Place}

theorem Site.all {stack : List String} {c : CallSite} (h : L.Site stack c)
    (hskips : (L.src stack).skips c.name.name = false) : ∀ a ∈ c.args, L.Arg a := by
  have hargs := h.args
  rw [if_neg (by simp [hskips])] at hargs
  exact hargs

theorem Settled.append {ss ss' : List Stmt} (h : L.Settled ss) (h' : L.Settled ss') :
    L.Settled (ss ++ ss') := by
  intro s hs
  rcases List.mem_append.mp hs with hs | hs
  · exact h s hs
  · exact h' s hs

theorem settled_nil : L.Settled [] := by
  intro s hs
  cases hs

theorem settled_assign {target : VarRef} {value : Expr} {span : Span} {trace : List Span}
    (h : value.Meets L.dst) : L.Settled [⟨.assign target value, span, trace⟩] := by
  rintro s hs target' value' hk
  rw [List.mem_singleton.mp hs] at hk
  cases hk
  exact h

/-- A statement that is no assignment. -/
theorem settled_other {k : StmtKind} {span : Span} {trace : List Span}
    (h : ∀ target value, k ≠ .assign target value) : L.Settled [⟨k, span, trace⟩] := by
  rintro s hs target value hk
  rw [List.mem_singleton.mp hs] at hk
  exact absurd hk (h target value)

/-! ### Built-in functions -/

theorem mapM_value_ends {as : List Argument} (h : ∀ a ∈ as, L.Arg a) :
    L.Ends (as.mapM (·.value)) fun es => exprsMeet L.dst es :=
  (Ends.list fun a ha => (h a ha).value).imp fun _ hes => exprsMeet_iff.mpr hes

theorem builtinArgs_ends {stack : List String} {c : CallSite} (hc : L.Site stack c)
    (hb : p₀.isBuiltinCall env.builtins c.name.name = true) :
    L.Ends (builtinArgs c.name.name c.args) fun es =>
      argsMeet L.dst (L.dst.skips c.name.name) es := by
  obtain ⟨name, args, isProcedure, usingCall, span⟩ := c
  have hargs := hc.args
  dsimp only at hargs hb ⊢
  cases args with
  | nil => exact .ret trivial
  | cons first rest =>
    have hrest : ∀ a ∈ rest, L.Arg a := by
      intro a ha
      split at hargs
      · exact hargs a ha
      · exact hargs a (by simp [ha])
    simp only [builtinArgs]
    split
    · next hkeep =>
      rw [pure_bind]
      refine (mapM_value_ends hrest).bind fun es hes => .ret ?_
      exact ⟨L.raw hkeep hb first.written, hes⟩
    · next hkeep =>
      -- Only a first argument that stays is passed over.
      have hskips : ¬ (L.src stack).skips name.name = true := fun hskips =>
        hkeep (L.skips hskips).1
      rw [if_neg hskips] at hargs
      refine (hargs first (by simp)).value.bind fun e he => ?_
      refine (mapM_value_ends hrest).bind fun es hes => .ret ?_
      exact ⟨.inr he, hes⟩

theorem builtinCall_ends {stack : List String} {c : CallSite} (hc : L.Site stack c)
    (hb : p₀.isBuiltinCall env.builtins c.name.name = true) (hcall : c.usingCall = false) :
    L.Ends (builtinCall at' c) fun call => call.toExpr.Meets L.dst := by
  have hargs : L.Ends (builtinArgs c.name.name c.args >>= fun args =>
      (pure ⟨c.name, args, c.isProcedure, c.usingCall, c.span⟩ : Compile Call))
      fun call => call.toExpr.Meets L.dst := by
    refine (builtinArgs_ends hc hb).bind fun args hargs => .ret ?_
    rw [hcall]
    exact ⟨L.builtin hb, hargs⟩
  unfold builtinCall
  dsimp only
  split
  · split
    · exact .modify_bind (fun p _ => p.grows_waiting _) hargs
    · exact hargs
  · exact hargs

/-! ### Functions of the script -/

/-- Recursion is the fault of a call of a function that is being copied. -/
theorem mem_stack_of_callFault? {f : FunctionDef} {c : CallSite} {use : Use} {fault : Fault}
    (h : callFault? at' f c use = some fault) :
    c.name.name ∈ at'.stack ∨ ∀ chain, fault ≠ .recursiveCall chain := by
  by_cases hmem : c.name.name ∈ at'.stack
  · exact .inl hmem
  refine .inr ?_
  unfold callFault? at h
  rw [if_neg (by simpa using hmem)] at h
  split at h
  · cases h; exact nofun
  split at h
  · cases h; exact nofun
  split at h
  · cases h; exact nofun
  split at h
  · cases h; exact nofun
  split at h
  · split at h
    · cases h; exact nofun
    split at h
    · cases h; exact nofun
    · cases h
  · cases h

/-- What is known of a function that has been entered. -/
structure Reached (at' : Place) (c : CallSite) (use : Use) (e : FunctionEntry) : Prop
    extends Faultless at' e.fn c use where
  before : ∃ e₀, p₀.function? c.name.name = some e₀ ∧ e₀.Grows e
  enters : L.enters at'.stack c.name.name

theorem enterCall_ends {c : CallSite} {use : Use} (henters : L.enters at'.stack c.name.name) :
    L.Ends (enterCall env at' c use) fun e => L.Reached at' c use e := by
  intro p hp
  rw [enterCall_run]
  cases hfind : p.function? c.name.name with
  | none => exact ⟨.error (L.fails_error nofun), fun e p' h => nomatch h⟩
  | some e =>
    dsimp only
    cases hfault : callFault? at' e.fn c use with
    | some fault =>
      refine ⟨.error ?_, fun e p' h => nomatch h⟩
      by_cases hmem : c.name.name ∈ at'.stack
      · -- The only fault then is recursion, which is checked first.
        have hrec : fault = .recursiveCall
            (" -> ".intercalate (at'.stack ++ [c.name.name])) := by
          unfold callFault? at hfault
          rw [if_pos (by simpa using hmem)] at hfault
          exact (Option.some.inj hfault).symm
        rw [hrec]
        have hknown : p₀.isUserFunction c.name.name = true := by
          rw [← hp.isUserFunction]
          exact Program.isUserFunction_of_function? hfind
        exact L.recursion hknown henters hmem
      · exact L.fails_error ((mem_stack_of_callFault? hfault).resolve_left hmem)
    | none =>
      refine ⟨.ok _, ?_⟩
      rintro e' p' ⟨⟩
      have hfaultless := faultless_of_callFault? hfault
      obtain ⟨e₀, he₀, hgrows⟩ := hp.exists_before hfind
      refine ⟨hp.trans (grows_entered _ fun hcall => ?_), hfaultless, ⟨e₀, he₀, hgrows⟩,
        henters⟩
      exact ⟨e, hfind, hfaultless.isTarget hcall⟩

/-! ### Task functions -/

theorem storeArgs_ends {count : Nat} {span : Span} {as : List (Argument × ParamKind)}
    (h : ∀ a ∈ as, a.2.copiesIn = true → L.Ends a.1.value fun e => e.Meets L.dst) (i : Nat) :
    L.Ends (storeArgs at' count span i as) L.Settled := by
  induction as generalizing i with
  | nil => exact .ret settled_nil
  | cons a as ih =>
    obtain ⟨arg, kind⟩ := a
    have hrest := ih (fun a ha => h a (by simp [ha])) (i + 1)
    simp only [storeArgs]
    split
    · next hkind =>
      refine (h (arg, kind) (by simp) hkind).bind fun e he => ?_
      rw [pure_bind]
      exact hrest.bind fun ss hss => .ret ((settled_assign he).append hss)
    · rw [pure_bind]
      exact hrest.bind fun ss hss => .ret (settled_nil.append hss)

theorem loadArgs_ends {count : Nat} {span : Span} {as : List (Argument × ParamKind)}
    (h : ∀ a ∈ as, ∀ x ∈ a.1.target?, L.Ends x fun _ => True) (i : Nat) :
    L.Ends (loadArgs at' count span i as) L.Settled := by
  induction as generalizing i with
  | nil => exact .ret settled_nil
  | cons a as ih =>
    obtain ⟨arg, kind⟩ := a
    have hrest := ih (fun a ha => h a (by simp [ha])) (i + 1)
    simp only [loadArgs]
    split
    · next target _ htarget =>
      refine (h (arg, kind) (by simp) target htarget).bind fun v _ => ?_
      rw [pure_bind]
      exact hrest.bind fun ss hss => .ret ((settled_assign L.slot).append hss)
    · rw [pure_bind]
      exact hrest.bind fun ss hss => .ret (settled_nil.append hss)

/-- The number of values that are passed to a task function. -/
theorem passed_le (f : FunctionDef) (args : List Argument) (captured : Option VarRef)
    (g : VarRef → Argument) :
    (args.zip (f.params.map (·.kind)) ++
        (captured.map fun v => (g v, ParamKind.out)).toList).length +
      (if f.result.isSome && captured.isNone then 1 else 0) ≤ f.params.length + 1 := by
  have hzip : (args.zip (f.params.map (·.kind))).length ≤ f.params.length := by
    rw [List.length_zip, List.length_map]
    exact Nat.min_le_right ..
  rcases captured with _ | v
  · simp only [Option.map_none, Option.toList_none, List.append_nil]
    split <;> omega
  · simp only [Option.map_some, Option.toList_some, List.length_append, List.length_singleton,
      Option.isNone_some, Bool.and_false, Bool.false_eq_true, if_false]
    omega

theorem taskfuncCall_ends {c : CallSite} {use : Use} {e : FunctionEntry}
    {captured : Option VarRef} (hargs : ∀ a ∈ c.args, L.Arg a)
    (hreached : L.Reached at' c use e) (htask : e.fn.isTaskfunc = true) :
    L.Ends (taskfuncCall at' e.fn c captured) L.Settled := by
  obtain ⟨e₀, he₀, hgrows⟩ := hreached.before
  -- The result that is wanted is loaded only.
  have hall : ∀ a ∈ c.args.zip (e.fn.params.map (·.kind)) ++
      (captured.map fun v =>
        ((⟨v.toExpr, pure v.toExpr, some (pure v)⟩ : Argument), ParamKind.out)).toList,
      (a.2.copiesIn = true → L.Ends a.1.value fun e => e.Meets L.dst) ∧
        ∀ x ∈ a.1.target?, L.Ends x fun _ => True := by
    intro a ha
    rcases List.mem_append.mp ha with ha | ha
    · have harg := hargs _ (List.of_mem_zip (show (a.1, a.2) ∈ _ from ha)).1
      exact ⟨fun _ => harg.value, harg.target⟩
    · obtain ⟨v, -, rfl⟩ := Option.map_eq_some_iff.mp (Option.mem_toList.mp ha)
      refine ⟨nofun, ?_⟩
      rintro x ⟨⟩
      exact .ret trivial
  have hcount := passed_le e.fn c.args captured fun v => ⟨v.toExpr, pure v.toExpr, some (pure v)⟩
  unfold taskfuncCall
  dsimp only at hcount ⊢
  generalize hsum : List.length _ + (if e.fn.result.isSome && captured.isNone then 1 else 0) = count
    at hcount ⊢
  split
  · next hlarge =>
    refine Ends.bind (Q := fun _ => False) (.fail ?_) fun _ h => h.elim
    refine L.offset (Program.mem_functions_of_function? he₀).1 (hgrows.fn ▸ htask) ?_
    rw [← hgrows.fn]
    omega
  · refine .modify_bind ?_ ?_
    · intro p hp
      obtain ⟨e₁, he₁, hgrows₁⟩ := hp.exists_after he₀
      have htask₁ : e₁.fn.isTaskfunc = true := by
        rw [hgrows₁.fn, ← hgrows.fn]
        exact htask
      exact Program.grows_markExplicit ⟨e₁, he₁, .inl htask₁⟩
    · refine (storeArgs_ends (fun a ha => (hall a ha).1) 0).bind fun stores hstores => ?_
      refine (loadArgs_ends (fun a ha => (hall a ha).2) 0).bind fun loads hloads => .ret ?_
      have hcall : L.Settled
          [at'.stmt (.call ⟨c.name, [], true, true, c.span⟩) c.span] := settled_other nofun
      exact (hstores.append hcall).append hloads

/-! ### Copies -/

/-- What takes the place of the parameters is expanded, or may be passed by name. -/
theorem argumentSubstitution_ends {lends : VarRef → Prop} {params : List (Param × Argument)}
    (h : ∀ a ∈ params, L.Arg a.2)
    (hlends : ∀ a ∈ params, ∀ v, a.2.written.asVar? = some v → lends v) :
    L.Ends (argumentSubstitution params) fun s =>
      ∀ b ∈ s, (∃ a ∈ params, b.1 = Name.firstPart a.1.name.name) ∧
        (b.2.Meets L.dst ∨ ∃ v : VarRef, b.2 = v.toExpr ∧ lends v) := by
  induction params with
  | nil => exact .ret (by simp)
  | cons a rest ih =>
    obtain ⟨param, arg⟩ := a
    have hrest := ih (fun a ha => h a (by simp [ha])) fun a ha => hlends a (by simp [ha])
    -- Whatever is put in the place of the first parameter, the others follow.
    have hcons : ∀ value : Expr,
        (value.Meets L.dst ∨ ∃ v : VarRef, value = v.toExpr ∧ lends v) →
        L.Ends (argumentSubstitution rest >>= fun s =>
          (pure (s ++ [(Name.firstPart param.name.name, value)]) : Compile Substitution))
          fun s => ∀ b ∈ s, (∃ a ∈ (param, arg) :: rest, b.1 = Name.firstPart a.1.name.name) ∧
            (b.2.Meets L.dst ∨ ∃ v : VarRef, b.2 = v.toExpr ∧ lends v) := by
      intro value hvalue
      refine hrest.bind fun s hs => .ret ?_
      intro b hb
      rcases List.mem_append.mp hb with hb | hb
      · obtain ⟨⟨a, ha, hkey⟩, hfit⟩ := hs b hb
        exact ⟨⟨a, by simp [ha], hkey⟩, hfit⟩
      · rw [List.mem_singleton.mp hb]
        exact ⟨⟨(param, arg), by simp, rfl⟩, hvalue⟩
    simp only [argumentSubstitution]
    split
    · next i es span hwritten =>
      rw [pure_bind, hwritten]
      have hlend := hlends (param, arg) (by simp) ⟨i, es, span⟩ (by rw [hwritten]; rfl)
      exact hcons _ (.inr ⟨⟨i, es, span⟩, rfl, hlend⟩)
    · exact (h (param, arg) (by simp)).value.bind fun e he => hcons e (.inl he)

variable (L) in
/-- Statements that are copied are expanded within the limits. -/
def Treats (inner : Expander) : Prop :=
  ∀ at' body, stmtsMeet (L.src at'.stack) body → L.Ends (inner at' body) L.Settled

variable {inner : Expander}

/-- The declarations that are taken along with a copy. -/
theorem takeDeclarations_ends {c : CallSite} {use : Use} {e : FunctionEntry}
    (hreached : L.Reached at' c use e) :
    L.Ends (takeDeclarations at' e) fun ss => stmtsMeet (L.src at'.stack) ss := by
  unfold takeDeclarations
  split
  · refine .modify_bind (fun p _ => p.grows_drained e.name) (.ret ?_)
    obtain ⟨e₀, he₀, hgrows⟩ := hreached.before
    rcases hgrows.decls with ⟨hglobals, hlocals⟩ | ⟨hglobals, hlocals⟩
    · rw [hglobals, hlocals]
      exact L.decls he₀ hreached.enters
    · rw [hglobals, hlocals]
      trivial
  · exact .ret trivial

/-- **A copy of a body** is expanded within the limits. -/
theorem inlineBody_ends (hinner : L.Treats inner) {c : CallSite} {use : Use} {e : FunctionEntry}
    {result : Option VarRef} (hargs : ∀ a ∈ c.args, L.Arg a)
    (hlends : PassesOnly (L.lends at'.stack c.name.name) (c.args.map Argument.written))
    (hreached : L.Reached at' c use e)
    (hresult : ∀ v ∈ result, L.lends at'.stack c.name.name v) :
    L.Ends (inlineBody env inner at' e c result) L.Settled := by
  unfold inlineBody
  refine (takeDeclarations_ends hreached).bind fun decls hdecls => ?_
  refine (hinner at' decls hdecls).bind fun decls hdecls => ?_
  have hzip : ∀ a ∈ e.fn.params.zip c.args, a.1 ∈ e.fn.params ∧ a.2 ∈ c.args :=
    fun a ha => List.of_mem_zip (show (a.1, a.2) ∈ _ from ha)
  have hpassed : ∀ a ∈ e.fn.params.zip c.args, ∀ v, a.2.written.asVar? = some v →
      L.lends at'.stack c.name.name v :=
    fun a ha => hlends _ (List.mem_map_of_mem (hzip a ha).2)
  refine (argumentSubstitution_ends (fun a ha => hargs _ (hzip a ha).2) hpassed).bind
    fun params hparams => ?_
  dsimp only
  refine .lift_bind ((Substitution.stmts_fails env _ _).imp fun _ => L.plain) fun body hbody => ?_
  obtain ⟨e₀, he₀, hgrows⟩ := hreached.before
  have hname : e.name = c.name.name :=
    hgrows.name.trans (Program.mem_functions_of_function? he₀).2
  -- Whatever is put into the body has the name of a parameter or of the result.
  have hmeets : stmtsMeet (L.src (at'.stack ++ [e.name])) body := by
    rw [hname]
    refine L.body he₀ hreached.enters ?_ (hgrows.fn ▸ hbody)
    rw [← hgrows.fn]
    intro b hb
    rcases List.mem_append.mp hb with hb | hb
    · split at hb
      · next key target hkey _ =>
        rw [List.mem_singleton.mp hb]
        exact ⟨Scheme.mem_slotNames_of_resultKey? hkey, .inr ⟨target, rfl, hresult target rfl⟩⟩
      · cases hb
    · obtain ⟨⟨a, ha, hkey⟩, hfit⟩ := hparams b hb
      exact ⟨hkey ▸ Scheme.mem_slotNames_of_param (hzip a ha).1, hfit⟩
  refine (hinner ⟨at'.top, at'.stack ++ [e.name], at'.trace⟩ body hmeets).bind
    fun copy hcopy => .ret ?_
  exact hdecls.append hcopy

/-! ### Calls -/

theorem reachesBuiltin_grows {p : Program} (hp : p₀.Grows p) (c : CallSite) :
    reachesBuiltin env p c = true ↔
      c.usingCall = false ∧ p₀.isBuiltinCall env.builtins c.name.name = true := by
  simp [reachesBuiltin, hp.isBuiltinCall]

/-- A function that is entered without the keyword `call`, or is a task function, is no function
whose first argument is passed over. -/
theorem Site.all_of_reached {c : CallSite} {use : Use} {e : FunctionEntry}
    (hc : L.Site at'.stack c) (hreached : L.Reached at' c use e)
    (hkind : e.fn.isTaskfunc = true ∨
      ¬ (c.usingCall = false ∧ p₀.isBuiltinCall env.builtins c.name.name = true) ∧
        c.usingCall = false) : ∀ a ∈ c.args, L.Arg a := by
  refine hc.all ?_
  by_contra hskips
  obtain ⟨-, hb, htask⟩ := L.skips (Bool.not_eq_false _ ▸ hskips)
  obtain ⟨e₀, he₀, hgrows⟩ := hreached.before
  rcases hkind with hkind | ⟨hkind, hcall⟩
  · rw [hgrows.fn, htask e₀ he₀] at hkind
    cases hkind
  · exact hkind ⟨hcall, hb⟩

/-- **A call that is a statement**, or a whole right side. -/
theorem callStmts_ends (hinner : L.Treats inner) {c : CallSite} {target : Option VarRef}
    (hc : L.Site at'.stack c) (htarget : ∀ v ∈ target, L.lends at'.stack c.name.name v) :
    L.Ends (callStmts env inner at' c target) L.Settled := by
  rw [callStmts_eq]
  refine .get_bind fun p hp => ?_
  by_cases hb : c.usingCall = false ∧ p₀.isBuiltinCall env.builtins c.name.name = true
  · rw [if_pos ((reachesBuiltin_grows hp c).mpr hb)]
    refine (builtinCall_ends hc hb.2 hb.1).bind fun call hcall => .ret ?_
    rcases target with _ | v
    · exact settled_other nofun
    · exact settled_assign hcall
  · rw [if_neg fun h => hb ((reachesBuiltin_grows hp c).mp h)]
    obtain ⟨henters, hlends⟩ := hc.kind.resolve_left hb
    dsimp only
    refine (enterCall_ends henters).bind fun e hreached => ?_
    split
    · next htask => exact taskfuncCall_ends (hc.all_of_reached hreached (.inl htask)) hreached htask
    · split
      · exact .ret (settled_other nofun)
      · next hcall =>
        have hargs := hc.all_of_reached hreached (.inr ⟨hb, by simpa using hcall⟩)
        exact inlineBody_ends hinner hargs (hlends (by simpa using hcall)) hreached htarget

/-- **A call inside an expression.** -/
theorem callExpr_ends (hinner : L.Treats inner) {c : CallSite} (hc : L.Site at'.stack c) :
    L.Ends (callExpr env inner at' c) fun e => e.Meets L.dst := by
  rw [callExpr_eq]
  refine .get_bind fun p hp => ?_
  by_cases hb : c.usingCall = false ∧ p₀.isBuiltinCall env.builtins c.name.name = true
  · rw [if_pos ((reachesBuiltin_grows hp c).mpr hb)]
    exact (builtinCall_ends hc hb.2 hb.1).bind fun call hcall => .ret hcall
  · rw [if_neg fun h => hb ((reachesBuiltin_grows hp c).mp h)]
    obtain ⟨henters, hlends⟩ := hc.kind.resolve_left hb
    refine (enterCall_ends henters).bind fun e hreached => ?_
    -- With the keyword the call would have been a fault, inside an expression.
    have hcall : c.usingCall = false := by
      by_contra hcall
      have huse := (hreached.keyword (by simpa using hcall) (hreached.noTaskfunc rfl)).2
      cases huse
    have hargs := hc.all_of_reached hreached (.inr ⟨hb, hcall⟩)
    refine (inlineBody_ends hinner hargs (hlends hcall) hreached (by simp)).bind fun body hbody => ?_
    split
    · next value hvalue =>
      refine .ret ?_
      unfold resultOf? at hvalue
      split at hvalue
      · split at hvalue
        · cases hvalue
          exact hbody _ List.mem_cons_self _ _ rfl
        · cases hvalue
      · cases hvalue
    · exact .fail (L.fails_error (by rintro _ ⟨⟩))

/-! ### Expressions -/

theorem getterSite_ends {p : Program} (hp : p₀.Grows p) {i : Ident} {es : List Expr} {span : Span}
    {args : List Argument} (hvar : (L.src at'.stack).expr (.var i es span))
    (hes : exprsMeet (L.src at'.stack) es) (hprop : isPropertyRef p i = true)
    (hwritten : args.map Argument.written = es) (hargs : ∀ a ∈ args, L.Arg a) :
    FailsWith L.fails (getterSite env at' p i args span) ∧
      ∀ c, getterSite env at' p i args span = .ok c → L.Site at'.stack c := by
  unfold getterSite
  dsimp only
  split
  · next hknown =>
    rw [hp.isUserFunction] at hknown
    obtain ⟨henters, hlends⟩ :=
      L.getter hvar hes ((Scheme.isPropertyRef_grows hp i).symm.trans hprop) hknown
    refine ⟨.ok _, ?_⟩
    rintro c ⟨⟩
    refine ⟨?_, .inr ⟨henters, fun _ => hwritten ▸ hlends⟩⟩
    intro a ha
    split at ha
    · exact hargs a (List.mem_of_mem_tail ha)
    · exact hargs a ha
  · exact ⟨.error (L.fails_error nofun), fun c h => nomatch h⟩

theorem arguments_written (env : Env) (inner : Expander) (at' : Place) (es : List Expr) :
    (arguments env inner at' es).map Argument.written = es := by
  induction es with
  | nil => simp only [arguments, List.map_nil]
  | cons e es ih => simp only [arguments, List.map_cons, ih]

theorem nameSite {i : Ident} {span : Span} (hvar : (L.src at'.stack).expr (.var i [] span))
    (hname : namesFunction p₀ i = true) : L.Site at'.stack ⟨i, [], false, false, i.span⟩ := by
  refine ⟨?_, .inr ⟨L.name hvar hname, by simp [PassesOnly]⟩⟩
  intro a ha
  split at ha <;> cases ha

mutual

/-- **An expression is expanded within the limits.** -/
theorem expr_ends (hinner : L.Treats inner) :
    ∀ (e : Expr), e.Meets (L.src at'.stack) → L.Ends (expr env inner at' e) fun e => e.Meets L.dst
  | .binary op left right span, .inl h => absurd h L.noAtom
  | .binary op left right span, .inr ⟨h, hl, hr⟩ => by
    simp only [expr]
    refine (expr_ends hinner left hl).bind fun left' hleft => ?_
    refine (expr_ends hinner right hr).bind fun right' hright => .ret ?_
    exact .inr ⟨L.binary h, hleft, hright⟩
  | .unary op operand span, ⟨h, ho⟩ => by
    simp only [expr]
    exact (expr_ends hinner operand ho).bind fun e' he => .ret ⟨L.unary h, he⟩
  | .var i subscripts span, ⟨h, hs⟩ => by
    simp only [expr]
    refine .get_bind fun p hp => ?_
    -- A reference is a property, a function that is called by its name alone, or a variable.
    split
    · next hprop =>
      have hsite := getterSite_ends hp h hs hprop (arguments_written env inner at' subscripts)
        (arguments_ends hinner subscripts hs)
      exact .lift_bind hsite.1 fun c hc => callExpr_ends hinner (hsite.2 c hc)
    · next hprop =>
      rw [Scheme.isPropertyRef_grows hp, Bool.not_eq_true] at hprop
      rw [Scheme.namesFunction_grows hp]
      split
      · next hname =>
        rw [Bool.and_eq_true] at hname
        obtain rfl : subscripts = [] := List.isEmpty_iff.mp hname.1
        exact callExpr_ends hinner (nameSite h hname.2)
      · next hname =>
        refine (exprs_ends hinner subscripts hs).bind fun es hes => .ret ?_
        refine ⟨L.var h hprop ?_ hes.2, hes.1⟩
        rintro rfl
        simpa using hname
  | .call name args isProcedure usingCall span, ⟨h, hargs⟩ => by
    simp only [expr]
    refine callExpr_ends hinner ⟨argumentsTail_ends hinner _ args hargs, ?_⟩
    rw [arguments_written]
    exact L.call h hargs
  | .int v span, h => .ret (L.literal rfl h)
  | .real v span, h => .ret (L.literal rfl h)
  | .str raw span, h => .ret (L.literal rfl h)
  | .bool v span, h => .ret (L.literal rfl h)
  | .raw text span, h => .ret (L.literal rfl h)

theorem exprs_ends (hinner : L.Treats inner) :
    ∀ (es : List Expr), exprsMeet (L.src at'.stack) es →
      L.Ends (exprs env inner at' es) fun es' => exprsMeet L.dst es' ∧ es'.length = es.length
  | [], _ => .ret ⟨trivial, rfl⟩
  | e :: es, ⟨he, hes⟩ => by
    simp only [exprs]
    refine (expr_ends hinner e he).bind fun e' he' => ?_
    refine (exprs_ends hinner es hes).bind fun es' hes' => .ret ⟨⟨he', hes'.1⟩, ?_⟩
    simp [hes'.2]

/-- Expressions as the arguments of a call. -/
theorem arguments_ends (hinner : L.Treats inner) :
    ∀ (es : List Expr), exprsMeet (L.src at'.stack) es →
      ∀ a ∈ arguments env inner at' es, L.Arg a
  | [], _, a, ha => by
    simp only [arguments] at ha
    cases ha
  | e :: es, ⟨he, hes⟩, a, ha => by
    simp only [arguments] at ha
    rcases List.mem_cons.mp ha with rfl | ha
    · exact ⟨expr_ends hinner e he, targetOf?_ends hinner e he⟩
    · exact arguments_ends hinner es hes a ha

/-- Arguments of a call, the first of which may be passed over. -/
theorem argumentsTail_ends (hinner : L.Treats inner) (skip : Bool) :
    ∀ (es : List Expr), argsMeet (L.src at'.stack) skip es →
      ∀ a ∈ if skip then (arguments env inner at' es).tail else arguments env inner at' es, L.Arg a
  | [], _, a, ha => by
    simp only [arguments] at ha
    split at ha <;> cases ha
  | e :: es, ⟨he, hes⟩, a, ha => by
    simp only [arguments, List.tail_cons] at ha
    split at ha
    · exact arguments_ends hinner es hes a ha
    · next hskip =>
      rcases List.mem_cons.mp ha with rfl | ha
      · exact ⟨expr_ends hinner e (he.resolve_left hskip),
          targetOf?_ends hinner e (he.resolve_left hskip)⟩
      · exact arguments_ends hinner es hes a ha

/-- The reference that an expression is. -/
theorem targetOf?_ends (hinner : L.Treats inner) :
    ∀ (e : Expr), e.Meets (L.src at'.stack) →
      ∀ x ∈ targetOf? env inner at' e, L.Ends x fun _ => True
  | .var i subscripts span, ⟨_, hs⟩, x, hx => by
    simp only [targetOf?] at hx
    cases hx
    exact (exprs_ends hinner subscripts hs).bind fun es _ => .ret trivial
  | .binary _ _ _ _, _, x, hx | .unary _ _ _, _, x, hx | .call _ _ _ _ _, _, x, hx
  | .int _ _, _, x, hx | .real _ _, _, x, hx | .str _ _, _, x, hx | .bool _ _, _, x, hx
  | .raw _ _, _, x, hx => by
    simp only [targetOf?] at hx
    cases hx

end

/-! ### Assignments and declarations -/

theorem varRef_ends (hinner : L.Treats inner) {v : VarRef} (hv : v.Meets (L.src at'.stack)) :
    L.Ends (varRef env inner at' v) fun v' =>
      v'.ident = v.ident ∧ exprsMeet L.dst v'.subscripts := by
  unfold varRef
  exact (exprs_ends hinner v.subscripts hv.2).bind fun es hes => .ret ⟨rfl, hes.1⟩

/-- The call that a right side is. -/
theorem siteOfValue?_ends (hinner : L.Treats inner) {p : Program} (hp : p₀.Grows p) {value : Expr}
    (hvalue : value.Meets (L.src at'.stack)) :
    FailsWith L.fails (siteOfValue? env inner at' p value) ∧
      ∀ c, siteOfValue? env inner at' p value = .ok (some c) → L.Site at'.stack c := by
  cases value with
  | call name args isProcedure usingCall span =>
    refine ⟨.ok _, ?_⟩
    rintro c ⟨⟩
    refine ⟨argumentsTail_ends hinner _ args hvalue.2, ?_⟩
    rw [arguments_written]
    exact L.call hvalue.1 hvalue.2
  | var i subscripts span =>
    simp only [siteOfValue?]
    split
    · next hprop =>
      have hsite := getterSite_ends hp hvalue.1 hvalue.2 hprop
        (arguments_written env inner at' subscripts) (arguments_ends hinner subscripts hvalue.2)
      refine ⟨hsite.1.map, ?_⟩
      intro c hc
      obtain ⟨c', hc', hsome⟩ := Except.bind_eq_ok.mp hc
      cases hsome
      exact hsite.2 c hc'
    · rw [Scheme.namesFunction_grows hp]
      split
      · next hname =>
        rw [Bool.and_eq_true] at hname
        obtain rfl : subscripts = [] := List.isEmpty_iff.mp hname.1
        refine ⟨.ok _, ?_⟩
        rintro c ⟨⟩
        exact nameSite hvalue.1 hname.2
      · refine ⟨.ok _, ?_⟩
        rintro c ⟨⟩
  | binary _ _ _ _ | unary _ _ _ | int _ _ | real _ _ | str _ _ | bool _ _ | raw _ _ =>
    refine ⟨.ok _, ?_⟩
    rintro c ⟨⟩

/-- The call that writes a property. -/
theorem setterSite_ends (hinner : L.Treats inner) {p : Program} (hp : p₀.Grows p)
    {target : VarRef} {value : Expr} (span : Span)
    (hstmt : (L.src at'.stack).stmt (.assign target value))
    (htarget : target.Meets (L.src at'.stack)) (hvalue : value.Meets (L.src at'.stack))
    (hprop : isPropertyRef p target.ident = true) :
    FailsWith L.fails (setterSite env at' p target
        (arguments env inner at' (target.subscripts ++ [value])) span) ∧
      ∀ c, setterSite env at' p target
        (arguments env inner at' (target.subscripts ++ [value])) span = .ok c →
          L.Site at'.stack c := by
  have hes : exprsMeet (L.src at'.stack) (target.subscripts ++ [value]) :=
    exprsMeet_append.mpr ⟨htarget.2, hvalue, trivial⟩
  unfold setterSite
  dsimp only
  split
  · next hknown =>
    rw [hp.isUserFunction] at hknown
    obtain ⟨henters, hlends⟩ :=
      L.setter hstmt htarget hvalue ((Scheme.isPropertyRef_grows hp _).symm.trans hprop) hknown
    refine ⟨.ok _, ?_⟩
    rintro c ⟨⟩
    refine ⟨?_, .inr ⟨henters, fun _ => (arguments_written env inner at' _).symm ▸ hlends⟩⟩
    intro a ha
    split at ha
    · exact arguments_ends hinner _ hes a (List.mem_of_mem_tail ha)
    · exact arguments_ends hinner _ hes a ha
  · exact ⟨.error (L.fails_error nofun), fun c h => nomatch h⟩

/-- **An assignment is expanded within the limits.** -/
theorem assignment_ends (hinner : L.Treats inner) {target : VarRef} {value : Expr} {span : Span}
    (hstmt : (L.src at'.stack).stmt (.assign target value))
    (htarget : target.Meets (L.src at'.stack)) (hvalue : value.Meets (L.src at'.stack)) :
    L.Ends (assignment env inner at' target value span) L.Settled := by
  unfold assignment
  refine .get_bind fun p hp => ?_
  split
  · next hprop =>
    have hsite := setterSite_ends hinner hp span hstmt htarget hvalue hprop
    exact .lift_bind hsite.1 fun c hc => callStmts_ends hinner (hsite.2 c hc) (by simp)
  · next hprop =>
    rw [Scheme.isPropertyRef_grows hp, Bool.not_eq_true] at hprop
    have hsite := siteOfValue?_ends hinner hp hvalue
    refine .lift_bind hsite.1 fun c? hc? => ?_
    rcases c? with _ | c
    · refine (varRef_ends hinner htarget).bind fun v _ => ?_
      exact (expr_ends hinner value hvalue).bind fun e he => .ret (settled_assign he)
    · dsimp only
      split
      · refine (varRef_ends hinner htarget).bind fun v _ => ?_
        exact (callExpr_ends hinner (hsite.2 c hc?)).bind fun e he => .ret (settled_assign he)
      · refine (varRef_ends hinner htarget).bind fun v hv => ?_
        refine callStmts_ends hinner (hsite.2 c hc?) ?_
        rintro w ⟨⟩
        obtain ⟨i, es, span'⟩ := v
        obtain ⟨rfl, hes⟩ := hv
        exact L.result hstmt hprop hes _

theorem option_expr_ends (hinner : L.Treats inner) {o : Option Expr}
    (ho : ∀ e ∈ o, e.Meets (L.src at'.stack)) :
    L.Ends (o.mapM (expr env inner at')) fun _ => True :=
  .option fun e he => expr_ends hinner e (ho e he)

theorem declaration_ends (hinner : L.Treats inner) {d : Declaration}
    (hd : d.Meets (L.src at'.stack)) :
    L.Ends (declaration env inner at' d) fun _ => True := by
  obtain ⟨hsize, hparams, hinit⟩ := hd
  unfold declaration
  refine (option_expr_ends hinner hsize).bind fun _ _ => ?_
  refine (exprs_ends hinner d.params hparams).bind fun _ _ => ?_
  refine (Ends.option (R := fun _ => True) fun i hi => ?_).bind fun _ _ => .ret trivial
  have hmeets := hinit i hi
  cases i with
  | single e => exact (expr_ends hinner e hmeets).bind fun _ _ => .ret trivial
  | list es => exact (exprs_ends hinner es hmeets).bind fun _ _ => .ret trivial

/-! ### Statements -/

mutual

theorem stmt_ends (hinner : L.Treats inner) {outer : Place} :
    ∀ (s : Stmt), s.Meets (L.src outer.stack) → L.Ends (stmt env inner outer s) L.Settled
  | ⟨.call c, span, trace⟩, ⟨h, hargs⟩ => by
    simp only [stmt]
    refine callStmts_ends hinner ?_ (by simp)
    refine ⟨argumentsTail_ends hinner _ c.args hargs, ?_⟩
    simp only [siteOf, arguments_written]
    exact L.callStmt h hargs
  | ⟨.assign target value, span, trace⟩, .inl h => absurd h L.noWhole
  | ⟨.assign target value, span, trace⟩, .inr ⟨h, ht, hv⟩ => by
    simp only [stmt]
    exact assignment_ends hinner h ht hv
  | ⟨.declare d, span, trace⟩, ⟨_, hd⟩ => by
    simp only [stmt]
    refine Ends.bind (declaration_ends hinner hd) fun d' _ => ?_
    exact .ret (settled_other nofun)
  | ⟨.whileLoop cond body, span, trace⟩, ⟨_, hc, _, hb⟩ => by
    simp only [stmt]
    refine Ends.bind (expr_ends hinner cond hc) fun _ _ => ?_
    refine Ends.bind (stmts_ends hinner body hb) fun _ _ => ?_
    exact .ret (settled_other nofun)
  | ⟨.forLoop var start stop step downto body, span, trace⟩, ⟨_, hv, h₁, h₂, h₃, _, hb⟩ => by
    simp only [stmt]
    refine Ends.bind (varRef_ends hinner hv) fun _ _ => ?_
    refine Ends.bind (expr_ends hinner start h₁) fun _ _ => ?_
    refine Ends.bind (expr_ends hinner stop h₂) fun _ _ => ?_
    refine Ends.bind (option_expr_ends hinner h₃) fun _ _ => ?_
    refine Ends.bind (stmts_ends hinner body hb) fun _ _ => ?_
    exact .ret (settled_other nofun)
  | ⟨.family name body, span, trace⟩, ⟨_, _, hb⟩ => by
    simp only [stmt]
    refine Ends.bind (stmts_ends hinner body hb) fun _ _ => ?_
    exact .ret (settled_other nofun)
  | ⟨.ifChain bs otherwise, span, trace⟩, ⟨_, hbs, _, ho⟩ => by
    simp only [stmt]
    refine Ends.bind (branches_ends hinner bs hbs) fun _ _ => ?_
    refine Ends.bind (stmts_ends hinner otherwise ho) fun _ _ => ?_
    exact .ret (settled_other nofun)
  | ⟨.select subject cs, span, trace⟩, ⟨_, hs, hcs⟩ => by
    simp only [stmt]
    refine Ends.bind (expr_ends hinner subject hs) fun _ _ => ?_
    refine Ends.bind (cases_ends hinner cs hcs) fun _ _ => ?_
    exact .ret (settled_other nofun)
  | ⟨.property name fs, span, trace⟩, ⟨_, hfs⟩ => by
    simp only [stmt]
    refine Ends.bind (functions_ends hinner fs hfs) fun _ _ => ?_
    exact .ret (settled_other nofun)
  | ⟨.synonym name indices target, span, trace⟩, ⟨_, ht⟩ => by
    simp only [stmt]
    refine Ends.bind (varRef_ends hinner ht) fun _ _ => ?_
    exact .ret (settled_other nofun)

/-- **Statements are expanded within the limits.** -/
theorem stmts_ends (hinner : L.Treats inner) {outer : Place} :
    ∀ (ss : List Stmt), stmtsMeet (L.src outer.stack) ss →
      L.Ends (stmts env inner outer ss) L.Settled
  | [], _ => .ret settled_nil
  | s :: ss, ⟨hs, hss⟩ => by
    simp only [stmts]
    refine (stmt_ends hinner s hs).bind fun first hfirst => ?_
    exact (stmts_ends hinner ss hss).bind fun rest hrest => .ret (hfirst.append hrest)

theorem branches_ends (hinner : L.Treats inner) {outer : Place} :
    ∀ (bs : List Branch), branchesMeet (L.src outer.stack) bs →
      L.Ends (branches env inner outer bs) fun _ => True
  | [], _ => .ret trivial
  | ⟨cond, body⟩ :: rest, ⟨hc, _, hb, hr⟩ => by
    simp only [branches]
    refine (expr_ends hinner cond hc).bind fun _ _ => ?_
    refine (stmts_ends hinner body hb).bind fun _ _ => ?_
    exact (branches_ends hinner rest hr).bind fun _ _ => .ret trivial

theorem cases_ends (hinner : L.Treats inner) {outer : Place} :
    ∀ (cs : List Case), casesMeet (L.src outer.stack) cs →
      L.Ends (cases env inner outer cs) fun _ => True
  | [], _ => .ret trivial
  | ⟨start, stop, body⟩ :: rest, ⟨h₁, h₂, _, hb, hr⟩ => by
    simp only [cases]
    refine (expr_ends hinner start h₁).bind fun _ _ => ?_
    refine (option_expr_ends hinner h₂).bind fun _ _ => ?_
    refine (stmts_ends hinner body hb).bind fun _ _ => ?_
    exact (cases_ends hinner rest hr).bind fun _ _ => .ret trivial

theorem functions_ends (hinner : L.Treats inner) {outer : Place} :
    ∀ (fs : List FunctionDef), functionsMeet (L.src outer.stack) fs →
      L.Ends (functions env inner outer fs) fun _ => True
  | [], _ => .ret trivial
  | ⟨name, params, result, body, isTaskfunc, isOverride, span⟩ :: rest, ⟨_, hb, hr⟩ => by
    simp only [functions]
    refine (stmts_ends hinner body hb).bind fun _ _ => ?_
    exact (functions_ends hinner rest hr).bind fun _ _ => .ret trivial

end

/-! ### Scripts -/

/-- What is done where the copies nest too deep does not matter, so it may be nothing. -/
theorem levels_treats (L : Limits env p₀) (n : Nat) :
    L.Treats (levels env (fun _ _ => pure []) n) := by
  have hguarded : ∀ ex : Expander, L.Treats ex → L.Treats (guarded (fun _ _ => pure []) ex) := by
    intro ex hex at' body hbody
    unfold guarded
    split
    · exact hex at' body hbody
    · exact .ret settled_nil
  induction n with
  | zero =>
    exact hguarded _ fun at' body hbody => stmts_ends (fun _ _ _ => .ret settled_nil) body hbody
  | succ n ih => exact hguarded _ fun at' body hbody => stmts_ends ih body hbody

theorem watched_treats (L : Limits env p₀) : L.Treats (watched env fun _ _ => pure []) :=
  fun at' body hbody => .get_bind fun p _ => levels_treats L (depthBound p) at' body hbody

/-- The table has as many functions as it had at the start, so the loop over it finds them all. -/
theorem standaloneBodies_ends {ex : Expander} (hex : L.Treats ex)
    (h : ∀ e ∈ p₀.functions, isStandalone e.fn = true → stmtsMeet (L.src [e.name]) e.fn.body) :
    ∀ (n i : Nat), i + n = p₀.functions.length → L.Ends (standaloneBodies ex i n) fun _ => True
  | 0, _, _ => .ret trivial
  | n + 1, i, hi => by
    have hrest := standaloneBodies_ends hex h n (i + 1) (by omega)
    simp only [standaloneBodies]
    refine .get_bind fun p hp => ?_
    have hlt : i < p₀.functions.length := by omega
    obtain ⟨e, he, hgrows⟩ := hp.getElem?_after (List.getElem?_eq_getElem hlt)
    rw [he]
    dsimp only
    split
    · next hstand =>
      have hbody := h _ (List.getElem_mem hlt) (hgrows.fn ▸ hstand)
      rw [← hgrows.name, ← hgrows.fn] at hbody
      refine (hex ⟨.function e.name, [e.name], []⟩ _ hbody).bind fun _ _ => ?_
      exact hrest.bind fun _ _ => .ret trivial
    · exact hrest

/-- **A script of callbacks is expanded within the limits**, when its bodies and those of the
functions that can be called with `call` are what the limits ask for. -/
theorem script_fails (L : Limits env p₀) {s : Script}
    (hblocks : ∀ b ∈ s.blocks, ∃ c, b = .callback c ∧ stmtsMeet (L.src []) c.body)
    (hbodies : ∀ e ∈ p₀.functions, isStandalone e.fn = true →
      stmtsMeet (L.src [e.name]) e.fn.body) :
    FailsWith L.fails ((script env s).run p₀) := by
  have hex := watched_treats L
  have hblock : ∀ b ∈ s.blocks,
      L.Ends (block (watched env fun _ _ => pure []) b) fun _ => True := by
    intro b hb
    obtain ⟨c, rfl, hc⟩ := hblocks b hb
    exact (hex ⟨.callback c.isInit, [], []⟩ c.body hc).bind fun _ _ => .ret trivial
  have hends : L.Ends (parts (watched env fun _ _ => pure []) s) fun _ => True := by
    refine (Ends.list fun b hb => hblock b (List.mem_of_mem_take hb)).bind fun _ _ => ?_
    refine .get_bind fun p hp => ?_
    rw [← hp.functions.length_eq]
    refine (standaloneBodies_ends hex hbodies _ 0 (Nat.zero_add _)).bind fun _ _ => ?_
    refine (Ends.list fun b hb => hblock b (List.mem_of_mem_drop hb)).bind fun _ _ => ?_
    exact .ret trivial
  rw [← scriptBy_watched, scriptBy_eq_parts, StateT.run_bind]
  exact (hends p₀ (.refl p₀)).1.bind fun _ _ => .ok _

end Limits

end FlatScript.Inlining
