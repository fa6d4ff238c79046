import FlatScript.Proofs.Inlining.Runs
import FlatScript.Proofs.Rule
import FlatScript.Taskfunc
import Mathlib.Algebra.Group.Nat.Defs

/-!
# How expansion carries rules over

Expansion takes statements that meet one rule to statements that meet another one. What has
to be known for that is little, compared to what expansion does: that the nodes it keeps pass
from one rule to the other, that the calls it keeps are allowed, and that the bodies it copies
meet the first rule again once the arguments stand in the place of the parameters. A
`FlatScript.Inlining.Scheme` collects these facts.

The theorems of this file walk over all of expansion once, for every scheme, ending in
`FlatScript.Inlining.Scheme.stmts_runs`. They compare two expansions that treat the copied
bodies alike, so they also tell when the treatment of copied bodies does not matter.
-/

namespace FlatScript

/-- A statement may stand anywhere, as far as a rule is concerned. -/
def Rule.Accepts (r : Rule) (k : StmtKind) : Prop :=
  r.stmt k ∧ ∀ span trace, r.list [⟨k, span, trace⟩]

/-- Expressions that expansion leaves alone: there are no calls in them, and all variables
have sigils. -/
def Rule.fixed : Rule where
  expr
    | .var i _ _ => i.sigil.isSome = true
    | .call _ _ _ _ _ => False
    | _ => True
  stmt _ := True
  list _ := True
  skips _ := false
  atom _ _ _ := False

namespace Inlining

/-! ### Calls that are kept -/

/-- **What is recorded of a call with the keyword `call`** that is kept in a block. -/
structure Recorded (p : Program) (t : Top) (name : String) : Prop where
  notInit : t.isInit = false
  known : p.isUserFunction name = true
  explicit : p.calls.isExplicit name = true
  edge : (t.caller, name) ∈ p.calls.calls

theorem Recorded.grows {p p' : Program} {t : Top} {name : String} (h : Recorded p t name)
    (hp : p.Grows p') : Recorded p' t name :=
  ⟨h.notInit, (hp.isUserFunction name).trans h.known, hp.isExplicit h.explicit, hp.calls h.edge⟩

/-! ### The code of a call of a task function -/

/-- The stores of values on the stack, from the `i`-th of `count` on. -/
def storesOf (trace : List Span) (count : Nat) (span : Span) : Nat → List (Option Expr) → List Stmt
  | _, [] => []
  | i, none :: rest => storesOf trace count span (i + 1) rest
  | i, some value :: rest =>
    ⟨.assign (argumentSlot count i span) value, span, trace⟩ ::
      storesOf trace count span (i + 1) rest

/-- The loads of values from the stack, from the `i`-th of `count` on. -/
def loadsOf (trace : List Span) (count : Nat) (span : Span) :
    Nat → List (Option VarRef) → List Stmt
  | _, [] => []
  | i, none :: rest => loadsOf trace count span (i + 1) rest
  | i, some target :: rest =>
    ⟨.assign target (argumentSlot count i span).toExpr, span, trace⟩ ::
      loadsOf trace count span (i + 1) rest

/-- How the values on the stack reach the parameters of a function, and the result if it is
wanted. -/
def passedKinds (f : FunctionDef) (captured : Bool) : List ParamKind :=
  f.params.map Param.kind ++ if captured then [.out] else []

/-- The number of values that a task function finds on the stack. -/
def slotCount (f : FunctionDef) : Nat := f.params.length + if f.result.isSome then 1 else 0

/-- **What is passed to a task function and back**: a value for what is copied in, and
targets for some of what is copied out. -/
structure Passed (f : FunctionDef) (captured : Bool) (values : List (Option Expr))
    (targets : List (Option VarRef)) : Prop where
  result : captured = true → f.result.isSome = true
  values : List.Forall₂ (fun k v => Option.isSome v = ParamKind.copiesIn k)
    (passedKinds f captured) values
  targets : List.Forall₂ (fun k v => Option.isSome v = true → ParamKind.copiesOut k = true)
    (passedKinds f captured) targets
  bound : slotCount f < 2 ^ 31

/-- Passing uses no more values than there are. -/
theorem Passed.length_le {f : FunctionDef} {captured : Bool}
    {values : List (Option Expr)} {targets : List (Option VarRef)}
    (h : Passed f captured values targets) :
    values.length ≤ slotCount f ∧ targets.length ≤ slotCount f := by
  have hkinds : (passedKinds f captured).length ≤ slotCount f := by
    cases captured with
    | false => simp [passedKinds, slotCount]
    | true => simp [passedKinds, slotCount, h.result rfl]
  exact ⟨h.values.length_eq ▸ hkinds, h.targets.length_eq ▸ hkinds⟩

/-- The code of a call of a task function. -/
def marshalled (f : FunctionDef) (name : Ident) (span : Span) (trace : List Span)
    (values : List (Option Expr)) (targets : List (Option VarRef)) : List Stmt :=
  storesOf trace (slotCount f) span 0 values ++
    [⟨.call ⟨name, [], true, true, span⟩, span, trace⟩] ++
    loadsOf trace (slotCount f) span 0 targets

/-! ### Schemes -/

/-- **What has to be known to follow expansion**, started on the program `p₀`, from the rules
`src` to the rules `dst`, one for each block. -/
structure Scheme (env : Env) (p₀ : Program) where
  /-- The rule of what is expanded. -/
  src : Top → Rule
  /-- The rule of the expanded statements, when the program has come to `p`. -/
  dst : Program → Top → Rule
  /-- What is asked of the name of a call, of whether it stands as a statement, and of whether it
  says so. -/
  site : Top → Ident → Bool → Bool → Prop
  /-- The places that are considered. -/
  here : Top → List String → Prop
  /-- What is known of the statements that are copied to a place. -/
  ready : Place → List Stmt → Program → Prop
  -- The rules among each other.
  mono : ∀ {p p' t}, p.Grows p' → (dst p t).Implies (dst p' t)
  skips : ∀ {t name}, (src t).skips name = false
  back : ∀ {p t} {e : Expr}, e.Meets (dst p t) → e.Meets (src t)
  raw : ∀ {p t name} {e : Expr}, Builtins.keepsFirstArgument name = true → e.Meets (src t) →
    (dst p t).skips name = true ∨ e.Meets (dst p t)
  -- Expressions.
  atom : ∀ {p t op left right}, (src t).atom op left right →
    (dst p t).atom op left right ∧ left.Meets .fixed ∧ right.Meets .fixed
  binary : ∀ {p t op left right span left' right'}, (src t).expr (.binary op left right span) →
    (dst p t).expr (.binary op left' right' span)
  unary : ∀ {p t op e span e'}, (src t).expr (.unary op e span) →
    (dst p t).expr (.unary op e' span)
  var : ∀ {p t i es span es'}, p₀.Grows p → (src t).expr (.var i es span) →
    List.Forall₂ (fun e e' => e.Meets .fixed → e' = e) es es' → (dst p t).expr (.var i es' span)
  literal : ∀ {p t} {e : Expr}, e.isLiteral = true → (src t).expr e → (dst p t).expr e
  builtin : ∀ {p t name isProcedure}, p₀.Grows p → site t name false isProcedure →
    p.isBuiltinCall env.builtins name.name = true → ∀ args span,
    (dst p t).expr (.call name args isProcedure false span)
  builtinStmt : ∀ {p t name isProcedure}, p₀.Grows p → site t name true isProcedure →
    p.isBuiltinCall env.builtins name.name = true → ∀ args span,
    (dst p t).Accepts (.call ⟨name, args, isProcedure, false, span⟩)
  -- The names of calls.
  siteOfCall : ∀ {t name args isProcedure usingCall span},
    (src t).expr (.call name args isProcedure usingCall span) → site t name false isProcedure
  siteOfStmt : ∀ {t c}, (src t).stmt (.call c) → site t c.name true c.isProcedure
  siteOfName : ∀ {t i span}, (src t).expr (.var i [] span) → namesFunction p₀ i = true →
    site t i false false
  siteOfGetter : ∀ {t i es span}, (src t).expr (.var i es span) → isPropertyRef p₀ i = true →
    p₀.isUserFunction (i.name ++ ".get") = true →
    site t (.fixed (i.name ++ ".get") i.span) false false
  siteOfSetter : ∀ {t i es span}, (src t).expr (.var i es span) → isPropertyRef p₀ i = true →
    p₀.isUserFunction (i.name ++ ".set") = true →
    site t (.fixed (i.name ++ ".set") i.span) true true
  -- Statements.
  nil : ∀ {p t}, (dst p t).list []
  append : ∀ {p t ss ss'}, (dst p t).list ss → (dst p t).list ss' → (dst p t).list (ss ++ ss')
  assign : ∀ {p t target value}, target.Meets (dst p t) → value.Meets (dst p t) →
    (dst p t).Accepts (.assign target value)
  reshape : ∀ {p t k k'}, k.Reshaped k' → (src t).stmt k → (dst p t).Accepts k'
  kept : ∀ {p t e name isProcedure}, p₀.Grows p → site t name true isProcedure →
    Recorded p t name.name → p.function? name.name = some e → e.fn.isTaskfunc = false →
    e.fn.params = [] → ∀ span, (dst p t).Accepts (.call ⟨name, [], isProcedure, true, span⟩)
  noWhole : ∀ {t target value}, ¬ (src t).whole target value
  stored : ∀ {p t count i span value}, i < count → count < 2 ^ 31 → value.Meets (dst p t) →
    ∀ trace, Stmt.Meets (dst p t) ⟨.assign (argumentSlot count i span) value, span, trace⟩
  loaded : ∀ {p t count i span target}, i < count → count < 2 ^ 31 → target.Meets (dst p t) →
    ∀ trace, Stmt.Meets (dst p t) ⟨.assign target (argumentSlot count i span).toExpr, span, trace⟩
  single : ∀ {p t target value span trace},
    bodyMeets (dst p t) [⟨.assign target value, span, trace⟩] → value.Meets (dst p t)
  taskfunc : ∀ {p t e name standing isProcedure captured values targets}, p₀.Grows p →
    site t name standing isProcedure → Recorded p t name.name → p.function? name.name = some e →
    e.fn.isTaskfunc = true → Passed e.fn captured values targets →
    (∀ v, some v ∈ values → v.Meets (dst p t)) →
    (∀ v, some v ∈ targets → v.Meets (dst p t)) → ∀ span trace,
    (dst p t).stmt (.call ⟨name, [], true, true, span⟩) ∧
      (dst p t).list (marshalled e.fn name span trace values targets)
  -- Copies.
  readyNil : ∀ {p t stack trace name e}, p₀.Grows p → here t stack →
    p.function? name = some e → name ∉ stack → ready ⟨t, stack, trace⟩ [] p
  readyDecls : ∀ {p t stack trace name e}, p₀.Grows p → here t stack →
    p.function? name = some e → e.fn.isTaskfunc = false → name ∉ stack → t.isInit = true →
    ready ⟨t, stack, trace⟩ (e.globals ++ e.locals) (p.drained name)
  readyBody : ∀ {p t stack trace name e s span body}, p₀.Grows p → here t stack →
    p.function? name = some e → e.fn.isTaskfunc = false → name ∉ stack →
    (∀ b ∈ s, b.1 ∈ Taskfunc.slotNames e.fn ∧ Expr.Meets (src t) b.2) →
    (∀ param ∈ e.fn.params, (Substitution.find? s param.name.name).isSome = true) →
    Substitution.stmts env s (stmtsCopiedTo span e.fn.body) = .ok body →
    ready ⟨t, stack ++ [name], trace⟩ body p

namespace Scheme

variable {env : Env} {p₀ : Program} (S : Scheme env p₀)

/-! ### Arguments and calls side by side -/

/-- Two arguments are the same, and expand to the same from `q` on. -/
structure Arg (t : Top) (q : Program) (a a' : Argument) : Prop where
  written : a'.written = a.written
  source : a.written.Meets (S.src t)
  value : ∀ p, q.Grows p → Runs a.value a'.value p fun p' e => e.Meets (S.dst p' t)
  target : Option.Rel
    (fun x x' => ∀ p, q.Grows p → Runs x x' p fun p' v => v.Meets (S.dst p' t))
    a.target? a'.target?

/-- Two call sites are the same, and their arguments expand to the same from `q` on. -/
structure Site (t : Top) (standing : Bool) (q : Program) (c c' : CallSite) : Prop where
  name : c'.name = c.name
  isProcedure : c'.isProcedure = c.isProcedure
  usingCall : c'.usingCall = c.usingCall
  span : c'.span = c.span
  args : List.Forall₂ (S.Arg t q) c.args c'.args
  site : S.site t c.name standing c.isProcedure

variable {S} {t : Top} {standing : Bool} {q q' : Program}

theorem Arg.grows {a a' : Argument} (h : S.Arg t q a a') (hq : q.Grows q') :
    S.Arg t q' a a' := by
  refine ⟨h.written, h.source, fun p hp => h.value p (hq.trans hp), ?_⟩
  rcases a with ⟨_, _, _ | x⟩ <;> rcases a' with ⟨_, _, _ | x'⟩
  · exact .none
  · nomatch h.target
  · nomatch h.target
  · cases h.target with
    | some hx => exact .some fun p hp => hx p (hq.trans hp)

theorem forall₂_arg_grows {as as' : List Argument} (h : List.Forall₂ (S.Arg t q) as as')
    (hq : q.Grows q') : List.Forall₂ (S.Arg t q') as as' :=
  h.imp fun _ _ ha => ha.grows hq

theorem Site.grows {c c' : CallSite} (h : S.Site t standing q c c') (hq : q.Grows q') :
    S.Site t standing q' c c' :=
  ⟨h.name, h.isProcedure, h.usingCall, h.span, forall₂_arg_grows h.args hq, h.site⟩

/-- A reference that is expanded already, as an argument. -/
theorem arg_captured {v : VarRef} (hv : v.Meets (S.dst q t)) :
    S.Arg t q ⟨v.toExpr, pure v.toExpr, some (pure v)⟩
      ⟨v.toExpr, pure v.toExpr, some (pure v)⟩ where
  written := rfl
  source := S.back hv
  value _ hp := .ret (Expr.Meets.mono (S.mono hp) hv)
  target := .some fun _ hp => .ret (Expr.Meets.mono (S.mono hp) hv)

end Scheme

end Inlining

end FlatScript
