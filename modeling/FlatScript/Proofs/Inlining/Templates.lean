import FlatScript.Proofs.Inlining.Tracks

/-!
# Expressions over indices

A property may stand for a variable whose subscripts are expressions over indices. Where it is read,
the arguments take the places of the indices. They do so twice: the compiler puts them into the body
of a function, some of them expanded already, and the same subscripts could be written out by hand.
This file shows that both expand to the same. An index need not be a value: where it has subscripts
or a field, or is called, its argument gives its name to what stands there.

* `FlatScript.Expr.fill` puts arguments in the places of indices, as one would by hand.
* `FlatScript.Inlining.template` is what is asked of the subscripts: the names in them do not get
  into each other's way.
* `FlatScript.Inlining.Filling.expr` is the statement on expressions.
-/

namespace FlatScript

/-! ### Arguments in the places of indices -/

/-- How a name is written: its sigil, and what comes behind it. -/
abbrev Spelling := Option Sigil × String

/-- How an identifier is written. -/
def Ident.spelling (i : Ident) : Spelling := (i.sigil, i.name)

/-- What stands in the places of indices. -/
abbrev Filler := List (Spelling × Expr)

/-- The argument that stands in the place of a reference, if it is an index. -/
def indexed? (σ : Filler) (i : Ident) (es : List Expr) : Option Expr :=
  if es.isEmpty then σ.lookup i.spelling else none

/-- **A name with an argument in the place of its first part**, if that is an index. Here the index
has subscripts or a field, or it is called, so its argument has to be a name. -/
def renamed (σ : Filler) (i : Ident) : Ident :=
  match σ.lookup (i.sigil, Name.firstPart i.name) with
  | some (.var rep [] _) => ⟨rep.sigil, rep.name ++ Name.lastPart i.name, i.span, true⟩
  | _ => i

mutual

/-- **An expression with arguments in the place of indices.** -/
def Expr.fill (σ : Filler) : Expr → Expr
  | .binary op left right span => .binary op (left.fill σ) (right.fill σ) span
  | .unary op operand span => .unary op (operand.fill σ) span
  | .var i es span => (indexed? σ i es).getD (.var (renamed σ i) (exprsFill σ es) span)
  | .call name args isProcedure usingCall span =>
    .call (renamed σ name) (exprsFill σ args) isProcedure usingCall span
  | .int v span => .int v span
  | .real v span => .real v span
  | .str raw span => .str raw span
  | .bool v span => .bool v span
  | .raw text span => .raw text span

/-- Expressions with arguments in the places of indices. -/
def exprsFill (σ : Filler) : List Expr → List Expr
  | [] => []
  | e :: es => e.fill σ :: exprsFill σ es

end

/-- A variable with arguments in the places of the indices in its subscripts. -/
def VarRef.fill (σ : Filler) (v : VarRef) : VarRef :=
  { v with subscripts := exprsFill σ v.subscripts }

/-! ### Names that do not get into each other's way -/

/-- Whether a reference is an index. -/
def isIndex (names : List Spelling) (i : Ident) (es : List Expr) : Bool :=
  es.isEmpty && names.contains i.spelling

/-- The rule that no reference and no call begins with one of some names. -/
def avoiding (names : List String) : Rule where
  expr
    | .var i _ _ => Name.firstPart i.name ∉ names
    | .call name _ _ _ _ => Name.firstPart name.name ∉ names
    | _ => True
  stmt _ := True
  list _ := True
  skips _ := false
  atom _ _ _ := False

namespace Inlining

/-- The names that the functions of a property have for the value that is read, and for the one that
is written. -/
def invented : List String := ["result", "value_to_set"]

theorem firstPart_invented : ∀ n ∈ invented, Name.firstPart n = n := by decide

/-- **What a call may pass by name**: indices, and references without loose indices. -/
def Lends (names : List Spelling) (loose : List String) (args : List Expr) : Prop :=
  ∀ a ∈ args, ∀ i es span, a = .var i es span → isIndex names i es = true ∨ a.Meets (avoiding loose)

/-- What is asked of the arguments of a call. A built-in function may take its first argument as it
is written, and then it takes no loose index. -/
def Takes (env : Env) (p : Program) (names : List Spelling) (loose : List String) (name : String)
    (usingCall : Bool) (args : List Expr) : Prop :=
  if (!usingCall && p.isBuiltinCall env.builtins name) = true then
    Builtins.keepsFirstArgument name = true → ∀ a ∈ args.head?, a.Meets (avoiding loose)
  else Lends names loose args

/-- **The name that a name over indices stands for**: itself, or the argument with the field behind
it. The arguments of the indices that names begin with are the `handles`; the one of a function that
is called has no sigil. -/
inductive Named (names : List Spelling) (handles : List (Spelling × Ident)) (isCalled : Bool)
    (i : Ident) : Ident → Prop
  | own (h : Name.firstPart i.name ∉ names.map Prod.snd ++ invented) :
    Named names handles isCalled i i
  | lent {rep : Ident} (h : handles.lookup (i.sigil, Name.firstPart i.name) = some rep)
    (hrep : isCalled = true → rep.sigil = none) :
    Named names handles isCalled i ⟨rep.sigil, rep.name ++ Name.lastPart i.name, i.span, true⟩

/-- **The rule of expressions over indices.** A reference is an index, or begins with one that stands
for a name, or has a name of its own, which is none of those that the functions of the property have
for values. -/
def template (env : Env) (p : Program) (names : List Spelling) (loose : List String)
    (handles : List (Spelling × Ident)) : Rule where
  expr
    | .var i es _ => isIndex names i es = true ∨ ∃ j, Named names handles false i j ∧
        (isPropertyRef p j = true →
          Takes env p names loose (Ident.fixed (j.name ++ ".get") j.span).name false es)
    | .call name args _ usingCall _ => ∃ j, Named names handles true name j ∧
        Takes env p names loose j.name usingCall args
    | _ => True
  stmt _ := True
  list _ := True
  skips _ := false
  atom _ _ _ := False

end Inlining

/-! ### Two ways to fill the same expression -/

section Fill

variable {σ σ' : Filler} {loose : List String}

@[simp] theorem exprsFill_nil (σ : Filler) : exprsFill σ [] = [] := rfl

theorem renamed_congr (h : ∀ n, n.2 ∉ loose → σ.lookup n = σ'.lookup n) {i : Ident}
    (hi : Name.firstPart i.name ∉ loose) : renamed σ i = renamed σ' i := by
  rw [renamed, renamed, h _ hi]

mutual

/-- Where two fillers agree on all names that are not avoided, they fill alike. -/
theorem Expr.fill_congr (hnames : ∀ n ∈ loose, Name.firstPart n = n)
    (h : ∀ n, n.2 ∉ loose → σ.lookup n = σ'.lookup n) :
    ∀ e : Expr, e.Meets (avoiding loose) → e.fill σ = e.fill σ'
  | .binary op left right span, .inr ⟨_, hl, hr⟩ => by
    rw [Expr.fill, Expr.fill, left.fill_congr hnames h hl, right.fill_congr hnames h hr]
  | .unary op operand span, ⟨_, ho⟩ => by
    rw [Expr.fill, Expr.fill, operand.fill_congr hnames h ho]
  | .var i es span, ⟨hi, hs⟩ => by
    have hmem : i.name ∉ loose := fun hmem => hi (by rw [hnames _ hmem]; exact hmem)
    rw [Expr.fill, Expr.fill, indexed?, indexed?, h i.spelling hmem, renamed_congr h hi,
      exprsFill_congr hnames h es hs]
  | .call name args isProcedure usingCall span, ⟨hi, ha⟩ => by
    rw [Expr.fill, Expr.fill, renamed_congr h hi, exprsFill_congr hnames h args (argsMeet_false.mp ha)]
  | .int _ _, _ | .real _ _, _ | .str _ _, _ | .bool _ _, _ | .raw _ _, _ => rfl

theorem exprsFill_congr (hnames : ∀ n ∈ loose, Name.firstPart n = n)
    (h : ∀ n, n.2 ∉ loose → σ.lookup n = σ'.lookup n) :
    ∀ es : List Expr, exprsMeet (avoiding loose) es → exprsFill σ es = exprsFill σ' es
  | [], _ => rfl
  | e :: es, ⟨he, hes⟩ => by
    rw [exprsFill, exprsFill, e.fill_congr hnames h he, exprsFill_congr hnames h es hes]

end

end Fill

/-! ### Filled expressions, expanded -/

namespace Inlining

variable {env : Env} {p₀ : Program} {k m : Nat} {at₁ at₂ : Place} {names : List Spelling}
  {loose : List String} {handles : List (Spelling × Ident)} {σ σ' : Filler}

/-- An expression as an argument of a call. -/
def argument (env : Env) (inner : Expander) (at' : Place) (e : Expr) : Argument :=
  ⟨e, expr env inner at' e, targetOf? env inner at' e⟩

theorem arguments_cons (env : Env) (inner : Expander) (at' : Place) (e : Expr) (es : List Expr) :
    arguments env inner at' (e :: es) = argument env inner at' e :: arguments env inner at' es := by
  rw [arguments, argument]

/-- **Two arguments for the same index come to the same**, expanded or passed to a function. -/
structure Fits (env : Env) (p₀ : Program) (k m : Nat) (at₁ at₂ : Place) (v v' : Expr) : Prop where
  value : Tracks env p₀ (expr env (below env k) at₁ v) (expr env (below env m) at₂ v') Expr.Matches
  passed : Tracks env p₀ (passed (argument env (below env k) at₁ v))
    (passed (argument env (below env m) at₂ v')) Expr.Matches

/-- The arguments of the indices that names begin with. -/
def Lent (handles : List (Spelling × Ident)) (σ : Filler) : Prop :=
  ∀ n rep, handles.lookup n = some rep → ∃ span, σ.lookup n = some (.var rep [] span)

/-- **Two fillings of the same indices**, where expressions are expanded at two places. The
arguments of loose indices may differ, and those of indices that names begin with are names. -/
structure Filling (env : Env) (p₀ : Program) (k m : Nat) (at₁ at₂ : Place) (names : List Spelling)
    (loose : List String) (handles : List (Spelling × Ident)) (σ σ' : Filler) : Prop where
  orderly : Orderly p₀
  level : k ≤ m
  near : Nearer env at₁ at₂
  undotted : ∀ n ∈ names, Name.firstPart n.2 = n.2
  subset : loose ⊆ names.map Prod.snd
  fits : ∀ n ∈ names, ∃ v v', σ.lookup n = some v ∧ σ'.lookup n = some v' ∧
    Fits env p₀ k m at₁ at₂ v v'
  outside : ∀ n, n ∉ names → σ.lookup n = none ∧ σ'.lookup n = none
  same : ∀ n, n.2 ∉ loose → σ.lookup n = σ'.lookup n
  lent : Lent handles σ ∧ Lent handles σ'

theorem mem_of_isIndex {i : Ident} {es : List Expr} (h : isIndex names i es = true) :
    i.spelling ∈ names := by
  simp only [isIndex, Bool.and_eq_true, List.contains_iff_mem] at h
  exact h.2

/-- An index is filled. -/
theorem fill_index {i : Ident} {es : List Expr} {v : Expr} (h : isIndex names i es = true)
    (hv : σ.lookup i.spelling = some v) (span : Span) : (Expr.var i es span).fill σ = v := by
  simp only [isIndex, Bool.and_eq_true] at h
  simp [Expr.fill, indexed?, h.1, hv]

/-- **Names over indices are filled** as they stand for. -/
theorem renamed_of_named (houtside : ∀ n, n ∉ names → σ.lookup n = none) (hlent : Lent handles σ)
    {isCalled : Bool} {i j : Ident} (h : Named names handles isCalled i j) : renamed σ i = j := by
  cases h with
  | own h =>
    have hnone : σ.lookup (i.sigil, Name.firstPart i.name) = none :=
      houtside _ fun hmem => h (List.mem_append_left _ (List.mem_map_of_mem hmem))
    rw [renamed, hnone]
  | lent h _ =>
    obtain ⟨span, hlookup⟩ := hlent _ _ h
    rw [renamed, hlookup]

/-- A reference that is no index keeps its subscripts. -/
theorem fill_named (houtside : ∀ n, n ∉ names → σ.lookup n = none) (hlent : Lent handles σ)
    {i j : Ident} {es : List Expr} (hindex : ¬isIndex names i es = true)
    (h : Named names handles false i j) (span : Span) :
    (Expr.var i es span).fill σ = .var j (exprsFill σ es) span := by
  have hnone : indexed? σ i es = none := by
    unfold indexed?
    split
    · next hempty =>
      refine houtside _ fun hmem => hindex ?_
      rw [isIndex, hempty, Bool.true_and, List.contains_iff_mem]
      exact hmem
    · rfl
  rw [Expr.fill, hnone, renamed_of_named houtside hlent h, Option.getD_none]

theorem exprsFill_isEmpty (σ : Filler) (es : List Expr) :
    (exprsFill σ es).isEmpty = es.isEmpty := by
  cases es <;> rfl

namespace Filling

variable (F : Filling env p₀ k m at₁ at₂ names loose handles σ σ')
include F

/-- What avoids the loose indices is filled alike. -/
theorem fill_eq {e : Expr} (h : e.Meets (avoiding loose)) : e.fill σ = e.fill σ' := by
  refine e.fill_congr (fun n hn => ?_) F.same h
  obtain ⟨n, hmem, rfl⟩ := List.mem_map.mp (F.subset hn)
  exact F.undotted n hmem

/-- An argument may be passed to a function if its value comes to the same. -/
theorem passed {e : Expr} (h : ∀ i es span, e = .var i es span →
      isIndex names i es = true ∨ e.Meets (avoiding loose))
    (hvalue : Tracks env p₀ (expr env (below env k) at₁ (e.fill σ))
      (expr env (below env m) at₂ (e.fill σ')) Expr.Matches) :
    Tracks env p₀ (Inlining.passed (argument env (below env k) at₁ (e.fill σ)))
      (Inlining.passed (argument env (below env m) at₂ (e.fill σ'))) Expr.Matches := by
  cases e with
  | var i es span =>
    by_cases hindex : isIndex names i es = true
    · obtain ⟨v, v', hv, hv', hfits⟩ := F.fits i.spelling (mem_of_isIndex hindex)
      rw [fill_index hindex hv, fill_index hindex hv']
      exact hfits.passed
    · -- A reference is passed as it is written, so both have to be the same.
      rw [F.fill_eq ((h i es span rfl).resolve_left hindex)] at hvalue ⊢
      cases hfill : (Expr.var i es span).fill σ' with
      | var j fs span' => exact .ret (.refl _)
      | _ =>
        rw [hfill] at hvalue
        exact hvalue
  | _ => exact hvalue

/-- Arguments may be passed to a function if their values come to the same. -/
theorem passed_all : ∀ {es : List Expr}, Lends names loose es →
    List.Forall₂ (fun a a' => Tracks env p₀ a.value a'.value Expr.Matches)
      (arguments env (below env k) at₁ (exprsFill σ es))
      (arguments env (below env m) at₂ (exprsFill σ' es)) →
    List.Forall₂ (fun a a' => Tracks env p₀ (Inlining.passed a) (Inlining.passed a') Expr.Matches)
      (arguments env (below env k) at₁ (exprsFill σ es))
      (arguments env (below env m) at₂ (exprsFill σ' es))
  | [], _, _ => by
    simp only [exprsFill, arguments]
    exact .nil
  | e :: es, hlends, hvalues => by
    simp only [exprsFill, arguments_cons] at hvalues ⊢
    cases hvalues with
    | cons hvalue hrest =>
      refine .cons (F.passed (hlends e (by simp)) hvalue) ?_
      exact passed_all (fun a ha => hlends a (by simp [ha])) hrest

/-- The arguments of a built-in function. A first one that stays as it is written is the same. -/
theorem builtinArgs {name : String} {args : List Expr}
    (hfirst : Builtins.keepsFirstArgument name = true →
      ∀ a ∈ args.head?, a.Meets (avoiding loose))
    (hvalues : List.Forall₂ (fun a a' => Tracks env p₀ a.value a'.value Expr.Matches)
      (arguments env (below env k) at₁ (exprsFill σ args))
      (arguments env (below env m) at₂ (exprsFill σ' args))) :
    Tracks env p₀
      (Inlining.builtinArgs name (arguments env (below env k) at₁ (exprsFill σ args)))
      (Inlining.builtinArgs name (arguments env (below env m) at₂ (exprsFill σ' args)))
      ExprsMatch := by
  cases args with
  | nil =>
    simp only [exprsFill, arguments]
    exact .ret .nil
  | cons e es =>
    simp only [exprsFill, arguments_cons] at hvalues ⊢
    cases hvalues with
    | cons hvalue hrest =>
      simp only [Inlining.builtinArgs]
      split
      · next hkeep =>
        rw [pure_bind, pure_bind]
        refine (mapM_value_tracks hrest).bind fun es es' hes => .ret (.cons ?_ hes)
        rw [argument, argument, F.fill_eq (hfirst hkeep e rfl)]
        exact .refl _
      · exact hvalue.bind fun e e' he => (mapM_value_tracks hrest).bind fun es es' hes =>
          .ret (.cons he hes)

/-- **A call whose arguments come to the same.** -/
theorem site {name : Ident} {args : List Expr} {isProcedure usingCall : Bool} {span : Span}
    (htakes : Takes env p₀ names loose name.name usingCall args)
    (hvalues : List.Forall₂ (fun a a' => Tracks env p₀ a.value a'.value Expr.Matches)
      (arguments env (below env k) at₁ (exprsFill σ args))
      (arguments env (below env m) at₂ (exprsFill σ' args))) :
    Tracks env p₀
      (callExpr env (below env k) at₁ ⟨name, arguments env (below env k) at₁ (exprsFill σ args),
        isProcedure, usingCall, span⟩)
      (callExpr env (below env m) at₂ ⟨name, arguments env (below env m) at₂ (exprsFill σ' args),
        isProcedure, usingCall, span⟩) Expr.Matches := by
  unfold Takes at htakes
  split at htakes
  · next hbuiltin =>
    rw [callExpr_eq, callExpr_eq]
    refine .get_bind fun p q hp hq => ?_
    simp only [reachesBuiltin, hp.isBuiltinCall, hq.isBuiltinCall, hbuiltin, if_true]
    refine Tracks.bind ?_ fun c c' hc => .ret (Call.Matches.toExpr hc)
    exact builtinCall_tracks F.near (.refl name) rfl rfl (F.builtinArgs htakes hvalues)
  · next hbuiltin =>
    exact callExpr_tracks F.orderly F.level F.near rfl (.refl name) rfl
      (Bool.eq_false_of_not_eq_true hbuiltin)
      (F.passed_all htakes hvalues)

omit F

mutual

/-- **A filled expression comes to the same** with both fillings. -/
theorem expr (F : Filling env p₀ k m at₁ at₂ names loose handles σ σ') :
    ∀ e : Expr, e.Meets (template env p₀ names loose handles) →
    Tracks env p₀ (Inlining.expr env (below env k) at₁ (e.fill σ))
      (Inlining.expr env (below env m) at₂ (e.fill σ')) Expr.Matches
  | .binary op left right span, .inr ⟨_, hl, hr⟩ => by
    simp only [Expr.fill, Inlining.expr]
    exact (F.expr left hl).bind fun l l' hl => (F.expr right hr).bind fun r r' hr =>
      .ret (.binary hl hr)
  | .unary op operand span, ⟨_, ho⟩ => by
    simp only [Expr.fill, Inlining.expr]
    exact (F.expr operand ho).bind fun o o' ho => .ret (.unary ho)
  | .var i es span, ⟨hname, hs⟩ => by
    have hvalues := F.values es hs
    have hexprs := F.exprs es hs
    by_cases hindex : isIndex names i es = true
    · obtain ⟨v, v', hv, hv', hfits⟩ := F.fits i.spelling (mem_of_isIndex hindex)
      rw [fill_index hindex hv, fill_index hindex hv']
      exact hfits.value
    · -- Both fillings leave the same name, so both leave a property or neither does.
      obtain ⟨j, hj, hproperty⟩ := hname.resolve_left hindex
      rw [fill_named (fun n hn => (F.outside n hn).1) F.lent.1 hindex hj,
        fill_named (fun n hn => (F.outside n hn).2) F.lent.2 hindex hj]
      cases es with
      | nil =>
        rw [exprsFill_nil, exprsFill_nil]
        exact expr_tracks_of_matches F.orderly F.level F.near (.refl _)
      | cons e es =>
        simp only [Inlining.expr]
        refine .get_bind fun p q hp hq => ?_
        rw [hp.isPropertyRef, hq.isPropertyRef, exprsFill_isEmpty, exprsFill_isEmpty]
        simp only [List.isEmpty_cons, Bool.false_and, Bool.false_eq_true, if_false]
        split
        · next hprop =>
          unfold getterSite
          dsimp only
          rw [hp.isUserFunction, hq.isUserFunction]
          split
          · exact F.site (hproperty hprop) hvalues
          · exact .fail
        · exact hexprs.bind fun es es' hes => .ret (.var (.refl j) hes)
  | .call name args isProcedure usingCall span, ⟨⟨j, hj, htakes⟩, ha⟩ => by
    simp only [Expr.fill, Inlining.expr, renamed_of_named (fun n hn => (F.outside n hn).1) F.lent.1 hj,
      renamed_of_named (fun n hn => (F.outside n hn).2) F.lent.2 hj]
    exact F.site htakes (F.values args (argsMeet_false.mp ha))
  | .int _ _, _ | .real _ _, _ | .str _ _, _ | .bool _ _, _ | .raw _ _, _ => by
    simp only [Expr.fill, Inlining.expr]
    exact .ret (.refl _)

theorem exprs (F : Filling env p₀ k m at₁ at₂ names loose handles σ σ') :
    ∀ es : List Expr, exprsMeet (template env p₀ names loose handles) es →
    Tracks env p₀ (Inlining.exprs env (below env k) at₁ (exprsFill σ es))
      (Inlining.exprs env (below env m) at₂ (exprsFill σ' es)) ExprsMatch
  | [], _ => .ret .nil
  | e :: es, ⟨he, hes⟩ => by
    simp only [exprsFill, Inlining.exprs]
    exact (F.expr e he).bind fun e e' he => (F.exprs es hes).bind fun es es' hes => .ret (.cons he hes)

theorem values (F : Filling env p₀ k m at₁ at₂ names loose handles σ σ') :
    ∀ es : List Expr, exprsMeet (template env p₀ names loose handles) es →
    List.Forall₂ (fun a a' => Tracks env p₀ a.value a'.value Expr.Matches)
      (arguments env (below env k) at₁ (exprsFill σ es))
      (arguments env (below env m) at₂ (exprsFill σ' es))
  | [], _ => by
    simp only [exprsFill, arguments]
    exact .nil
  | e :: es, ⟨he, hes⟩ => by
    simp only [exprsFill, arguments_cons]
    exact .cons (F.expr e he) (F.values es hes)

end

end Filling

/-! ### The body of a property -/

theorem lastPart_of_firstPart {name : String} (h : Name.firstPart name = name) :
    Name.lastPart name = "" := by
  have hlist := congrArg String.toList h
  rw [Name.firstPart, String.toList_ofList] at hlist
  have hwhole := List.takeWhile_append_dropWhile (p := fun c : Char => decide (c ≠ '.'))
    (l := name.toList)
  rw [hlist, List.append_right_eq_self] at hwhole
  rw [Name.lastPart, hwhole]

/-- Whether a value may stand in the place of an index that has a sigil: a name takes the sigil of the
index if it has none. -/
def SuitsSigil (sigil : Option Sigil) (v : Expr) : Prop :=
  ∀ rep es span, v = .var rep es span → sigil = none ∨ rep.sigil.isSome = true

/-- **Arguments in the place of parameters**, where the parameters are indices. -/
structure Fills (names : List Spelling) (handles : List (Spelling × Ident)) (σ : Filler)
    (ρ : Substitution) : Prop where
  undotted : ∀ n ∈ names, Name.firstPart n.2 = n.2
  index : ∀ n ∈ names, ∃ v, σ.lookup n = some v ∧ ρ.find? n.2 = some v ∧ SuitsSigil n.1 v
  outside : ∀ n, n ∉ names → σ.lookup n = none
  other : ∀ n, Name.firstPart n ∉ names.map Prod.snd ++ invented → ρ.find? n = none
  lent : Lent handles σ

/-- What the compiler makes of a name that begins with an index. -/
theorem mergeIdent_matches {i rep : Ident} (h : i.sigil = none ∨ rep.sigil.isSome = true) :
    (Substitution.mergeIdent i rep).Matches
      ⟨rep.sigil, rep.name ++ Name.lastPart i.name, i.span, true⟩ where
  sigil := by
    rw [Substitution.mergeIdent]
    cases hrep : rep.sigil with
    | some sigil => rfl
    | none =>
      rw [hrep] at h
      exact (h.resolve_right (by simp)).symm
  name := rfl

/-- What the compiler puts into the place of an index is the argument, at another place. -/
theorem merged_matches {i rep : Ident} (hsigil : i.sigil = none ∨ rep.sigil.isSome = true)
    (hname : Name.firstPart i.name = i.name) (own : List Expr) (span span' : Span) :
    (Expr.var (Substitution.mergeIdent i rep) ([] ++ own) span).Matches (.var rep own span') := by
  refine .var ((mergeIdent_matches hsigil).trans ⟨rfl, ?_⟩) (.refl _)
  rw [lastPart_of_firstPart hname, String.append_empty]

namespace Fills

variable {ρ : Substitution} {i j : Ident}

/-- The argument of the index that a name begins with. -/
theorem find_lent (F : Fills names handles σ ρ) {rep : Ident}
    (h : handles.lookup (i.sigil, Name.firstPart i.name) = some rep) :
    ∃ span, ρ.find? i.name = some (.var rep [] span) ∧ (i.sigil = none ∨ rep.sigil.isSome = true) := by
  obtain ⟨span, hlookup⟩ := F.lent _ _ h
  have hmem : (i.sigil, Name.firstPart i.name) ∈ names := by
    by_contra hnot
    rw [F.outside _ hnot] at hlookup
    cases hlookup
  obtain ⟨v, hv, hfind, hsuits⟩ := F.index _ hmem
  obtain rfl : v = .var rep [] span := Option.some.inj (hv.symm.trans hlookup)
  have hfirst := F.undotted _ hmem
  dsimp only at hfirst hfind hsuits
  rw [Substitution.find?, hfirst] at hfind
  exact ⟨span, hfind, hsuits rep [] span rfl⟩

/-- The compiler renames the function of a call over indices as one would by hand. -/
theorem functionName (F : Fills names handles σ ρ) (h : Named names handles true i j)
    (trace : List Span) (span : Span) :
    ∃ f, Substitution.functionName env ρ trace i span = .ok f ∧ f.Matches j := by
  cases h with
  | own h => exact ⟨i, by rw [Substitution.functionName, F.other _ h], .refl i⟩
  | @lent rep h hrep =>
    obtain ⟨span', hfind, -⟩ := F.find_lent h
    refine ⟨⟨none, rep.name ++ Name.lastPart i.name, i.span, true⟩, ?_, hrep rfl, rfl⟩
    rw [Substitution.functionName, hfind]

end Fills

mutual

/-- **The compiler fills an expression over indices** as one would by hand. -/
theorem Fills.expr {ρ : Substitution} (F : Fills names handles σ ρ) (trace : List Span) :
    ∀ e : Expr, e.Meets (template env p₀ names loose handles) →
      ∃ r, Substitution.expr env ρ trace e = .ok r ∧ r.Matches (e.fill σ)
  | .binary op left right span, .inr ⟨_, hl, hr⟩ => by
    obtain ⟨l, hl, hml⟩ := F.expr trace left hl
    obtain ⟨r, hr, hmr⟩ := F.expr trace right hr
    exact ⟨_, by rw [Substitution.expr, hl, hr]; rfl, .binary hml hmr⟩
  | .unary op operand span, ⟨_, ho⟩ => by
    obtain ⟨o, ho, hm⟩ := F.expr trace operand ho
    exact ⟨_, by rw [Substitution.expr, ho]; rfl, .unary hm⟩
  | .var i es span, ⟨hname, hs⟩ => by
    obtain ⟨rs, hrs, hm⟩ := F.exprs trace es hs
    by_cases hindex : isIndex names i es = true
    · have hmem := mem_of_isIndex hindex
      obtain ⟨v, hv, hfind, hsuits⟩ := F.index i.spelling hmem
      rw [fill_index hindex hv]
      simp only [isIndex, Bool.and_eq_true, List.isEmpty_iff] at hindex
      obtain rfl := hindex.1
      have hfind : ρ.find? i.name = some v := hfind
      -- A reference is merged into the index, which adds nothing to it; a value takes its place.
      simp only [Substitution.expr, hfind]
      cases v with
      | var rep own span' =>
        have hname : Name.firstPart i.name = i.name := F.undotted i.spelling hmem
        exact ⟨_, rfl, merged_matches (hsuits _ _ _ rfl) hname own span span'⟩
      | _ => exact ⟨_, rfl, .refl _⟩
    · obtain ⟨j, hj, -⟩ := hname.resolve_left hindex
      rw [fill_named F.outside F.lent hindex hj]
      cases hj with
      | own h =>
        simp only [Substitution.expr, F.other _ h]
        exact ⟨_, by rw [hrs]; rfl, .var (.refl i) hm⟩
      | lent h _ =>
        obtain ⟨span', hfind, hsigil⟩ := F.find_lent h
        simp only [Substitution.expr, hfind]
        refine ⟨_, by rw [hrs]; rfl, .var (mergeIdent_matches hsigil) ?_⟩
        rw [List.append_nil]
        exact hm
  | .call name args isProcedure usingCall span, ⟨⟨j, hj, _⟩, ha⟩ => by
    obtain ⟨rs, hrs, hm⟩ := F.exprs trace args (argsMeet_false.mp ha)
    obtain ⟨f, hf, hmf⟩ := F.functionName hj trace span
    rw [Expr.fill, renamed_of_named F.outside F.lent hj]
    exact ⟨_, by rw [Substitution.expr, hf, hrs]; rfl, .call hmf hm⟩
  | .int _ _, _ | .real _ _, _ | .str _ _, _ | .bool _ _, _ | .raw _ _, _ => ⟨_, rfl, .refl _⟩

theorem Fills.exprs {ρ : Substitution} (F : Fills names handles σ ρ) (trace : List Span) :
    ∀ es : List Expr, exprsMeet (template env p₀ names loose handles) es →
      ∃ rs, Substitution.exprs env ρ trace es = .ok rs ∧ ExprsMatch rs (exprsFill σ es)
  | [], _ => ⟨[], rfl, .nil⟩
  | e :: es, ⟨he, hes⟩ => by
    obtain ⟨r, hr, hm⟩ := F.expr trace e he
    obtain ⟨rs, hrs, hms⟩ := F.exprs trace es hes
    exact ⟨r :: rs, by rw [Substitution.exprs, hr, hrs]; rfl, .cons hm hms⟩

end

end Inlining

end FlatScript
