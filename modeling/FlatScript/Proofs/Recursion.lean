import FlatScript.Proofs.CallRecords
import FlatScript.Proofs.Characters
import FlatScript.Proofs.Circles
import FlatScript.Proofs.Inlining.Arguments
import FlatScript.Proofs.Invariants
import FlatScript.Proofs.Mentions

/-!
# Recursion that is none

A function that is being copied cannot be called again. The functions that are being copied are
on a stack, and what is called is looked for there; but a reference that is passed to a function
is not expanded where the call stands. It takes the place of the parameter as it is written, and
what is called in it is called while the function is being copied, and those that it hands the
parameter on to. So a function can be reported as recursive though no function refers to itself,
not even through others.

This file says that there is no other reason for such a report.

* `FlatScript.Program.refersTo` says which functions the text of a function names, and
  `FlatScript.Program.handsTo` to which of them it hands its parameters on.
* `FlatScript.Program.mayLend` is the check that a function leads to none of those that the
  reference it is called in is handed on to.
* `FlatScript.Script.passesSilently` is the check that nothing else is named in a reference that
  is passed by name.
* `FlatScript.compile_ne_recursiveCall` is the statement on compilations.
-/

namespace FlatScript

/-! ### Nodes and assignments -/

/-- **All expressions in statements**, at any depth. -/
def stmtsNodes (ss : List Stmt) : List Expr := exprsNodes (stmtsLeaves ss)

mutual

/-- The assignments in a statement. -/
def Stmt.assigns : Stmt → List (VarRef × Expr)
  | ⟨.assign target value, _, _⟩ => [(target, value)]
  | ⟨.property _ functions, _, _⟩ => functionsAssigns functions
  | ⟨.whileLoop _ body, _, _⟩ | ⟨.forLoop _ _ _ _ _ body, _, _⟩ | ⟨.family _ body, _, _⟩ =>
    stmtsAssigns body
  | ⟨.ifChain branches otherwise, _, _⟩ => branchesAssigns branches ++ stmtsAssigns otherwise
  | ⟨.select _ cases, _, _⟩ => casesAssigns cases
  | ⟨.synonym _ _ _, _, _⟩ | ⟨.declare _, _, _⟩ | ⟨.call _, _, _⟩ => []

/-- **All assignments in statements**, at any depth. -/
def stmtsAssigns : List Stmt → List (VarRef × Expr)
  | [] => []
  | s :: ss => s.assigns ++ stmtsAssigns ss

/-- The assignments in branches. -/
def branchesAssigns : List Branch → List (VarRef × Expr)
  | [] => []
  | ⟨_, body⟩ :: rest => stmtsAssigns body ++ branchesAssigns rest

/-- The assignments in cases. -/
def casesAssigns : List Case → List (VarRef × Expr)
  | [] => []
  | ⟨_, _, body⟩ :: rest => stmtsAssigns body ++ casesAssigns rest

/-- The assignments in functions. -/
def functionsAssigns : List FunctionDef → List (VarRef × Expr)
  | [] => []
  | ⟨_, _, _, body, _, _, _⟩ :: rest => stmtsAssigns body ++ functionsAssigns rest

end

/-- A rule that asks nothing of statements but assignments, and no more of a call that is a
statement than of one that is not. -/
structure Rule.Open (r : Rule) : Prop where
  list : ∀ ss, r.list ss
  call : ∀ c : Call, r.expr c.toExpr → r.stmt (.call c)
  other : ∀ k, (∀ target value, k ≠ .assign target value) → (∀ c, k ≠ .call c) → r.stmt k

section Nodes

variable {r : Rule}

theorem Declaration.meets_of_leaves (d : Declaration) (h : exprsMeet r d.leaves) : d.Meets r := by
  simp only [Declaration.leaves, exprsMeet_append] at h
  obtain ⟨⟨hsize, hparams⟩, hinit⟩ := h
  refine ⟨fun e he => exprsMeet_iff.mp hsize e (Option.mem_toList.mpr he), hparams, fun i hi => ?_⟩
  rw [hi, Option.map_some, Option.getD_some] at hinit
  cases i with
  | single e => exact hinit.1
  | list es => exact hinit

mutual

theorem Stmt.meets_of_leaves (hr : r.Open) : ∀ s : Stmt,
    (∀ a ∈ s.assigns, r.stmt (.assign a.1 a.2)) → exprsMeet r s.leaves → s.Meets r
  | ⟨.property _ functions, _, _⟩, ha, h =>
    ⟨hr.other _ nofun nofun, functionsMeet_of_leaves hr functions ha h⟩
  | ⟨.synonym _ _ _, _, _⟩, _, h => ⟨hr.other _ nofun nofun, h.1⟩
  | ⟨.declare d, _, _⟩, _, h => ⟨hr.other _ nofun nofun, d.meets_of_leaves h⟩
  | ⟨.assign target value, _, _⟩, ha, h =>
    .inr ⟨ha (target, value) (by simp [Stmt.assigns]), h.1, h.2.1⟩
  | ⟨.call c, _, _⟩, _, h => ⟨hr.call c h.1.1, h.1.2⟩
  | ⟨.whileLoop _ body, _, _⟩, ha, h =>
    ⟨hr.other _ nofun nofun, h.1, hr.list _, stmtsMeet_of_leaves hr body ha h.2⟩
  | ⟨.forLoop _ _ _ _ _ body, _, _⟩, ha, h => by
    simp only [Stmt.leaves, exprsMeet_append] at h
    obtain ⟨⟨⟨hvar, hstart, hstop, -⟩, hstep⟩, hbody⟩ := h
    exact ⟨hr.other _ nofun nofun, hvar, hstart, hstop,
      fun e he => exprsMeet_iff.mp hstep e (Option.mem_toList.mpr he), hr.list _,
      stmtsMeet_of_leaves hr body ha hbody⟩
  | ⟨.family _ body, _, _⟩, ha, h =>
    ⟨hr.other _ nofun nofun, hr.list _, stmtsMeet_of_leaves hr body ha h⟩
  | ⟨.ifChain branches otherwise, _, _⟩, ha, h => by
    simp only [Stmt.assigns, List.forall_mem_append] at ha
    simp only [Stmt.leaves, exprsMeet_append] at h
    exact ⟨hr.other _ nofun nofun, branchesMeet_of_leaves hr branches ha.1 h.1, hr.list _,
      stmtsMeet_of_leaves hr otherwise ha.2 h.2⟩
  | ⟨.select _ cases, _, _⟩, ha, h =>
    ⟨hr.other _ nofun nofun, h.1, casesMeet_of_leaves hr cases ha h.2⟩

/-- **A rule can be checked leaf by leaf**, and assignment by assignment. -/
theorem stmtsMeet_of_leaves (hr : r.Open) : ∀ ss : List Stmt,
    (∀ a ∈ stmtsAssigns ss, r.stmt (.assign a.1 a.2)) → exprsMeet r (stmtsLeaves ss) →
      stmtsMeet r ss
  | [], _, _ => trivial
  | s :: ss, ha, h => by
    simp only [stmtsAssigns, List.forall_mem_append] at ha
    simp only [stmtsLeaves, exprsMeet_append] at h
    exact ⟨s.meets_of_leaves hr ha.1 h.1, stmtsMeet_of_leaves hr ss ha.2 h.2⟩

theorem branchesMeet_of_leaves (hr : r.Open) : ∀ bs : List Branch,
    (∀ a ∈ branchesAssigns bs, r.stmt (.assign a.1 a.2)) → exprsMeet r (branchesLeaves bs) →
      branchesMeet r bs
  | [], _, _ => trivial
  | ⟨_, body⟩ :: rest, ha, h => by
    simp only [branchesAssigns, List.forall_mem_append] at ha
    simp only [branchesLeaves, exprsMeet, exprsMeet_append] at h
    exact ⟨h.1, hr.list _, stmtsMeet_of_leaves hr body ha.1 h.2.1,
      branchesMeet_of_leaves hr rest ha.2 h.2.2⟩

theorem casesMeet_of_leaves (hr : r.Open) : ∀ cs : List Case,
    (∀ a ∈ casesAssigns cs, r.stmt (.assign a.1 a.2)) → exprsMeet r (casesLeaves cs) →
      casesMeet r cs
  | [], _, _ => trivial
  | ⟨_, stop, body⟩ :: rest, ha, h => by
    simp only [casesAssigns, List.forall_mem_append] at ha
    simp only [casesLeaves, exprsMeet, exprsMeet_append] at h
    obtain ⟨hstart, ⟨hstop, hbody⟩, hrest⟩ := h
    exact ⟨hstart, fun e he => exprsMeet_iff.mp hstop e (Option.mem_toList.mpr he), hr.list _,
      stmtsMeet_of_leaves hr body ha.1 hbody, casesMeet_of_leaves hr rest ha.2 hrest⟩

theorem functionsMeet_of_leaves (hr : r.Open) : ∀ fs : List FunctionDef,
    (∀ a ∈ functionsAssigns fs, r.stmt (.assign a.1 a.2)) → exprsMeet r (functionsLeaves fs) →
      functionsMeet r fs
  | [], _, _ => trivial
  | ⟨_, _, _, body, _, _, _⟩ :: rest, ha, h => by
    simp only [functionsAssigns, List.forall_mem_append] at ha
    simp only [functionsLeaves, exprsMeet_append] at h
    exact ⟨hr.list _, stmtsMeet_of_leaves hr body ha.1 h.1,
      functionsMeet_of_leaves hr rest ha.2 h.2⟩

end

end Nodes

/-! ### Which functions are named -/

open Inlining

/-- The name of the function that reads or writes a property. -/
def accessorName (property kind : String) : String := (Sigil.split (property ++ kind)).2

/-- The functions that an expression names, apart from its parts: the one that it calls or is the
name of, or those of the property that it is. -/
def Expr.named (p : Program) : Expr → List String
  | .var i subscripts _ =>
    (if isPropertyRef p i then [accessorName i.name ".get", accessorName i.name ".set"] else []) ++
      (if i.sigil.isNone && subscripts.isEmpty then [i.name] else [])
  | .call name _ _ _ _ => [name.name]
  | _ => []

/-- The names of functions in statements. -/
def namedIn (p : Program) (ss : List Stmt) : List String := (stmtsNodes ss).flatMap (Expr.named p)

/-- The text of a function: its body, and the declarations that have been taken out of it. -/
def FunctionEntry.text (e : FunctionEntry) : List Stmt := e.fn.body ++ (e.globals ++ e.locals)

/-- **Which functions refer to which**: the name of the second one, or of a property that it
reads or writes, is in the text of the first one. -/
def Program.references (p : Program) : List (String × String) :=
  p.functions.flatMap fun e => ((namedIn p e.text).filter p.isUserFunction).map (e.name, ·)

/-- A function refers to another one. -/
def Program.refersTo (p : Program) (f g : String) : Prop := (f, g) ∈ p.references

/-! ### What is passed by name -/

/-- Whether a name is another one, or a field of it. -/
def isFieldOf (n name : String) : Bool := name == n || Controls.startsWith (n ++ ".") name

/-- Whether a reference has nothing to do with functions: it is to a variable, or no function is
called like it or like a field of it. -/
def Program.isSilent (p : Program) (i : Ident) : Bool :=
  i.sigil.isSome || !p.functions.any fun e => isFieldOf i.name e.name

/-- Whether a call reaches a built-in function. -/
def reachesOnlyBuiltin (env : Env) (p : Program) (name : Ident) (usingCall : Bool) : Bool :=
  !usingCall && p.isBuiltinCall env.builtins name.name

/-- Whether an expression names no function, apart from its parts. -/
def silentNode (env : Env) (p : Program) : Expr → Bool
  | .var i _ _ => p.isSilent i
  | .call name _ _ usingCall _ => reachesOnlyBuiltin env p name usingCall
  | _ => true

/-- Whether an expression is a reference to one of some parameters. -/
def namesParam (params : List String) : Expr → Bool
  | .var i _ _ => params.contains (Name.firstPart i.name)
  | _ => false

/-- Whether a parameter is in the references among some arguments. -/
def passesParam (params : List String) (args : List Expr) : Bool :=
  args.any fun a => a.asVar?.isSome && a.nodes.any (namesParam params)

/-- The functions that an expression hands parameters on to, apart from its parts. -/
def Expr.handsTo (p : Program) (params : List String) : Expr → List String
  | .var i subscripts _ =>
    if isPropertyRef p i && passesParam params subscripts then [accessorName i.name ".get"] else []
  | .call name args _ _ _ => if passesParam params args then [name.name] else []
  | _ => []

/-- The functions that statements hand parameters on to, in references that they pass by name. -/
def handedIn (p : Program) (params : List String) (ss : List Stmt) : List String :=
  (stmtsNodes ss).flatMap (Expr.handsTo p params) ++ (stmtsAssigns ss).flatMap fun a =>
    if isPropertyRef p a.1.ident && passesParam params (a.1.subscripts ++ [a.2]) then
      [accessorName a.1.ident.name ".set"] else []

/-- The functions that a function hands its parameters on to. -/
def FunctionEntry.handsTo (p : Program) (e : FunctionEntry) : List String :=
  handedIn p (Taskfunc.slotNames e.fn) e.fn.body

/-- **Which functions hand their parameters on to which.** -/
def Program.handovers (p : Program) : List (String × String) :=
  p.functions.flatMap fun e => (e.handsTo p).map (e.name, ·)

/-- The graph of some calls between functions. -/
def CallGraph.between (calls : List (String × String)) : CallGraph :=
  { calls := calls.map fun c => (some c.1, c.2) }

/-- **Whether a function may be called in what is passed by name to another one**: it leads neither
to this one nor to any that this one hands its parameters on to, perhaps through others. These are
the functions that may be copied when the call is expanded. -/
def Program.mayLend (p : Program) (f g : String) : Bool :=
  ((CallGraph.between p.handovers).reachableFrom [f]).all fun h =>
    !(CallGraph.between p.references).reaches g h

/-- Whether an expression may stand in a reference that is passed by name to a function, apart from
its parts. -/
def lentNode (env : Env) (p : Program) (params : List String) (f : String) : Expr → Bool
  | .var i _ _ => p.isSilent i
  | .call name _ _ usingCall _ => !params.contains (Name.firstPart name.name) &&
    (reachesOnlyBuiltin env p name usingCall || !p.isUserFunction name.name ||
      p.mayLend f name.name)
  | _ => true

/-- Whether the references among some arguments may be passed by name to a function. -/
def lentArgs (env : Env) (p : Program) (params : List String) (f : String) (args : List Expr) :
    Bool :=
  args.all fun a => a.asVar?.isNone || a.nodes.all (lentNode env p params f)

/-- Whether an expression passes nothing else by name, apart from its parts. -/
def silentUse (env : Env) (p : Program) (params : List String) : Expr → Bool
  | .var i subscripts _ =>
    p.isSilent i ||
      (if isPropertyRef p i then lentArgs env p params (accessorName i.name ".get") subscripts
        else subscripts.isEmpty && namesFunction p i)
  | .call name args _ usingCall _ =>
    !params.contains (Name.firstPart name.name) &&
      (reachesOnlyBuiltin env p name usingCall || lentArgs env p params name.name args)
  | _ => true

/-- The same for an assignment; what is assigned to may become the result of a function. -/
def silentAssign (env : Env) (p : Program) (params : List String) (target : VarRef)
    (value : Expr) : Bool :=
  p.isSilent target.ident || (isPropertyRef p target.ident &&
    lentArgs env p params (accessorName target.ident.name ".set") (target.subscripts ++ [value]))

/-- The same for statements in a function with some parameters. -/
def silentText (env : Env) (p : Program) (params : List String) (ss : List Stmt) : Bool :=
  (stmtsNodes ss).all (silentUse env p params) &&
    (stmtsAssigns ss).all fun a => silentAssign env p params a.1 a.2

/-- **Whether a script passes nothing by name that leads back**: the references that it passes to a
function name no property and no function, but they may call functions that lead to none of those
that they are handed on to. No function is called through a parameter, and no task function is
called like one of the built-in functions whose first argument is not looked at. -/
def Script.passesSilently (env : Env) (s : Script) (p : Program) : Bool :=
  s.callbacks.all (fun c => silentText env p [] c.body) &&
    p.functions.all fun e =>
      silentText env p (Taskfunc.slotNames e.fn) e.fn.body &&
        silentText env p [] (e.globals ++ e.locals) &&
        !(e.fn.isTaskfunc && Builtins.keepsFirstArgument e.name)

/-! ### Calls that lead back -/

theorem CallGraph.reaches_between {calls : List (String × String)} {f g : String} :
    (between calls).reaches f g = true ↔
      Relation.ReflTransGen (fun f g => (f, g) ∈ calls) f g := by
  rw [reaches_iff, leadsTo_iff_transGen, Relation.reflTransGen_iff_eq_or_transGen]
  simp [between]

namespace Program

variable {p : Program} {f g h : String}

/-- A function hands a parameter on to another one. -/
def handsTo (p : Program) (f g : String) : Prop := (f, g) ∈ p.handovers

theorem mayLend_iff : p.mayLend f g = true ↔
    ∀ h, Relation.ReflTransGen p.handsTo f h → ¬ Relation.ReflTransGen p.refersTo g h := by
  have hreached : ∀ h, h ∈ (CallGraph.between p.handovers).reachableFrom [f] ↔
      Relation.ReflTransGen p.handsTo f h := by
    intro h
    rw [← List.contains_iff_mem]
    exact CallGraph.reaches_between
  simp only [mayLend, List.all_eq_true, Bool.not_eq_true', ← Bool.not_eq_true,
    CallGraph.reaches_between, hreached]
  rfl

/-- What may be lent to a function may be handed on. -/
theorem mayLend_handed (hlend : p.mayLend f g = true) (hhands : p.handsTo f h) :
    p.mayLend h g = true :=
  mayLend_iff.mpr fun k hk => mayLend_iff.mp hlend k (.head hhands hk)

/-- **A function leads to none of some others**, and is none of them. -/
def avoids (p : Program) (stack : List String) (g : String) : Prop :=
  ∀ f ∈ stack, ¬ Relation.ReflTransGen p.refersTo g f

/-- What may be lent to a function does not lead to it. -/
theorem avoids_append {stack : List String} (hstack : p.avoids stack g)
    (hlend : p.mayLend f g = true) : p.avoids (stack ++ [f]) g := by
  intro k hk
  rcases List.mem_append.mp hk with hk | hk
  · exact hstack k hk
  · rw [List.mem_singleton.mp hk]
    exact mayLend_iff.mp hlend f .refl

end Program

/-! ### Names -/

theorem isFieldOf_iff {n name : String} :
    isFieldOf n name = true ↔ name = n ∨ ∃ rest, name = n ++ "." ++ rest := by
  rw [isFieldOf, Bool.or_eq_true, beq_iff_eq, Controls.startsWith, List.isPrefixOf_iff_prefix]
  refine or_congr_right ⟨?_, ?_⟩
  · rintro ⟨rest, hrest⟩
    refine ⟨String.ofList rest, ?_⟩
    rw [← String.toList_inj, String.toList_append, String.toList_ofList, hrest]
  · rintro ⟨rest, rfl⟩
    exact ⟨rest.toList, (String.toList_append ..).symm⟩

theorem isFieldOf_self (n : String) : isFieldOf n n = true := isFieldOf_iff.mpr (.inl rfl)

theorem isFieldOf_dot (n rest : String) {field : String} (h : field = "." ++ rest) :
    isFieldOf n (n ++ field) = true :=
  isFieldOf_iff.mpr (.inr ⟨rest, by rw [h, String.append_assoc]⟩)

/-- The last part of a name is empty or starts with a dot. -/
theorem Name.lastPart_cases (name : String) :
    lastPart name = "" ∨ ∃ rest, lastPart name = "." ++ rest := by
  unfold lastPart
  cases h : name.toList.dropWhile (· ≠ '.') with
  | nil => exact .inl rfl
  | cons c cs =>
    have hc : c = '.' := by
      have hhead := List.head?_dropWhile_not (fun c : Char => decide (c ≠ '.')) name.toList
      rw [h] at hhead
      simpa using hhead
    refine .inr ⟨String.ofList cs, ?_⟩
    rw [hc, ← String.toList_inj]
    simp

/-- A field of a field is a field. -/
theorem isFieldOf_append {n name : String} (rest : String)
    (h : isFieldOf (n ++ Name.lastPart rest) name = true) : isFieldOf n name = true := by
  rcases Name.lastPart_cases rest with hlast | ⟨last, hlast⟩
  · rwa [hlast, String.append_empty] at h
  · rw [hlast] at h
    rcases isFieldOf_iff.mp h with rfl | ⟨rest', rfl⟩
    · exact isFieldOf_dot n _ rfl
    · rw [String.append_assoc, String.append_assoc, String.append_assoc]
      exact isFieldOf_dot n _ rfl

namespace Program

variable {p : Program} {i rep : Ident}

/-- No function is named by a silent reference. -/
theorem unnamed_of_isSilent (h : p.isSilent i = true) (hsigil : i.sigil = none) {name : String}
    (hname : isFieldOf i.name name = true) : ¬ p.isUserFunction name = true := by
  unfold isSilent at h
  simp only [hsigil, Option.isSome_none, Bool.false_or, Bool.not_eq_true', List.any_eq_false] at h
  intro hknown
  obtain ⟨e, he, heq⟩ := List.any_eq_true.mp hknown
  exact h e he (beq_iff_eq.mp heq ▸ hname)

/-- A field of a silent reference is silent. -/
theorem isSilent_mergeIdent (h : p.isSilent rep = true) :
    p.isSilent (Substitution.mergeIdent i rep) = true := by
  unfold isSilent at h ⊢
  rw [Bool.or_eq_true] at h ⊢
  rcases h with h | h
  · left
    obtain ⟨sigil, hsigil⟩ := Option.isSome_iff_exists.mp h
    simp [Substitution.mergeIdent, hsigil]
  · right
    rw [Bool.not_eq_true', List.any_eq_false] at h ⊢
    exact fun e he hfield => h e he (isFieldOf_append i.name hfield)

end Program

/-! ### Rules -/

section Rules

variable (env : Env) (p : Program) (params hands : List String)

/-- **The rule of text that names no function.** -/
def silent : Rule where
  expr e := silentNode env p e = true
  stmt _ := True
  list _ := True
  skips name := Builtins.keepsFirstArgument name && p.isBuiltinCall env.builtins name
  atom _ _ _ := False

/-- **The rule of what is passed by name to a function**, by one that hands its parameters on to
certain functions only. -/
def lent (f : String) : Rule where
  expr e := lentNode env p params f e = true ∧ (namesParam params e = true → f ∈ hands)
  stmt _ := True
  list _ := True
  skips name := Builtins.keepsFirstArgument name && p.isBuiltinCall env.builtins name
  atom _ _ _ := False

/-- The references among some arguments may be passed by name to a function. -/
def PassesLent (f : String) (args : List Expr) : Prop :=
  ∀ a ∈ args, a.asVar?.isSome = true → a.Meets (lent env p params hands f)

/-- What is asked of a call that may enter a function. -/
def EntersOnly (A : String → Prop) (name : Ident) (args : List Expr) (usingCall : Bool) : Prop :=
  Name.firstPart name.name ∉ params ∧
    ((usingCall = false ∧ p.isBuiltinCall env.builtins name.name = true) ∨
      ((p.isUserFunction name.name = true → A name.name) ∧
        PassesLent env p params hands name.name args))

/-- **The rule of text that names certain functions only**, and lends what may be lent. -/
def referring (A : String → Prop) : Rule where
  expr
    | .var i subscripts span => p.isSilent i = true ∨
      ((∀ g ∈ (Expr.var i subscripts span).named p, p.isUserFunction g = true → A g) ∧
        (isPropertyRef p i = true →
          PassesLent env p params hands (accessorName i.name ".get") subscripts) ∧
        (isPropertyRef p i = false → subscripts = [] ∧ namesFunction p i = true))
    | .call name args _ usingCall _ => EntersOnly env p params hands A name args usingCall
    | _ => True
  stmt
    | .call c => EntersOnly env p params hands A c.name c.args c.usingCall
    | .assign target value => p.isSilent target.ident = true ∨
      (isPropertyRef p target.ident = true ∧
        PassesLent env p params hands (accessorName target.ident.name ".set")
          (target.subscripts ++ [value]))
    | _ => True
  list _ := True
  skips name := Builtins.keepsFirstArgument name && p.isBuiltinCall env.builtins name
  atom _ _ _ := False

end Rules

section Lent

variable {env : Env} {p : Program} {params hands : List String} {A : String → Prop} {f : String}

/-- Text that names no function may stand where certain functions may be named. -/
theorem silent_implies : (silent env p).ImpliesExpr (referring env p [] [] A) where
  expr e h := by
    cases e with
    | var i subscripts span => exact .inl h
    | call name args isProcedure usingCall span =>
      simp only [silent, silentNode, reachesOnlyBuiltin, Bool.and_eq_true, Bool.not_eq_true'] at h
      exact ⟨List.not_mem_nil, .inl h⟩
    | _ => trivial
  skips _ h := h
  atom _ _ _ h := h

/-- Text that names no function may be passed by name. -/
theorem silent_lent : (silent env p).ImpliesExpr (lent env p [] [] f) where
  expr e h := by
    cases e with
    | var i subscripts span => exact ⟨h, nofun⟩
    | call name args isProcedure usingCall span =>
      have hbuiltin : reachesOnlyBuiltin env p name usingCall = true := h
      exact ⟨by simp [lentNode, hbuiltin], nofun⟩
    | _ => exact ⟨rfl, nofun⟩
  skips _ h := h
  atom _ _ _ h := h

/-- What a function with parameters may lend may be lent without them. -/
theorem lent_implies : (lent env p params hands f).ImpliesExpr (lent env p [] [] f) where
  expr e h := by
    cases e with
    | var i subscripts span => exact ⟨h.1, nofun⟩
    | call name args isProcedure usingCall span =>
      obtain ⟨-, hcall⟩ := Bool.and_eq_true_iff.mp h.1
      exact ⟨hcall, nofun⟩
    | _ => exact ⟨rfl, nofun⟩
  skips _ h := h
  atom _ _ _ h := h

/-- What is lent to a function may be handed on. -/
theorem lent_handed {g : String} (hhands : p.handsTo f g) :
    (lent env p [] [] f).ImpliesExpr (lent env p [] [] g) where
  expr e h := by
    cases e with
    | call name args isProcedure usingCall span =>
      refine ⟨?_, nofun⟩
      have hcall := h.1
      simp only [lentNode, Bool.or_eq_true, Bool.and_eq_true] at hcall ⊢
      exact hcall.imp_right fun hcall => hcall.imp_right fun hlend =>
        Program.mayLend_handed hlend hhands
    | _ => exact ⟨h.1, nofun⟩
  skips _ h := h
  atom _ _ _ h := h

/-- Text that may stand in a function with parameters may stand in one without. -/
theorem referring_implies :
    (referring env p params hands A).Implies (referring env p [] [] A) := by
  have hpasses : ∀ {f args}, PassesLent env p params hands f args → PassesLent env p [] [] f args :=
    fun h a ha hvar => (h a ha hvar).imp lent_implies
  have henters : ∀ {name args usingCall}, EntersOnly env p params hands A name args usingCall →
      EntersOnly env p [] [] A name args usingCall :=
    fun h => ⟨List.not_mem_nil, h.2.imp_right fun h => ⟨h.1, hpasses h.2⟩⟩
  refine ⟨fun e h => ?_, fun k h => ?_, fun _ h => h, fun _ h => h, fun _ _ _ h => h,
    fun _ _ h => h⟩
  · cases e with
    | var i subscripts span =>
      exact Or.imp_right (fun ⟨hnamed, hprop, hname⟩ =>
        ⟨hnamed, fun hp => hpasses (hprop hp), hname⟩) h
    | call name args isProcedure usingCall span => exact henters h
    | _ => trivial
  · cases k with
    | call c => exact henters h
    | assign target value =>
      exact Or.imp_right (fun ⟨hprop, hargs⟩ => ⟨hprop, hpasses hargs⟩) h
    | _ => trivial

theorem referring_shallow : (referring env p params hands A).Shallow := by
  refine ⟨?_, fun _ => trivial⟩
  intro k k' h _
  cases h <;> trivial

theorem referring_open : (referring env p params hands A).Open where
  list _ := trivial
  call _ h := h
  other k hassign hcall := by
    cases k with
    | assign target value => exact absurd rfl (hassign target value)
    | call c => exact absurd rfl (hcall c)
    | _ => trivial

/-- **What is lent to a function** may be expanded while this one is being copied too: what is
called in it leads to no function on the stack, and not to this one. -/
theorem referring_append {stack : List String} :
    ((referring env p [] [] (p.avoids stack)).both (lent env p [] [] f)).ImpliesExpr
      (referring env p [] [] (p.avoids (stack ++ [f]))) where
  expr e h := by
    obtain ⟨h, hlent, -⟩ := h
    cases e with
    | var i subscripts span => exact .inl hlent
    | call name args isProcedure usingCall span =>
      simp only [lentNode, reachesOnlyBuiltin, Bool.or_eq_true, Bool.and_eq_true,
        Bool.not_eq_true'] at hlent
      refine ⟨h.1, ?_⟩
      rcases h.2 with hbuiltin | ⟨havoids, hpasses⟩
      · exact .inl hbuiltin
      rcases hlent.2 with (hbuiltin | hunknown) | hlend
      · exact .inl hbuiltin
      · exact .inr ⟨fun hknown => absurd hknown (by simp [hunknown]), hpasses⟩
      · exact .inr ⟨fun hknown => Program.avoids_append (havoids hknown) hlend, hpasses⟩
    | _ => trivial
  skips _ h := h
  atom _ _ _ h := h.1

theorem passesLent_of_lentArgs {args : List Expr} (h : lentArgs env p params f args = true)
    (hhands : passesParam params args = true → f ∈ hands) :
    PassesLent env p params hands f args := by
  intro a ha hvar
  have hnodes := List.all_eq_true.mp h a ha
  rw [Bool.or_eq_true, Option.isNone_iff_eq_none] at hnodes
  rcases hnodes with hnone | hnodes
  · rw [hnone] at hvar
    cases hvar
  · refine a.meets_of_nodes fun n hn => ⟨List.all_eq_true.mp hnodes n hn, fun hparam => hhands ?_⟩
    refine List.any_eq_true.mpr ⟨a, ha, ?_⟩
    rw [hvar, Bool.true_and]
    exact List.any_eq_true.mpr ⟨n, hn, hparam⟩

/-- **Text that has been checked** names the functions that are named in it, and hands parameters
on to those that they are handed on to in it. -/
theorem meets_of_silentText {ss : List Stmt} (h : silentText env p params ss = true)
    (hhands : handedIn p params ss ⊆ hands)
    (hA : ∀ g ∈ namedIn p ss, p.isUserFunction g = true → A g) :
    stmtsMeet (referring env p params hands A) ss := by
  rw [silentText, Bool.and_eq_true, List.all_eq_true, List.all_eq_true] at h
  rw [handedIn, List.append_subset] at hhands
  refine stmtsMeet_of_leaves referring_open ss (fun a ha => ?_)
    (exprsMeet_of_nodes _ fun n hn => ?_)
  · have hassign := h.2 a ha
    simp only [silentAssign, Bool.or_eq_true, Bool.and_eq_true] at hassign
    refine hassign.imp_right fun hargs => ⟨hargs.1, passesLent_of_lentArgs hargs.2 fun hparam => ?_⟩
    exact hhands.2 (List.mem_flatMap.mpr ⟨a, ha, by simp [hargs.1, hparam]⟩)
  · have huse := h.1 n hn
    have hnamed : ∀ g ∈ n.named p, p.isUserFunction g = true → A g :=
      fun g hg => hA g (List.mem_flatMap.mpr ⟨n, hn, hg⟩)
    have hhanded : ∀ g ∈ n.handsTo p params, g ∈ hands :=
      fun g hg => hhands.1 (List.mem_flatMap.mpr ⟨n, hn, hg⟩)
    cases n with
    | var i subscripts span =>
      simp only [silentUse, Bool.or_eq_true] at huse
      refine huse.imp_right fun huse => ⟨hnamed, fun hprop => ?_, fun hprop => ?_⟩
      · rw [if_pos hprop] at huse
        refine passesLent_of_lentArgs huse fun hparam => hhanded _ ?_
        simp [Expr.handsTo, hprop, hparam]
      · rw [if_neg (by simp [hprop]), Bool.and_eq_true] at huse
        exact ⟨List.isEmpty_iff.mp huse.1, huse.2⟩
    | call name args isProcedure usingCall span =>
      simp only [silentUse, reachesOnlyBuiltin, Bool.and_eq_true, Bool.or_eq_true,
        Bool.not_eq_true'] at huse
      refine ⟨by simpa using huse.1, huse.2.imp id fun h => ⟨?_, ?_⟩⟩
      · exact hnamed name.name (by simp [Expr.named])
      · refine passesLent_of_lentArgs h fun hparam => hhanded _ ?_
        simp [Expr.handsTo, hparam]
    | _ => trivial

end Lent

/-! ### Arguments in the place of parameters -/

namespace Substitution

variable {env : Env} {σ : Substitution} {trace : List Span}

/-- **What stands in the place of the parameters of a function** when only what may be lent is
passed by name: only parameters are replaced, by text that may be lent to the function. -/
structure Lent (env : Env) (p : Program) (A : String → Prop) (e : FunctionEntry)
    (σ : Substitution) : Prop where
  known : e ∈ p.functions
  key : ∀ b ∈ σ, b.1 ∈ Taskfunc.slotNames e.fn
  lent : ∀ b ∈ σ, b.2.Meets (lent env p [] [] e.name)
  value : ∀ b ∈ σ, b.2.Meets (referring env p [] [] A)

namespace Lent

variable {p : Program} {A : String → Prop} {entry : FunctionEntry}

/-- A function that is not called through a parameter keeps its name. -/
theorem functionName (hσ : Lent env p A entry σ) {name name' : Ident} {span : Span}
    (hname : Name.firstPart name.name ∉ Taskfunc.slotNames entry.fn)
    (h : functionName env σ trace name span = .ok name') : name' = name := by
  unfold Substitution.functionName at h
  split at h
  · cases h
    rfl
  · next hfind => exact absurd (hσ.key _ (mem_of_find? hfind)) hname
  · next hfind => exact absurd (hσ.key _ (mem_of_find? hfind)) hname

/-- A reference in the place of a parameter, or a field of it, is silent. -/
theorem merged (hσ : Lent env p A entry σ) {i rep : Ident} {own : List Expr} {span : Span}
    (hfind : σ.find? i.name = some (.var rep own span)) :
    p.isSilent (mergeIdent i rep) = true :=
  Program.isSilent_mergeIdent (hσ.lent _ (mem_of_find? hfind)).1.1

/-- What may be lent may be lent after the substitution, and what stands in the place of a
parameter is lent where the parameter is handed on to. -/
theorem lent_carries (hσ : Lent env p A entry σ) {f : String} :
    Carries env σ (FlatScript.lent env p (Taskfunc.slotNames entry.fn) (entry.handsTo p) f)
      (FlatScript.lent env p [] [] f) where
  value h hfind := by
    have hhanded := h.2 (List.contains_iff_mem.mpr (hσ.key _ (mem_of_find? hfind)))
    have hhands : p.handsTo entry.name f :=
      List.mem_flatMap.mpr ⟨entry, hσ.known, List.mem_map_of_mem hhanded⟩
    exact (hσ.lent _ (mem_of_find? hfind)).imp (lent_handed hhands)
  atom h := h.elim
  binary _ := ⟨rfl, nofun⟩
  unary _ := ⟨rfl, nofun⟩
  literal {e} hlit _ := by
    cases e with
    | binary _ _ _ _ | unary _ _ _ | var _ _ _ | call _ _ _ _ _ => cases hlit
    | _ => exact ⟨rfl, nofun⟩
  var h _ _ := ⟨h.1, nofun⟩
  merged _ hfind := ⟨hσ.merged hfind, nofun⟩
  call {trace name name' args args' isProcedure usingCall span} h hname _ := by
    obtain ⟨hparam, hcall⟩ := Bool.and_eq_true_iff.mp h.1
    rw [hσ.functionName (by simpa using hparam) hname]
    exact ⟨⟨hcall, nofun⟩, id⟩

/-- Only a reference becomes a reference. -/
theorem isVar_of_expr {e e' : Expr} (h : expr env σ trace e = .ok e')
    (hvar : e'.asVar?.isSome = true) : e.asVar?.isSome = true := by
  cases e with
  | var i subscripts span => rfl
  | binary op left right span =>
    simp only [expr] at h
    obtain ⟨_, -, h⟩ := Except.bind_eq_ok.mp h
    obtain ⟨_, -, h⟩ := Except.bind_eq_ok.mp h
    cases h
    cases hvar
  | unary op operand span =>
    simp only [expr] at h
    obtain ⟨_, -, h⟩ := Except.bind_eq_ok.mp h
    cases h
    cases hvar
  | call name args isProcedure usingCall span =>
    simp only [expr] at h
    obtain ⟨_, -, h⟩ := Except.bind_eq_ok.mp h
    obtain ⟨_, -, h⟩ := Except.bind_eq_ok.mp h
    cases h
    cases hvar
  | int _ _ | real _ _ | str _ _ | bool _ _ | raw _ _ =>
    cases h
    cases hvar

theorem isEmpty_exprs {es es' : List Expr} (h : exprs env σ trace es = .ok es') :
    es'.isEmpty = es.isEmpty := by
  cases es with
  | nil =>
    cases h
    rfl
  | cons e es =>
    obtain ⟨e', rest, -, -, rfl⟩ := exprs_eq_cons h
    rfl

theorem exprs_concat {v v' : Expr} (hv : expr env σ trace v = .ok v') {es es' : List Expr}
    (h : exprs env σ trace es = .ok es') :
    exprs env σ trace (es ++ [v]) = .ok (es' ++ [v']) := by
  induction es generalizing es' with
  | nil =>
    cases h
    simp only [List.nil_append, exprs, hv]
    rfl
  | cons e es ih =>
    obtain ⟨e', rest, he, hrest, rfl⟩ := exprs_eq_cons h
    simp only [List.cons_append, exprs, he, ih hrest]
    rfl

/-- What is passed by name may be lent after the substitution too. -/
theorem passesLent (hσ : Lent env p A entry σ) {f : String} : ∀ {args args' : List Expr},
    PassesLent env p (Taskfunc.slotNames entry.fn) (entry.handsTo p) f args →
    exprs env σ trace args = .ok args' → PassesLent env p [] [] f args'
  | [], _, _, hrun => by
    cases hrun
    exact fun _ ha => nomatch ha
  | a :: args, _, h, hrun => by
    obtain ⟨a', args', ha, hargs, rfl⟩ := exprs_eq_cons hrun
    have hrest := passesLent hσ (fun b hb => h b (by simp [hb])) hargs
    intro b hb hvar
    rcases List.mem_cons.mp hb with rfl | hb
    · exact hσ.lent_carries.ofExpr a (h a (by simp) (isVar_of_expr ha hvar)) ha
    · exact hrest b hb hvar

theorem entersOnly (hσ : Lent env p A entry σ) {name name' : Ident} {span : Span}
    {args args' : List Expr} {usingCall : Bool}
    (h : EntersOnly env p (Taskfunc.slotNames entry.fn) (entry.handsTo p) A name args usingCall)
    (hname : Substitution.functionName env σ trace name span = .ok name')
    (hargs : exprs env σ trace args = .ok args') :
    name' = name ∧ EntersOnly env p [] [] A name args' usingCall := by
  refine ⟨hσ.functionName h.1 hname, List.not_mem_nil, h.2.imp_right fun h => ⟨h.1, ?_⟩⟩
  exact hσ.passesLent h.2 hargs

/-- Expressions name no other functions after the substitution. -/
theorem referring (hσ : Lent env p A entry σ) :
    Carries env σ
      (FlatScript.referring env p (Taskfunc.slotNames entry.fn) (entry.handsTo p) A)
      (FlatScript.referring env p [] [] A) where
  value _ hfind := hσ.value _ (mem_of_find? hfind)
  atom h := h.elim
  binary _ := trivial
  unary _ := trivial
  literal {e} hlit _ := by
    cases e with
    | binary _ _ _ _ | unary _ _ _ | var _ _ _ | call _ _ _ _ _ => cases hlit
    | _ => trivial
  var {trace i es span es'} h _ hrun := by
    refine h.imp_right fun ⟨hnamed, hprop, hfunction⟩ => ⟨?_, ?_, ?_⟩
    · simp only [Expr.named, isEmpty_exprs hrun]
      exact hnamed
    · exact fun hp => hσ.passesLent (hprop hp) hrun
    · intro hp
      obtain ⟨rfl, hname⟩ := hfunction hp
      cases hrun
      exact ⟨rfl, hname⟩
  merged _ hfind := .inl (hσ.merged hfind)
  call h hname hargs := by
    obtain ⟨rfl, h⟩ := hσ.entersOnly h hname hargs
    exact ⟨h, id⟩

/-- **Statements name no other functions after the substitution.** -/
theorem carries (hσ : Lent env p A entry σ) :
    (leafMap env σ).Carries
      (FlatScript.referring env p (Taskfunc.slotNames entry.fn) (entry.handsTo p) A)
      (FlatScript.referring env p [] [] A) where
  expr _ hm h := hσ.referring.ofExpr _ hm h
  target _ hm h := hσ.referring.ofTarget hm h
  call _ hk hm h := by
    obtain ⟨name, args, hname, hargs, rfl⟩ := call_eq_ok h
    obtain ⟨rfl, hk'⟩ := hσ.entersOnly hk hname hargs
    exact ⟨hk', hσ.referring.ofArgs id _ hm hargs⟩
  assign {scope t v t' v'} hk ht hv := by
    change Substitution.target env σ scope.trace t = .ok t' at ht
    unfold Substitution.target at ht
    split at ht
    · obtain ⟨subscripts, hsubscripts, ht⟩ := Except.bind_eq_ok.mp ht
      cases ht
      exact hk.imp_right fun hk =>
        ⟨hk.1, hσ.passesLent hk.2 (exprs_concat hv hsubscripts)⟩
    · next hfind =>
      obtain ⟨subscripts, -, ht⟩ := Except.bind_eq_ok.mp ht
      cases ht
      exact .inl (hσ.merged hfind)
    · cases ht
  whole _ h := h.elim
  accessors _ _ _ := trivial
  reshape {k k'} h _ := by cases h <;> trivial
  list _ _ := trivial

end Lent

end Substitution

/-! ### Expansion -/

/-- The error does not report recursion in a copy. -/
def CompileError.NoRecursion (e : CompileError) : Prop :=
  ∀ chain loc, e ≠ .fault (.recursiveCall chain) loc

theorem CompileError.IsPlain.noRecursion {e : CompileError} (h : e.IsPlain) : e.NoRecursion := by
  obtain ⟨fault, loc, rfl, hfault⟩ := h
  rintro chain loc' heq
  cases heq
  exact hfault chain rfl

/-- What is named in the text of a function leads to none of the functions that this one leads to
none of, and not back to it. -/
theorem Program.avoids_named {p : Program} {stack : List String} {e : FunctionEntry}
    {ss : List Stmt} (hacyclic : ∀ f, ¬ Relation.TransGen p.refersTo f f) (he : e ∈ p.functions)
    (hss : namedIn p ss ⊆ namedIn p e.text)
    (hstack : ∀ f ∈ stack, f = e.name ∨ ¬ Relation.ReflTransGen p.refersTo e.name f) :
    ∀ g ∈ namedIn p ss, p.isUserFunction g = true → p.avoids stack g := by
  intro g hg hknown f hf hled
  have hstep : p.refersTo e.name g :=
    List.mem_flatMap.mpr ⟨e, he, List.mem_map_of_mem (List.mem_filter.mpr ⟨hss hg, hknown⟩)⟩
  rcases hstack f hf with rfl | hf
  · exact hacyclic e.name (.head' hstep hled)
  · exact hf (.head hstep hled)

theorem namedIn_append (p : Program) (ss ss' : List Stmt) :
    namedIn p (ss ++ ss') = namedIn p ss ++ namedIn p ss' := by
  have hleaves : stmtsLeaves (ss ++ ss') = stmtsLeaves ss ++ stmtsLeaves ss' := by
    induction ss with
    | nil => rfl
    | cons s ss ih => simp [stmtsLeaves, ih]
  have hnodes : ∀ es es' : List Expr, exprsNodes (es ++ es') = exprsNodes es ++ exprsNodes es' := by
    intro es es'
    induction es with
    | nil => rfl
    | cons e es ih => simp [exprsNodes, ih]
  rw [namedIn, namedIn, namedIn, stmtsNodes, hleaves, hnodes, List.flatMap_append]
  rfl

/-- **What has been checked of the functions of a script.** -/
def Program.PassesSilently (env : Env) (p : Program) : Prop :=
  ∀ e ∈ p.functions, silentText env p (Taskfunc.slotNames e.fn) e.fn.body = true ∧
    silentText env p [] (e.globals ++ e.locals) = true ∧
    ¬ (e.fn.isTaskfunc = true ∧ Builtins.keepsFirstArgument e.name = true)

/-- **What may be passed by name to a function** while some are being copied: what is called in it
leads to none of these, and the function may hand it on. -/
def LentTo (env : Env) (p : Program) (stack : List String) (f : String) (v : VarRef) : Prop :=
  v.Meets (referring env p [] [] (p.avoids stack)) ∧ v.Meets (lent env p [] [] f)

/-- What names no function may be passed to every one. -/
theorem lentTo_of_silent {env : Env} {p : Program} {stack : List String} {f : String} {v : VarRef}
    (h : v.Meets (silent env p)) : LentTo env p stack f v :=
  ⟨Expr.Meets.imp silent_implies h, Expr.Meets.imp silent_lent h⟩

theorem passesOnly_of_passesLent {env : Env} {p : Program} {stack : List String} {f : String}
    {args : List Expr} (hargs : exprsMeet (referring env p [] [] (p.avoids stack)) args)
    (h : PassesLent env p [] [] f args) : PassesOnly (LentTo env p stack f) args := by
  intro a ha v hv
  cases a with
  | var i subscripts span =>
    cases hv
    exact ⟨exprsMeet_iff.mp hargs _ ha, h _ ha rfl⟩
  | _ => cases hv

namespace Inlining

/-- A call enters a function that leads to none of those that are being copied. -/
theorem enters_of_entersOnly {env : Env} {p : Program} {stack : List String} {name : Ident}
    {args : List Expr} {usingCall : Bool}
    (h : EntersOnly env p [] [] (p.avoids stack) name args usingCall)
    (hargs : argsMeet (referring env p [] [] (p.avoids stack))
      ((referring env p [] [] (p.avoids stack)).skips name.name) args) :
    (usingCall = false ∧ p.isBuiltinCall env.builtins name.name = true) ∨
      ((p.isUserFunction name.name = true → p.avoids stack name.name) ∧
        (usingCall = false → PassesOnly (LentTo env p stack name.name) args)) := by
  by_cases hbuiltin : usingCall = false ∧ p.isBuiltinCall env.builtins name.name = true
  · exact .inl hbuiltin
  obtain ⟨havoids, hpasses⟩ := h.2.resolve_left hbuiltin
  refine .inr ⟨havoids, fun hcall => passesOnly_of_passesLent ?_ hpasses⟩
  -- Only a built-in function does not look at its first argument.
  have hskips : (referring env p [] [] (p.avoids stack)).skips name.name = false := by
    have hname : p.isBuiltinCall env.builtins name.name = false := by
      simpa [hcall] using hbuiltin
    simp [referring, hname]
  rwa [hskips, argsMeet_false] at hargs

/-- **What bounds the errors of expansion** when no function refers to itself and only what may be
lent is passed by name: a function that is called leads to none of those that are being copied, so
it is none of them. -/
def referenceLimits (env : Env) {p : Program} (hp : p.PassesSilently env)
    (hacyclic : ∀ f, ¬ Relation.TransGen p.refersTo f f) : Limits env p where
  fails := CompileError.NoRecursion
  src stack := referring env p [] [] (p.avoids stack)
  dst := silent env p
  enters stack g := p.isUserFunction g = true → p.avoids stack g
  lends := LentTo env p
  plain := CompileError.IsPlain.noRecursion
  recursion {stack name chain loc} hknown henters hmem := absurd .refl (henters hknown name hmem)
  offset _ _ _ := nofun
  noAtom h := h
  noWhole h := h
  skips {stack name} h := by
    simp only [referring, Bool.and_eq_true] at h
    refine ⟨h.1, h.2, fun e he => ?_⟩
    obtain ⟨hmem, hname⟩ := Program.mem_functions_of_function? he
    have hnot := (hp e hmem).2.2
    rw [hname] at hnot
    simpa [h.1] using hnot
  raw hkeep hbuiltin _ := .inl (by simp [silent, hkeep, hbuiltin])
  binary _ := rfl
  unary _ := rfl
  literal {stack e} hlit _ := by
    cases e with
    | binary _ _ _ _ | unary _ _ _ | var _ _ _ | call _ _ _ _ _ => cases hlit
    | _ => rfl
  var {stack i es span es'} h hprop hname _ := by
    rcases h with h | ⟨-, -, hfunction⟩
    · exact h
    · obtain ⟨hes, hnames⟩ := hfunction hprop
      exact absurd hnames (by simp [hname hes])
  builtin {name args isProcedure span} h := by simp [silent, silentNode, reachesOnlyBuiltin, h]
  slot {count i span} := by
    -- The stack and its pointer are written with their sigils.
    have hpointer : (Frame.fixedVar Frame.stackPointer span).toExpr.Meets (silent env p) :=
      ⟨rfl, trivial⟩
    unfold argumentSlot Frame.slot
    refine ⟨rfl, ?_, trivial⟩
    split
    · exact hpointer
    · exact .inr ⟨rfl, hpointer, rfl⟩
  call h hargs := enters_of_entersOnly h hargs
  callStmt h hargs := enters_of_entersOnly h hargs
  name {stack i span} h hname hknown := by
    rw [namesFunction, Bool.and_eq_true, Option.isNone_iff_eq_none] at hname
    rcases h with h | ⟨hnamed, -, -⟩
    · exact absurd hknown (p.unnamed_of_isSilent h hname.1 (isFieldOf_self i.name))
    · exact hnamed i.name (by simp [Expr.named, hname.1]) hknown
  getter {stack i es span} h hes hprop hknown := by
    have hsigil := hprop
    rw [isPropertyRef, Bool.and_eq_true, Option.isNone_iff_eq_none] at hsigil
    rcases h with h | ⟨hnamed, hpasses, -⟩
    · exact absurd hknown (p.unnamed_of_isSilent h hsigil.1 (isFieldOf_dot i.name "get" rfl))
    · refine ⟨hnamed _ ?_, passesOnly_of_passesLent hes (hpasses hprop)⟩
      simp [Expr.named, hprop, accessorName, Ident.fixed, Ident.ofText]
  setter {stack target value} hstmt htarget hvalue hprop hknown := by
    have hsigil := hprop
    rw [isPropertyRef, Bool.and_eq_true, Option.isNone_iff_eq_none] at hsigil
    have hloud : ¬ p.isSilent target.ident = true := fun h =>
      absurd hknown (p.unnamed_of_isSilent h hsigil.1 (isFieldOf_dot _ "set" rfl))
    obtain ⟨hnamed, -, -⟩ := htarget.1.resolve_left hloud
    have hargs : exprsMeet (referring env p [] [] (p.avoids stack))
        (target.subscripts ++ [value]) := exprsMeet_append.mpr ⟨htarget.2, hvalue, trivial⟩
    refine ⟨hnamed _ ?_, passesOnly_of_passesLent hargs (hstmt.resolve_left hloud).2⟩
    simp [Expr.named, hprop, accessorName, Ident.fixed, Ident.ofText]
  result {stack target value es span} h hprop hes name := by
    refine lentTo_of_silent ⟨h.resolve_right fun h => ?_, hes⟩
    exact absurd h.1 (by simp [hprop])
  decls {stack name e} he henters := by
    obtain ⟨hmem, rfl⟩ := Program.mem_functions_of_function? he
    refine stmtsMeet_mono referring_implies (meets_of_silentText (hp e hmem).2.1
      (List.Subset.refl _) (Program.avoids_named hacyclic hmem ?_ fun f hf => ?_))
    · rw [FunctionEntry.text, namedIn_append p e.fn.body]
      exact List.subset_append_right _ _
    · exact .inr (henters (Program.isUserFunction_of_function? he) f hf)
  body {stack name e s span body} he henters hs hrun := by
    obtain ⟨hmem, rfl⟩ := Program.mem_functions_of_function? he
    have hσ : Substitution.Lent env p (p.avoids (stack ++ [e.name])) e s := by
      refine ⟨hmem, fun b hb => (hs b hb).1, fun b hb => ?_, fun b hb => ?_⟩
      · rcases (hs b hb).2 with hb | ⟨v, hb, hv⟩
        · exact hb.imp silent_lent
        · rw [hb]
          exact hv.2
      · rcases (hs b hb).2 with hb | ⟨v, hb, hv⟩
        · exact hb.imp silent_implies
        · rw [hb]
          have hboth : v.toExpr.Meets ((referring env p [] [] (p.avoids stack)).both
              (lent env p [] [] e.name)) := by
            refine Expr.Meets.both ⟨id, id⟩ ⟨id, id⟩ ?_ hv.1 hv.2
            rfl
          exact hboth.imp referring_append
    have hbody : stmtsMeet (referring env p (Taskfunc.slotNames e.fn) (e.handsTo p)
        (p.avoids (stack ++ [e.name]))) e.fn.body := by
      refine meets_of_silentText (hp e hmem).1 (List.Subset.refl _)
        (Program.avoids_named hacyclic hmem ?_ fun f hf => ?_)
      · rw [FunctionEntry.text, namedIn_append]
        exact List.subset_append_left _ _
      · rcases List.mem_append.mp hf with hf | hf
        · exact .inr (henters (Program.isUserFunction_of_function? he) f hf)
        · exact .inl (List.mem_singleton.mp hf)
    exact hσ.carries.stmts trivial _ (stmtsMeet_copiedTo referring_shallow _ hbody) hrun

/-- **A script is expanded without a report of recursion**, if nothing that is passed by name leads
back and no function refers to itself. -/
theorem script_noRecursion {env : Env} {s : Script} {p : Program}
    (hs : ∀ b ∈ s.blocks, ∃ c, b = .callback c) (hsilent : s.passesSilently env p = true)
    (hacyclic : ∀ f, ¬ Relation.TransGen p.refersTo f f) :
    FailsWith CompileError.NoRecursion ((script env s).run p) := by
  simp only [Script.passesSilently, Bool.and_eq_true, List.all_eq_true, Bool.not_eq_true',
    and_assoc] at hsilent
  obtain ⟨hcallbacks, hfunctions⟩ := hsilent
  have hp : p.PassesSilently env := by
    intro e he
    obtain ⟨hbody, hdecls, hname⟩ := hfunctions e he
    exact ⟨hbody, hdecls, by simpa using hname⟩
  refine (referenceLimits env hp hacyclic).script_fails (fun b hb => ?_) fun e he _ => ?_
  · obtain ⟨c, rfl⟩ := hs b hb
    have hc : c ∈ s.callbacks := List.mem_filterMap.mpr ⟨_, hb, rfl⟩
    have hmeets := meets_of_silentText (A := p.avoids []) (hcallbacks c hc) (List.Subset.refl _)
      (by rintro g _ _ f ⟨⟩)
    exact ⟨c, rfl, stmtsMeet_mono referring_implies hmeets⟩
  · refine stmtsMeet_mono referring_implies
      (meets_of_silentText (hp e he).1 (List.Subset.refl _) ?_)
    refine Program.avoids_named hacyclic he ?_ fun f hf => .inl (List.mem_singleton.mp hf)
    rw [FunctionEntry.text, namedIn_append]
    exact List.subset_append_left _ _

end Inlining

/-! ### Compilations -/

/-- The script and the table of functions that are expanded, if compilation comes this far. -/
def typedSource (env : Env) (o : Options) (source : String) : Option (Script × Program) := do
  let s ← (Script.parse source env.lines).toOption
  let lowered ← ((Lowering.script env
    (if o.combineCallbacks then s.combineCallbacks else s)).run {}).toOption
  ((Sigils.script env lowered.1).run lowered.2).toOption

theorem Typing.mem_typedSource {env : Env} {o : Options} {source : String}
    (r : Typing env o source) : r.typed ∈ typedSource env o source := by
  simp only [typedSource, r.parse_eq, Except.toOption, Option.bind_eq_bind, Option.bind_some,
    r.lower_eq, r.type_eq, Option.mem_def]

/-- **No recursion is reported that is none.** If no function of a script refers to itself, not
even through others, then no compilation ends with a recursive call, as long as nothing that is
called in a reference that is passed by name leads to a function that the reference is passed
to. -/
theorem compile_ne_recursiveCall (env : Env) (o : Options) (source chain : String) (loc : Location)
    (hacyclic : ∀ t ∈ typedSource env (o.withPragmas source env.lines) source,
      ∀ f, ¬ Relation.TransGen t.2.refersTo f f)
    (hsilent : ∀ t ∈ typedSource env (o.withPragmas source env.lines) source,
      t.1.passesSilently env t.2 = true) :
    compile env o source ≠ .error (.program (.fault (.recursiveCall chain) loc)) := by
  intro hcompile
  have hsteps : ∀ e, Breaks env (o.withPragmas source env.lines) source e → e.NoRecursion := by
    intro e hbreaks
    cases hbreaks with
    | lower hrun => exact (Lowering.script_fails env _ _ e hrun).noRecursion
    | type hrun => exact (Sigils.script_fails env _ _ e hrun).noRecursion
    | expand r hrun =>
      exact Inlining.script_noRecursion r.callbacks (hsilent _ r.mem_typedSource)
        (hacyclic _ r.mem_typedSource) e hrun
    | frame r hexpand hrun =>
      exact Taskfunc.program_fails env _ (fun _ => CompileError.IsPlain.noRecursion)
        (fun _ _ _ _ _ => nofun) e hrun
    | arrange r hexpand hrun =>
      exact Arrangement.script_fails _ _ (fun _ => nofun) (fun _ _ => nofun) e hrun
    | check hrun => exact (Controls.script_fails env _ _ e hrun).noRecursion
    | shorten hrun =>
      exact Compaction.script_fails env _ _ _ (fun _ _ => nofun) (fun _ _ _ => nofun) e hrun
  exact hsteps _ (breaks_of_compile hcompile) chain loc rfl

/-- A function is used in an argument of itself and in a subscript there, and another one in a
reference that is passed by name. -/
def nestedText : String :=
  "on init\ndeclare $x\ndeclare %a[4]\nx := twice(twice(1)+a[twice(2)])+fourfold(a[half(6)])\n" ++
    "end on\nfunction half(v) -> r\nr := v/2\nend function\n" ++
    "function twice(v) -> r\nr := v*2\nend function\n" ++
    "function fourfold(v) -> r\nr := twice(twice(v))\nend function\n"

theorem nestedText_ne_recursiveCall :
    (typedSource ⟨{}, .empty⟩ (Options.withPragmas {} nestedText .empty) nestedText).map
        (fun t => (t.1.passesSilently ⟨{}, .empty⟩ t.2, t.2.references)) =
      some (true, [("fourfold", "twice"), ("fourfold", "twice")]) ∧
      ∀ chain loc, compile ⟨{}, .empty⟩ {} nestedText ≠
        .error (.program (.fault (.recursiveCall chain) loc)) := by
  set_option maxRecDepth 4000 in
  have htext : nestedText.toList = _ :=
    Text.toList_pieces (Text.toList_pieces (Text.toList_pieces String.toList_ofList
      String.toList_ofList) String.toList_ofList) String.toList_ofList
  have hrun : (typedSource ⟨{}, .empty⟩ (Options.withPragmas {} nestedText .empty) nestedText).map
        (fun t => (t.1.passesSilently ⟨{}, .empty⟩ t.2, t.2.references)) =
      some (true, [("fourfold", "twice"), ("fourfold", "twice")]) := by
    rw [typedSource, Options.withPragmas_eq_self _ _ (htext ▸ by decide +kernel),
      Script.parse_eq_ofChars htext]
    decide +kernel
  refine ⟨hrun, fun chain loc => ?_⟩
  obtain ⟨t, ht, heq⟩ := Option.map_eq_some_iff.mp hrun
  obtain ⟨hsilent, hreferences⟩ := Prod.mk.inj heq
  have honly : ∀ u ∈ typedSource ⟨{}, .empty⟩ (Options.withPragmas {} nestedText .empty) nestedText,
      u = t := fun u hu => Option.some.inj ((Option.mem_def.mp hu).symm.trans ht)
  have hends : ∀ f g, Relation.TransGen t.2.refersTo f g → f = "fourfold" ∧ g = "twice" := by
    have hstep : ∀ f g, t.2.refersTo f g → f = "fourfold" ∧ g = "twice" := by
      intro f g h
      rw [Program.refersTo, hreferences] at h
      simpa using h
    intro f g h
    induction h with
    | single h => exact hstep _ _ h
    | tail _ h ih =>
      rw [ih.2] at h
      exact absurd (hstep _ _ h).1 (by decide)
  refine compile_ne_recursiveCall ⟨{}, .empty⟩ {} nestedText chain loc ?_ ?_
  · intro u hu f hf
    rw [honly u hu] at hf
    obtain ⟨rfl, hname⟩ := hends f f hf
    exact absurd hname (by decide)
  · intro u hu
    rw [honly u hu]
    exact hsilent

end FlatScript
