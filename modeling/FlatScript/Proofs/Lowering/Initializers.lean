import FlatScript.Proofs.Lowering.Abreast

/-!
# What becomes of the values that variables start with

A declaration in the body of a function moves away, and the value that it starts with has to go
with it or to stay behind as an assignment. `FlatScript.Lowering.Kept` lists the ways in which
this is done:

* a global variable, and a constant or an array with a name of its own, take their values along
  in the declaration;
* any other variable is assigned its value where the declaration stood, be it under its own name
  or in its cell of the frame.

Two kinds of declarations leave nothing behind, `FlatScript.Lowering.losesInit`. The frame of a
task function has no values to start with, and those of constants and arrays are not assigned; and
a list of values is not assigned to a variable that is no array.

A body is lowered statement by statement, and `FlatScript.Lowering.stmtsBecome` says what that
looks like: every construct is where it was, and in the place of each declaration stands what it
has left there.

* `FlatScript.Lowering.script_sourced` is the statement on the table of functions of a script.
-/

namespace FlatScript

/-! ### Functions, later on -/

/-- **A function while its body is lowered, later on.** Declarations are added to it, and none is
taken away. -/
structure FunctionEntry.Grown (g e : FunctionEntry) : Prop where
  fn : e.fn = { g.fn with body := e.fn.body }
  globals : g.globals <+: e.globals
  locals : g.locals <+: e.locals
  frame : g.frame <+: e.frame
  substitutions : g.substitutions <:+ e.substitutions

theorem FunctionEntry.Grown.refl (e : FunctionEntry) : e.Grown e where
  fn := by
    obtain ⟨f⟩ := e
    cases f
    rfl
  globals := List.prefix_rfl
  locals := List.prefix_rfl
  frame := List.prefix_rfl
  substitutions := List.suffix_rfl

theorem FunctionEntry.Grown.trans {e e' e'' : FunctionEntry} (h : e.Grown e') (h' : e'.Grown e'') :
    e.Grown e'' where
  fn := by rw [h'.fn, h.fn]
  globals := h.globals.trans h'.globals
  locals := h.locals.trans h'.locals
  frame := h.frame.trans h'.frame
  substitutions := h.substitutions.trans h'.substitutions

namespace Lowering

/-! ### Values that are kept -/

/-- Whether a declaration starts with a list of values. -/
def listsValues (d : Declaration) : Bool :=
  match d.init with
  | some (.list _) => true
  | _ => false

/-- **Whether a declaration in the body of a function loses its values**: a constant or an array
that lives in the frame, and a list for a variable that is neither. -/
def losesInit (f : FunctionEntry) (d : Declaration) : Bool :=
  !isPromoted f d &&
    if d.isConst || d.size.isSome then f.fn.isTaskfunc && !d.hasModifier "local"
    else listsValues d

/-- **What becomes of the values that a declaration in the function `e` starts with.** The
statements are left where the declaration stood. -/
inductive Kept (e : FunctionEntry) (d : Declaration) (span : Span) (trace : List Span) :
    List Stmt → Prop
  /-- A global variable takes them along. -/
  | promoted (h : isPromoted e d = true)
    (hmem : ⟨.declare (d.withoutModifier "global"), span, trace⟩ ∈ e.globals) :
    Kept e d span trace []
  /-- A constant or an array takes them along to the declaration of its storage. -/
  | stored {name : Ident} (h : d.isConst = true ∨ d.size.isSome = true)
    (hmem : ⟨.declare { d.withoutModifier "local" with name }, span, trace⟩ ∈ e.locals) :
    Kept e d span trace []
  /-- The storage of a variable is assigned its value. -/
  | assigned {name : Ident} {value : Expr} (h : d.init = some (.single value))
    (hmem : ⟨.declare { d.withoutModifier "local" with name, init := none }, span, trace⟩ ∈
      e.locals) : Kept e d span trace [⟨.assign (.plain name) value, span, trace⟩]
  /-- The cell of a variable is assigned its value. -/
  | framed {offset : Nat} {value : Expr} (h : d.init = some (.single value))
    (hmem : e.frame[offset]? = some ⟨.declare { d with init := none }, span, trace⟩) :
    Kept e d span trace
      [⟨.assign (Frame.slot Frame.framePointer .add (offset + 1) d.name.span) value, span, trace⟩]
  /-- There is no value. -/
  | bare (h : d.init = none) : Kept e d span trace []
  /-- The values are lost. -/
  | lost (h : losesInit e d = true) : Kept e d span trace []

theorem isPromoted_grown {f e : FunctionEntry} (h : f.Grown e) (d : Declaration) :
    isPromoted e d = isPromoted f d := by
  rw [isPromoted, FunctionEntry.name, h.fn]
  rfl

theorem Kept.grown {e e' : FunctionEntry} {d : Declaration} {span : Span} {trace : List Span}
    {ss : List Stmt} (h : Kept e d span trace ss) (he : e.Grown e') : Kept e' d span trace ss := by
  have hpromoted := isPromoted_grown he d
  cases h with
  | promoted h hmem => exact .promoted (hpromoted.trans h) (he.globals.subset hmem)
  | stored h hmem => exact .stored h (he.locals.subset hmem)
  | assigned h hmem => exact .assigned h (he.locals.subset hmem)
  | @framed offset value h hmem =>
    refine .framed h ?_
    obtain ⟨more, hmore⟩ := he.frame
    obtain ⟨hlt, -⟩ := List.getElem?_eq_some_iff.mp hmem
    rw [← hmore, List.getElem?_append_left hlt, hmem]
  | bare h => exact .bare h
  | lost h =>
    refine .lost ?_
    rw [losesInit, hpromoted, he.fn]
    exact h

/-! ### Bodies with their declarations replaced -/

section Becomes

variable (env : Env) (P : List String → Declaration → Span → List Span → List Stmt → Prop)
  (K : Stmt → List Stmt → Prop)

mutual

/-- **What becomes of a statement**, where `P` tells what becomes of a declaration in families, and
`K` what becomes of an assignment or a call. -/
def stmtBecomes (families : List String) : Stmt → List Stmt → Prop
  | ⟨.declare d, span, trace⟩, ss => P families d span trace ss
  | ⟨.assign target value, span, trace⟩, ss => K ⟨.assign target value, span, trace⟩ ss
  | ⟨.call c, span, trace⟩, ss => K ⟨.call c, span, trace⟩ ss
  | ⟨.property _ _, _, _⟩, ss => ss = []
  | ⟨.synonym _ _ _, _, _⟩, ss => ss = []
  | ⟨.family name body, _, _⟩, ss => stmtsBecome (openFamily env families name) body ss
  | ⟨.whileLoop _ body, _, _⟩, ss => ∃ cond body' span trace,
    ss = [⟨.whileLoop cond body', span, trace⟩] ∧ stmtsBecome families body body'
  | ⟨.forLoop _ _ _ _ _ body, _, _⟩, ss => ∃ first cond body' last span trace,
    ss = first ++ [⟨.whileLoop cond (body' ++ last), span, trace⟩] ∧
      stmtsBecome families body body'
  | ⟨.ifChain branches otherwise, _, _⟩, ss =>
    ∃ s, ss = [s] ∧ chainBecomes families (stmtsBecome families otherwise) branches s
  | ⟨.select _ cases, _, _⟩, ss => ∃ subject cases' span trace,
    ss = [⟨.select subject cases', span, trace⟩] ∧ casesBecome families cases cases'
termination_by structural s => s

/-- **What becomes of statements.** -/
def stmtsBecome (families : List String) : List Stmt → List Stmt → Prop
  | [], ss => ss = []
  | s :: rest, ss => ∃ first rest', ss = first ++ rest' ∧ stmtBecomes families s first ∧
    stmtsBecome families rest rest'
termination_by structural ss => ss

/-- What becomes of the branches of a condition, nested into one another. -/
def chainBecomes (families : List String) (otherwise : List Stmt → Prop) : List Branch → Stmt → Prop
  | [], s => ∃ last span trace, s = ⟨.ifChain [] last, span, trace⟩ ∧ otherwise last
  | [⟨_, body⟩], s => ∃ cond body' last span trace,
    s = ⟨.ifChain [⟨cond, body'⟩] last, span, trace⟩ ∧ stmtsBecome families body body' ∧
      otherwise last
  | ⟨_, body⟩ :: rest, s => ∃ cond body' inner span trace,
    s = ⟨.ifChain [⟨cond, body'⟩] [inner], span, trace⟩ ∧ stmtsBecome families body body' ∧
      chainBecomes families otherwise rest inner
termination_by structural bs => bs

/-- What becomes of cases. -/
def casesBecome (families : List String) : List Case → List Case → Prop
  | [], cs => cs = []
  | ⟨_, _, body⟩ :: rest, cs => ∃ start stop body' rest',
    cs = ⟨start, stop, body'⟩ :: rest' ∧ stmtsBecome families body body' ∧
      casesBecome families rest rest'
termination_by structural cs => cs

end

end Becomes

/-- An assignment stays an assignment, and a call stays a call. -/
def SameKind : Stmt → List Stmt → Prop
  | ⟨.assign _ _, span, trace⟩, ss => ∃ target value, ss = [⟨.assign target value, span, trace⟩]
  | ⟨.call _, span, trace⟩, ss => ∃ c, ss = [⟨.call c, span, trace⟩]
  | _, _ => False

/-! ### Functions of the source -/

mutual

/-- The functions of the properties in a statement. -/
def stmtFunctions : Stmt → List FunctionDef
  | ⟨.property _ functions, _, _⟩ => nestedFunctions functions
  | ⟨.family _ body, _, _⟩ | ⟨.whileLoop _ body, _, _⟩ | ⟨.forLoop _ _ _ _ _ body, _, _⟩ =>
    stmtsFunctions body
  | ⟨.ifChain branches otherwise, _, _⟩ => branchesFunctions branches ++ stmtsFunctions otherwise
  | ⟨.select _ cases, _, _⟩ => casesFunctions cases
  | ⟨.synonym _ _ _, _, _⟩ | ⟨.declare _, _, _⟩ | ⟨.assign _ _, _, _⟩ | ⟨.call _, _, _⟩ => []

/-- The functions of the properties in statements. -/
def stmtsFunctions : List Stmt → List FunctionDef
  | [] => []
  | s :: ss => stmtFunctions s ++ stmtsFunctions ss

/-- The functions of the properties in branches. -/
def branchesFunctions : List Branch → List FunctionDef
  | [] => []
  | ⟨_, body⟩ :: rest => stmtsFunctions body ++ branchesFunctions rest

/-- The functions of the properties in cases. -/
def casesFunctions : List Case → List FunctionDef
  | [] => []
  | ⟨_, _, body⟩ :: rest => stmtsFunctions body ++ casesFunctions rest

/-- Functions, with those of the properties in their bodies. -/
def nestedFunctions : List FunctionDef → List FunctionDef
  | [] => []
  | ⟨name, params, result, body, isTaskfunc, isOverride, span⟩ :: rest =>
    ⟨name, params, result, body, isTaskfunc, isOverride, span⟩ ::
      (stmtsFunctions body ++ nestedFunctions rest)

end

/-- The functions that are written in a block, those of properties among them. -/
def blockFunctions : Block → List FunctionDef
  | .callback c => stmtsFunctions c.body
  | .function f => f :: stmtsFunctions f.body

/-! ### The table of functions -/

/-- **What becomes of a declaration in the body of `e`**: it is resolved as the references that
stand there are, when the function is what it is by then, and its values are kept. -/
def Resettled (env : Env) (written : List String) (e : FunctionEntry) (families : List String)
    (d : Declaration) (span : Span) (trace : List Span) (ss : List Stmt) : Prop :=
  ∃ g : FunctionEntry, g.Grown e ∧
    Kept e (lowered (refsOf env written (some g)) families d) span trace ss

/-- **A function of the table comes from the source**: it is one of the given functions, up to its
name, with its body lowered; or it declares nothing, because it belongs to a property that stands
for a variable. -/
def Sourced (env : Env) (written : List String) (functions : List FunctionDef) (e : FunctionEntry) :
    Prop :=
  (∃ f ∈ functions, e.fn = { f with name := e.fn.name, body := e.fn.body } ∧
    stmtsBecome env (Resettled env written e) SameKind [] f.body e.fn.body) ∨
  e.globals = [] ∧ e.locals = [] ∧ e.frame = []

/-- What is known of the state of lowering. -/
structure Tabled (env : Env) (written : List String) (functions : List FunctionDef) (s : State) :
    Prop where
  table : ∀ e ∈ s.program.functions, Sourced env written functions e
  written : s.program.writtenNames = written

variable {env : Env} {written : List String} {functions : List FunctionDef}

/-- **A step of lowering and what it gives**, told by the function around as it is from then on. -/
def Settles (env : Env) (written : List String) (functions : List FunctionDef) {α : Type}
    (x : Lower α) (Q : FunctionEntry → α → Prop) : Prop :=
  ∀ s a s', Tabled env written functions s → x.run s = .ok (a, s') →
    Tabled env written functions s' ∧
      ∀ f ∈ s.current, ∃ f' ∈ s'.current, f.Grown f' ∧ ∀ e, f'.Grown e → Q e a

namespace Settles

variable {α β : Type} {x : Lower α} {f : α → Lower β} {P : FunctionEntry → α → Prop}
  {Q : FunctionEntry → β → Prop}

theorem ret {b : β} (h : ∀ e, Q e b) : Settles env written functions (pure b : Lower β) Q := by
  intro s a s' hs hrun
  cases hrun
  exact ⟨hs, fun f hf => ⟨f, hf, .refl f, fun e _ => h e⟩⟩

theorem bind (hx : Settles env written functions x P)
    (hf : ∀ a, Settles env written functions (f a) fun e b => P e a → Q e b) :
    Settles env written functions (x >>= f) Q := by
  intro s b s'' hs hrun
  obtain ⟨a, s', hrunx, hrunf⟩ := StateT.bind_eq_ok.mp hrun
  obtain ⟨hs', hP⟩ := hx s a s' hs hrunx
  obtain ⟨hs'', hQ⟩ := hf a s' b s'' hs' hrunf
  refine ⟨hs'', fun g hg => ?_⟩
  obtain ⟨g', hg', hgrown, hPg⟩ := hP g hg
  obtain ⟨g'', hg'', hgrown', hQg⟩ := hQ g' hg'
  exact ⟨g'', hg'', hgrown.trans hgrown', fun e he => hQg e he (hPg e (hgrown'.trans he))⟩

theorem imp {Q' : FunctionEntry → β → Prop} {y : Lower β} (hy : Settles env written functions y Q)
    (h : ∀ e b, Q e b → Q' e b) : Settles env written functions y Q' := by
  intro s b s' hs hrun
  obtain ⟨hs', hQ⟩ := hy s b s' hs hrun
  refine ⟨hs', fun g hg => ?_⟩
  obtain ⟨g', hg', hgrown, hQg⟩ := hQ g hg
  exact ⟨g', hg', hgrown, fun e he => h e b (hQg e he)⟩

/-- A step that changes neither the functions nor the names, in front of another one. -/
theorem behind (hx : ∀ s a s', x.run s = .ok (a, s') → s'.current = s.current ∧
      s'.program.functions = s.program.functions ∧
      s'.program.writtenNames = s.program.writtenNames)
    (hf : ∀ a, Settles env written functions (f a) Q) :
    Settles env written functions (x >>= f) Q := by
  refine bind (P := fun _ _ => True) ?_ fun a => (hf a).imp fun _ _ h _ => h
  intro s a s' hs hrun
  obtain ⟨hcurrent, hfunctions, hwritten⟩ := hx s a s' hrun
  refine ⟨⟨hfunctions ▸ hs.table, hwritten.trans hs.written⟩, fun g hg => ?_⟩
  exact ⟨g, hcurrent ▸ hg, .refl g, fun _ _ => trivial⟩

theorem behind_refs {g : Refs → Lower β} (hg : ∀ r, Settles env written functions (g r) Q) :
    Settles env written functions (refs env >>= g) Q := by
  refine behind ?_ hg
  intro s r s' hrun
  rw [refs_run] at hrun
  cases hrun
  exact ⟨rfl, rfl, rfl⟩

theorem behind_symbols {m : Symbols → Symbols} {g : Unit → Lower β}
    (hg : Settles env written functions (g ()) Q) :
    Settles env written functions (modifySymbols m >>= g) Q := by
  refine behind ?_ fun _ => hg
  intro s r s' hrun
  cases hrun
  exact ⟨rfl, rfl, rfl⟩

theorem behind_lift {z : Except CompileError α} (hf : ∀ a, Settles env written functions (f a) Q) :
    Settles env written functions ((liftM z : Lower α) >>= f) Q := by
  refine behind ?_ hf
  intro s r s' hrun
  obtain ⟨-, rfl⟩ := StateT.lift_eq_ok.mp hrun
  exact ⟨rfl, rfl, rfl⟩

end Settles

/-! ### Declarations -/

/-- What a local variable starts with is split off, unless it is a constant or an array. -/
theorem splitInit_cases (target : VarRef) (d : Declaration) :
    (d.isConst || d.size.isSome) = true ∧ splitInit target d = ([], d) ∨
    (d.isConst || d.size.isSome) = false ∧
      ((∃ value, d.init = some (.single value) ∧
          splitInit target d = ([.assign target value], { d with init := none })) ∨
        (d.init = none ∨ listsValues d = true) ∧
          splitInit target d = ([], { d with init := none })) := by
  unfold splitInit
  cases hkind : d.isConst || d.size.isSome with
  | true => exact .inl ⟨rfl, if_pos rfl⟩
  | false =>
    refine .inr ⟨rfl, ?_⟩
    rw [if_neg Bool.false_ne_true]
    cases hinit : d.init with
    | none => exact .inr ⟨.inl rfl, rfl⟩
    | some i =>
      cases i with
      | single value => exact .inl ⟨value, rfl, rfl⟩
      | list values => exact .inr ⟨.inr (by rw [listsValues, hinit]), rfl⟩

section Declarations

variable {f : FunctionEntry} {d : Declaration} (span : Span) (trace : List Span)

/-- A declaration without values, or with a list of them that is lost. -/
theorem Kept.of_none {e : FunctionEntry} (hpromoted : isPromoted e d = false)
    (hkind : (d.isConst || d.size.isSome) = false) (h : d.init = none ∨ listsValues d = true) :
    Kept e d span trace [] := by
  rcases h with hnone | hlist
  · exact .bare hnone
  · refine .lost ?_
    rw [losesInit, hpromoted, hkind, if_neg Bool.false_ne_true, hlist]
    rfl

/-- **A local variable of a frame.** -/
theorem addFrameLocal_kept (hpromoted : isPromoted f d = false)
    (hframe : (f.fn.isTaskfunc && !d.hasModifier "local") = true) :
    f.Grown (addFrameLocal f d span trace).2 ∧
      Kept (addFrameLocal f d span trace).2 d span trace (addFrameLocal f d span trace).1 := by
  have hgrown : f.Grown (addFrameLocal f d span trace).2 :=
    { FunctionEntry.Grown.refl f with
      frame := List.prefix_append _ _
      substitutions := List.suffix_cons _ _ }
  refine ⟨hgrown, ?_⟩
  have hpromoted' := (isPromoted_grown hgrown d).trans hpromoted
  -- A constant or an array loses its value here, and anything else is assigned to its cell.
  rcases splitInit_cases
      (Frame.slot Frame.framePointer .add (f.frame.length + 1) d.name.span) d with
    ⟨hkind, hsplit⟩ | ⟨hkind, ⟨value, hinit, hsplit⟩ | ⟨hnone, hsplit⟩⟩
  · have hlost : losesInit (addFrameLocal f d span trace).2 d = true := by
      rw [losesInit, hpromoted', hkind, if_pos rfl]
      exact hframe
    have hout : (addFrameLocal f d span trace).1 = [] := by
      rw [addFrameLocal, hsplit]
      rfl
    rw [hout]
    exact .lost hlost
  · have hout : (addFrameLocal f d span trace).1 =
        [⟨.assign (Frame.slot Frame.framePointer .add (f.frame.length + 1) d.name.span) value,
          span, trace⟩] := by
      rw [addFrameLocal, hsplit]
      rfl
    rw [hout]
    refine .framed hinit ?_
    rw [addFrameLocal, hsplit]
    simp only [List.getElem?_concat_length]
  · have hout : (addFrameLocal f d span trace).1 = [] := by
      rw [addFrameLocal, hsplit]
      rfl
    rw [hout]
    exact .of_none span trace hpromoted' hkind hnone

/-- **A local variable with a name of its own.** -/
theorem addRenamedLocal_kept (unique : String) (hpromoted : isPromoted f d = false) :
    f.Grown (addRenamedLocal f unique d span trace).2 ∧
      Kept (addRenamedLocal f unique d span trace).2 d span trace
        (addRenamedLocal f unique d span trace).1 := by
  have hgrown : f.Grown (addRenamedLocal f unique d span trace).2 :=
    { FunctionEntry.Grown.refl f with
      locals := List.prefix_append _ _
      substitutions := List.suffix_cons _ _ }
  refine ⟨hgrown, ?_⟩
  have hpromoted' := (isPromoted_grown hgrown d).trans hpromoted
  have hconst : (d.withoutModifier "local").isConst = d.isConst := by
    simp [Declaration.isConst, Declaration.hasModifier, Declaration.withoutModifier]
  -- A constant or an array keeps its value in the declaration, and anything else is assigned to.
  rcases splitInit_cases (VarRef.plain (Ident.fixed unique d.name.span))
      { d.withoutModifier "local" with name := Ident.fixed unique d.name.span } with
    ⟨hkind, hsplit⟩ | ⟨hkind, ⟨value, hinit, hsplit⟩ | ⟨hnone, hsplit⟩⟩
  · have hout : (addRenamedLocal f unique d span trace).1 = [] := by
      rw [addRenamedLocal, hsplit]
      rfl
    rw [hout]
    have hkind' : d.isConst = true ∨ d.size.isSome = true := by
      rw [← hconst]
      exact Bool.or_eq_true _ _ |>.mp hkind
    refine @Kept.stored _ _ _ _ (Ident.fixed unique d.name.span) hkind' ?_
    rw [addRenamedLocal, hsplit]
    exact List.mem_append_right _ (List.mem_singleton.mpr rfl)
  · have hout : (addRenamedLocal f unique d span trace).1 =
        [⟨.assign (.plain (Ident.fixed unique d.name.span)) value, span, trace⟩] := by
      rw [addRenamedLocal, hsplit]
      rfl
    rw [hout]
    refine .assigned hinit ?_
    rw [addRenamedLocal, hsplit]
    exact List.mem_append_right _ (List.mem_singleton.mpr rfl)
  · have hout : (addRenamedLocal f unique d span trace).1 = [] := by
      rw [addRenamedLocal, hsplit]
      rfl
    rw [hout]
    have hkind' : (d.isConst || d.size.isSome) = false := by
      rw [← hconst]
      exact hkind
    exact .of_none span trace hpromoted' hkind' hnone

end Declarations

theorem declaration_settles (families : List String) (d : Declaration) (span : Span)
    (trace : List Span) : Settles env written functions (declaration env families d span trace)
      fun e ss => Resettled env written e families d span trace ss := by
  intro s ss s' hs hrun
  rw [declaration_run] at hrun
  obtain ⟨p, current⟩ := s
  have hwritten : p.writtenNames = written := hs.written
  cases current with
  | none =>
    cases hrun
    exact ⟨⟨hs.table, hs.written⟩, by simp⟩
  | some f =>
    dsimp only at hrun
    rw [hwritten, declareIn_run] at hrun
    generalize hd : lowered (refsOf env written (some f)) families d = d₁ at hrun
    -- one lemma tells what becomes of the values, and the function may still grow
    have hsettled : ∀ {f' : FunctionEntry}, f.Grown f' → Kept f' d₁ span trace ss →
        ∃ f'' ∈ some f', f.Grown f'' ∧ ∀ e, f''.Grown e →
          Resettled env written e families d span trace ss := by
      intro f' hgrown hkept
      refine ⟨f', rfl, hgrown, fun e he => ⟨f, hgrown.trans he, ?_⟩⟩
      rw [hd]
      exact hkept.grown he
    split at hrun
    · next hpromoted =>
      cases hrun
      refine ⟨⟨hs.table, hs.written⟩, ?_⟩
      rintro _ ⟨⟩
      have hgrown : f.Grown { f with globals :=
          f.globals ++ [⟨.declare (d₁.withoutModifier "global"), span, trace⟩] } :=
        { FunctionEntry.Grown.refl f with globals := List.prefix_append _ _ }
      refine hsettled hgrown (.promoted ?_ (List.mem_append_right _ (List.mem_singleton.mpr rfl)))
      rw [isPromoted_grown hgrown]
      exact hpromoted
    · next hpromoted =>
      rw [Bool.not_eq_true] at hpromoted
      split at hrun
      · cases hrun
      · dsimp only at hrun
        have hnoted : f.Grown { f with localNames := f.localNames ++ [Text.lower d₁.name.name] } :=
          { FunctionEntry.Grown.refl f with }
        have hpromoted' := (isPromoted_grown hnoted d₁).trans hpromoted
        split at hrun
        · next hframe =>
          cases hrun
          refine ⟨⟨hs.table, hs.written⟩, ?_⟩
          rintro _ ⟨⟩
          obtain ⟨hgrown, hkept⟩ := addFrameLocal_kept span trace hpromoted' hframe
          exact hsettled (hnoted.trans hgrown) hkept
        · cases hrun
          refine ⟨⟨hs.table, hs.written⟩, ?_⟩
          rintro _ ⟨⟩
          obtain ⟨hgrown, hkept⟩ := addRenamedLocal_kept span trace (storageName p d₁) hpromoted'
          exact hsettled (hnoted.trans hgrown) hkept

/-! ### Functions -/

/-- **A function is entered**, when its body makes a function that comes from the source. -/
theorem functionWith_settles {f : FunctionDef} {body : Lower (List Stmt)}
    (hbody : ∀ s ss s', Tabled env written functions s → s.current = some (opened env f) →
      body.run s = .ok (ss, s') → Tabled env written functions s' ∧
        ∀ e ∈ s'.current, Sourced env written functions
          { e with fn := { e.fn with body := ss } }) :
    Settles env written functions (functionWith env f body) fun _ _ => True := by
  intro s a s' hs hrun
  rw [functionWith_run] at hrun
  split at hrun
  · cases hrun
  split at hrun
  · cases hrun
    exact ⟨hs, fun f hf => ⟨f, hf, .refl f, fun _ _ => trivial⟩⟩
  · cases hrun
  · obtain ⟨⟨ss, p, current⟩, hrunbody, h⟩ := Except.bind_eq_ok.mp hrun
    obtain ⟨hp, hsourced⟩ := hbody ⟨s.program, some (opened env f)⟩ ss ⟨p, current⟩
      ⟨hs.table, hs.written⟩ rfl hrunbody
    cases current with
    | none => cases h
    | some e =>
      cases h
      refine ⟨⟨fun e' he' => ?_, (enter_writtenNames _ _).trans hp.written⟩, fun f hf =>
        ⟨f, hf, .refl f, fun _ _ => trivial⟩⟩
      rcases Scheme.mem_functions_enter he' with rfl | he'
      · exact hsourced e rfl
      · exact hp.table e' he'

/-- A function that is written in the source is entered, under whatever name. -/
theorem functionWith_settles_of_mem {f g : FunctionDef} (hf : f ∈ functions)
    (hg : g = { f with name := g.name, body := g.body })
    (hbody : Settles env written functions (stmts env [] f.body)
      fun e ss => stmtsBecome env (Resettled env written e) SameKind [] f.body ss) :
    Settles env written functions (functionWith env g (stmts env [] f.body)) fun _ _ => True := by
  refine functionWith_settles fun s ss s' hs hcurrent hrun => ?_
  obtain ⟨hs', hgrown⟩ := hbody s ss s' hs hrun
  refine ⟨hs', fun e he => .inl ⟨f, hf, ?_⟩⟩
  obtain ⟨e', he', hopened, hlowered⟩ := hgrown _ hcurrent
  obtain rfl := Option.mem_unique he he'
  have hclosed : e.Grown { e with fn := { e.fn with body := ss } } :=
    { FunctionEntry.Grown.refl e with fn := rfl }
  refine ⟨?_, hlowered _ hclosed⟩
  have hfn := hopened.fn
  simp only [opened] at hfn
  rw [hfn, hg]

/-- The functions of a property that stands for a variable declare nothing. -/
theorem synonym_settles (property : String) (indices : List Ident) (target : VarRef) (span : Span) :
    Settles env written functions (synonym env property indices target span) fun _ _ => True := by
  have hassign (t : VarRef) (v : Expr) (f : FunctionDef) :
      Settles env written functions
        (functionWith env f do return [← assignment env t v span []]) fun _ _ => True := by
    refine functionWith_settles fun s ss s' hs hcurrent hrun => ?_
    cases hrun
    refine ⟨hs, fun e he => .inr ?_⟩
    rw [hcurrent] at he
    cases he
    exact ⟨rfl, rfl, rfl⟩
  exact (hassign _ _ _).bind fun _ => (hassign _ _ _).imp fun _ _ h _ => h

/-! ### Statements -/

theorem assignment_settles (target : VarRef) (value : Expr) (span : Span) (trace : List Span) :
    Settles env written functions (assignment env target value span trace)
      fun _ s => ∃ target value, s = ⟨.assign target value, span, trace⟩ :=
  .behind_refs fun _ => .ret fun _ => ⟨_, _, rfl⟩

theorem stepStmt_settles (var : VarRef) (step : Option Expr) (downto : Bool) (span : Span)
    (trace : List Span) :
    Settles env written functions (stepStmt env var step downto span trace) fun _ _ => True :=
  .behind_refs fun _ => .ret fun _ => trivial

mutual

theorem stmt_settles (families : List String) : ∀ (s : Stmt), stmtFunctions s ⊆ functions →
    Settles env written functions (stmt env families s)
      fun e ss => stmtBecomes env (Resettled env written e) SameKind families s ss
  | ⟨.declare d, span, trace⟩, _ => by
    simp only [stmt, stmtBecomes]
    exact declaration_settles families d span trace
  | ⟨.assign target value, span, trace⟩, _ => by
    simp only [stmt, stmtBecomes]
    refine (assignment_settles target value span trace).bind fun s => .ret fun _ => ?_
    rintro ⟨target', value', rfl⟩
    exact ⟨target', value', rfl⟩
  | ⟨.call c, span, trace⟩, _ => by
    simp only [stmt, stmtBecomes]
    exact .behind_refs fun r => .ret fun _ => ⟨_, rfl⟩
  | ⟨.synonym name indices target, span, trace⟩, _ => by
    simp only [stmt, stmtBecomes]
    exact (synonym_settles _ indices target span).bind fun _ =>
      .behind_symbols (.ret fun _ _ => rfl)
  | ⟨.property name fs, span, trace⟩, h => by
    simp only [stmt, stmtBecomes]
    refine .behind_lift fun _ => ?_
    exact (accessors_settles _ fs h).bind fun _ => .behind_symbols (.ret fun _ _ => rfl)
  | ⟨.family name body, span, trace⟩, h => by
    simp only [stmt, stmtBecomes]
    exact .behind_symbols (stmts_settles _ body h)
  | ⟨.whileLoop cond body, span, trace⟩, h => by
    simp only [stmt, stmtBecomes]
    refine .behind_refs fun r => (stmts_settles families body h).bind fun body' => ?_
    exact .ret fun _ hbody => ⟨_, body', span, trace, rfl, hbody⟩
  | ⟨.forLoop var start stop step downto body, span, trace⟩, h => by
    simp only [stmt, stmtBecomes]
    -- The loop becomes an assignment and a loop whose body ends with a step.
    refine (assignment_settles var start span trace).bind fun first => .behind_refs fun r => ?_
    refine (stmts_settles families body h).bind fun body' => ?_
    refine (stepStmt_settles var step downto span trace).bind fun last => .ret fun _ _ hbody _ => ?_
    exact ⟨[first], _, body', [last], span, trace, rfl, hbody⟩
  | ⟨.ifChain branches otherwise, span, trace⟩, h => by
    simp only [stmt, stmtBecomes]
    simp only [stmtFunctions, List.append_subset] at h
    refine (chain_settles families span trace (stmts_settles families otherwise h.2) branches
      h.1).bind fun s => .ret fun _ hs => ⟨s, rfl, hs⟩
  | ⟨.select subject cs, span, trace⟩, h => by
    simp only [stmt, stmtBecomes]
    refine .behind_refs fun r => (cases_settles families cs h).bind fun cs' => .ret fun _ hcs => ?_
    exact ⟨_, cs', span, trace, rfl, hcs⟩

/-- **Statements are lowered one by one.** -/
theorem stmts_settles (families : List String) : ∀ (ss : List Stmt), stmtsFunctions ss ⊆ functions →
    Settles env written functions (stmts env families ss)
      fun e ss' => stmtsBecome env (Resettled env written e) SameKind families ss ss'
  | [], _ => by
    simp only [stmts, stmtsBecome]
    exact .ret fun _ => rfl
  | s :: ss, h => by
    simp only [stmts, stmtsBecome]
    simp only [stmtsFunctions, List.append_subset] at h
    refine (stmt_settles families s h.1).bind fun first => ?_
    exact (stmts_settles families ss h.2).bind fun rest => .ret fun _ hrest hfirst =>
      ⟨first, rest, rfl, hfirst, hrest⟩

theorem chain_settles (families : List String) (span : Span) (trace : List Span)
    {otherwise : Lower (List Stmt)} {P : FunctionEntry → List Stmt → Prop}
    (ho : Settles env written functions otherwise P) :
    ∀ (bs : List Branch), branchesFunctions bs ⊆ functions →
      Settles env written functions (chain env families span trace otherwise bs)
        fun e s => chainBecomes env (Resettled env written e) SameKind families (P e) bs s
  | [], _ => by
    simp only [chain, chainBecomes]
    exact ho.bind fun last => .ret fun _ hlast => ⟨last, span, trace, rfl, hlast⟩
  | [⟨cond, body⟩], h => by
    simp only [chain, chainBecomes]
    simp only [branchesFunctions, List.append_subset] at h
    refine .behind_refs fun r => (stmts_settles families body h.1).bind fun body' => ?_
    exact ho.bind fun last => .ret fun _ hlast hbody =>
      ⟨_, body', last, span, trace, rfl, hbody, hlast⟩
  | ⟨cond, body⟩ :: b :: rest, h => by
    simp only [chain, chainBecomes]
    rw [branchesFunctions, List.append_subset] at h
    refine .behind_refs fun r => (stmts_settles families body h.1).bind fun body' => ?_
    exact (chain_settles families span trace ho (b :: rest) h.2).bind fun inner =>
      .ret fun _ hinner hbody => ⟨_, body', inner, span, trace, rfl, hbody, hinner⟩

theorem cases_settles (families : List String) : ∀ (cs : List Case), casesFunctions cs ⊆ functions →
    Settles env written functions (cases env families cs)
      fun e cs' => casesBecome env (Resettled env written e) SameKind families cs cs'
  | [], _ => by
    simp only [cases, casesBecome]
    exact .ret fun _ => rfl
  | ⟨start, stop, body⟩ :: rest, h => by
    simp only [cases, casesBecome]
    simp only [casesFunctions, List.append_subset] at h
    refine .behind_refs fun r => (stmts_settles families body h.1).bind fun body' => ?_
    exact (cases_settles families rest h.2).bind fun rest' => .ret fun _ hrest hbody =>
      ⟨_, _, body', rest', rfl, hbody, hrest⟩

theorem accessors_settles (property : String) :
    ∀ (fs : List FunctionDef), nestedFunctions fs ⊆ functions →
      Settles env written functions (accessors env property fs) fun _ _ => True
  | [], _ => by
    simp only [accessors]
    exact .ret fun _ => trivial
  | ⟨name, params, result, body, isTaskfunc, isOverride, span⟩ :: rest, h => by
    simp only [accessors]
    simp only [nestedFunctions, List.cons_subset, List.append_subset] at h
    refine (functionWith_settles_of_mem h.1 rfl (stmts_settles [] body h.2.1)).bind fun _ => ?_
    exact (accessors_settles property rest h.2.2).imp fun _ _ h _ => h

end

/-! ### Scripts -/

theorem blocks_settles : ∀ (bs : List Block), (∀ b ∈ bs, blockFunctions b ⊆ functions) →
    Settles env written functions (blocks env bs) fun _ _ => True
  | [], _ => .ret fun _ => trivial
  | .callback c :: rest, h => by
    simp only [blocks]
    obtain ⟨hc, hrest⟩ := List.forall_mem_cons.mp h
    refine .behind_refs fun r => (stmts_settles [] c.body hc).bind fun body => ?_
    exact (blocks_settles rest hrest).bind fun rest' => .ret fun _ _ _ => trivial
  | .function f :: rest, h => by
    simp only [blocks]
    obtain ⟨hf, hrest⟩ := List.forall_mem_cons.mp h
    simp only [blockFunctions, List.cons_subset] at hf
    refine (functionWith_settles_of_mem hf.1 ?_ (stmts_settles [] f.body hf.2)).bind fun _ => ?_
    · cases f
      rfl
    · exact (blocks_settles rest hrest).imp fun _ _ h _ => h

/-- **Every function of the table comes from the source**, and the values that its variables start
with are kept where lowering keeps them. -/
theorem script_sourced {s s' : Script} {p' : Program}
    (h : (script env s).run {} = .ok (s', p')) :
    ∀ e ∈ p'.functions, Sourced env p'.writtenNames (s.blocks.flatMap blockFunctions) e := by
  unfold script at h
  simp only [StateT.run_bind, StateT.run_get, pure_bind] at h
  obtain ⟨⟨⟨bs, state⟩, p₁⟩, hrun, h⟩ := Except.bind_eq_ok.mp h
  cases h
  obtain ⟨hblocks, -⟩ := StateT.lift_eq_ok.mp hrun
  have hsource : ∀ b ∈ initFirst s.blocks, blockFunctions b ⊆ s.blocks.flatMap blockFunctions := by
    intro b hb
    rcases Scheme.mem_initFirst hb with hb | rfl
    · exact fun f hf => List.mem_flatMap.mpr ⟨b, hb, hf⟩
    · exact List.nil_subset _
  obtain ⟨hstate, -⟩ := blocks_settles _ hsource _ _ _ ⟨by simp, rfl⟩ hblocks
  rw [hstate.written]
  exact hstate.table

end Lowering

end FlatScript
