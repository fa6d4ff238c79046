import FlatScript.Proofs.Characters
import FlatScript.Proofs.Hoisting
import FlatScript.Proofs.Inlining.Properties
import FlatScript.Proofs.Lowering.Synonyms

/-!
# Properties that stand for variables, from their declarations on

A property that the init callback declares for a variable has two functions in the table, once the
script has been lowered and its references have their sigils. Whatever expansion does to the table,
they stay what they are. So wherever such a property is used, the variable can be used as well.

* `FlatScript.SynonymIn` is what is asked of the declaration.
* `FlatScript.synonym_transparent` is the statement on the uses.

The names of the indices, of the variable and of the arguments must not get into each other's way:
`FlatScript.Inlining.NamesApart` and `FlatScript.Inlining.Suits` say how. And a call that is written
to the property is an argument there, which makes a difference, by `FlatScript.resultText_differs`.
-/

namespace FlatScript

open Inlining

variable {env : Env} {y y₁ y₂ : Script} {p p' p₁ p₂ : Program} {property : String}
  {indices : List Ident} {target : VarRef}

/-! ### Declarations -/

/-- **A property that the init callback declares for a variable.** Nothing else is entered under the
names of its two functions, and what is written for the variable means `target` in both of them,
when `p` is what the script has been lowered to. -/
structure SynonymIn (env : Env) (y : Script) (p : Program) (property : String)
    (indices : List Ident) (target : VarRef) : Prop where
  declared : ∃ written span, Lowering.DeclaresSynonym env y property indices written span ∧
    ∀ f ∈ [Lowering.synonymGetter property indices span,
        Lowering.synonymSetter property indices span],
      Sigils.varRef env p ⟨f.paramNames, []⟩ (Lowering.varRef
        (Lowering.refsOf env p.writtenNames (some (Lowering.opened env f))) written) = .ok target
  once : Lowering.EntersOnce (Lowering.blocksFootprint env (Lowering.initFirst y.blocks)) property
  bare : (Sigil.split property).1 = none
  builtins : ∀ name ∈ Lowering.accessorNames property ++ invented,
    env.builtins.isFunction name = false

/-! ### The table -/

/-- A function without declarations stays what it is. -/
theorem Program.Defines.grows {name : String} {f : FunctionDef} (h : p.Defines name f)
    (hp : p.Grows p') : p'.Defines name f := by
  obtain ⟨e, he, hfn, hglobals, hlocals⟩ := h
  obtain ⟨e', he', hentry⟩ := hp.exists_after he
  refine ⟨e', he', hentry.fn.trans hfn, ?_⟩
  rcases hentry.decls with ⟨hglobals', hlocals'⟩ | hnone
  · exact ⟨hglobals'.trans hglobals, hlocals'.trans hlocals⟩
  · exact hnone

theorem Program.StandsFor.grows (h : p.StandsFor property indices target) (hp : p.Grows p') :
    p'.StandsFor property indices target := by
  obtain ⟨span, hgetter⟩ := h.getter
  obtain ⟨span', hsetter⟩ := h.setter
  exact ⟨⟨span, hgetter.grows hp⟩, span', hsetter.grows hp⟩

/-- **The table that expansion starts with** is orderly, if the script is as it was written. -/
theorem orderly_of_script (hwritten : ∀ b ∈ y.blocks, bodyMeets uncopied b.body)
    (hlower : (Lowering.script env y).run {} = .ok (y₁, p₁))
    (hsigils : (Sigils.script env y₁).run p₁ = .ok (y₂, p₂)) : Orderly p₂ where
  toReady := Sigils.script_ready (Lowering.script_ready hlower) hsigils
  decls e he := by
    have hentry := ((uncopied_of_lowering hwritten hlower).sigils hsigils).functions e he
    exact hentry.globals.append hentry.locals

/-- **A property that the init callback declares stands for its variable**, however far expansion
has come. -/
theorem SynonymIn.synonym (h : SynonymIn env y p₁ property indices target)
    (hwritten : ∀ b ∈ y.blocks, bodyMeets uncopied b.body)
    (hlower : (Lowering.script env y).run {} = .ok (y₁, p₁))
    (hsigils : (Sigils.script env y₁).run p₁ = .ok (y₂, p₂)) (hp : p₂.Grows p) {i : Ident}
    (hsigil : i.sigil = none) (hname : i.name = property) {loose : List String}
    {handles : List (Spelling × Ident)}
    (hapart : NamesApart env p (indices.map Ident.spelling) loose handles target) :
    Synonym env p i indices loose handles target := by
  subst hname
  obtain ⟨written, span, hdeclares, hmeans⟩ := h.declared
  have hsynonymous := Lowering.script_synonymous hlower hdeclares h.bare h.once
    fun n hn => h.builtins n (List.mem_append_right _ hn)
  obtain ⟨-, functions, hsame, -⟩ := Sigils.script_run hsigils
  have hsymbols : p.symbols = p₁.symbols := hp.symbols.trans (hsame ▸ rfl)
  refine ⟨(orderly_of_script hwritten hlower hsigils).grows hp, ?_, hapart, ?_, ?_, ?_⟩
  · exact (hsynonymous.standsFor hsigils (hmeans _ (by simp)) (hmeans _ (by simp))).grows hp
  · have hknown := hsynonymous.known
    simp [isPropertyRef, hsigil, hsymbols, Symbols.isProperty, hknown]
  · rw [Program.isBuiltinCall, h.builtins _ (by simp [Lowering.accessorNames]), Bool.false_and]
  · rw [Program.isBuiltinCall, h.builtins _ (by simp [Lowering.accessorNames]), Bool.false_and]

/-! ### Uses -/

/-- **A property that stands for a variable is transparent.** Let it be declared in the init
callback of a script, and let expansion have come to `p`. An assignment from the property comes to
the same as the one from the variable, with the arguments in the places of the indices. So does an
assignment to the property, if the value is not a call of a function of the script. -/
theorem synonym_transparent (hwritten : ∀ b ∈ y.blocks, bodyMeets uncopied b.body)
    (hlower : (Lowering.script env y).run {} = .ok (y₁, p₁))
    (hsigils : (Sigils.script env y₁).run p₁ = .ok (y₂, p₂))
    (h : SynonymIn env y p₁ property indices target) (hp : p₂.Grows p) {i : Ident}
    (hsigil : i.sigil = none) (hname : i.name = property) {loose : List String}
    {handles : List (Spelling × Ident)} {es : List Expr} {at' : Place}
    (hapart : NamesApart env p (indices.map Ident.spelling) loose handles target)
    (hstack : StackOf p at'.stack) (hget : property ++ ".get" ∉ at'.stack)
    (hset : property ++ ".set" ∉ at'.stack)
    (hsuits : Suits env p (depthBound p) at' (indices.map Ident.spelling) loose handles es)
    (hes : ∀ e ∈ es, Passable env p (depthBound p) at' e) :
    (∀ x span span' trace, isPropertyRef p x.ident = false →
      ComesTo env p at' (property ++ ".get") ⟨.assign x (.var i es span), span', trace⟩
        ⟨.assign x (target.fill ((indices.map Ident.spelling).zip es)).toExpr, span', trace⟩) ∧
    ∀ v span span' trace, v.asVar?.isSome = true ∨ (settled env p).expr v →
      ComesTo env p at' (property ++ ".set") ⟨.assign ⟨i, es, span⟩ v, span', trace⟩
        ⟨.assign (target.fill ((indices.map Ident.spelling).zip es)) v, span', trace⟩ := by
  subst hname
  exact (h.synonym hwritten hlower hsigils hp hsigil rfl hapart).comesTo hstack hget hset hsuits hes

/-! ### A cell whose number is in another array -/

/-- A name of the sample, as it is written. -/
def writtenName (name : String) : Ident := .ofText name default

/-- A name of the sample, with its sigil. -/
def sampleName (sigil : Option Sigil) (name : String) : Ident := ⟨sigil, name, default, true⟩

/-- The indices of the cell. -/
def cellIndices : List Ident := [writtenName "a", writtenName "b"]

/-- The cell as it is written: `t[a[b]]`. -/
def writtenCell : VarRef :=
  ⟨writtenName "t", [.var (writtenName "a") [.var (writtenName "b") [] default] default], default⟩

/-- The cell of `%t` whose number is in another array: `%t[a[b]]`. -/
def cellTarget : VarRef :=
  ⟨sampleName (some .integerArray) "t",
    [.var (sampleName none "a") [.var (sampleName none "b") [] default] default], default⟩

/-- A declaration of the sample. -/
def sampleDeclare (name : String) (size : Option Expr) : Stmt :=
  ⟨.declare ⟨.ofText name default, [], size, [], none⟩, default, []⟩

/-- A script with a property that stands for the cell. -/
def cellScript : Script where
  blocks := [.callback ⟨"init", none, [sampleDeclare "%t" (some (.int 10 default)),
    sampleDeclare "%u" (some (.int 10 default)), sampleDeclare "$x" none,
    ⟨.synonym (writtenName "q") cellIndices writtenCell, default, []⟩], default⟩]

/-- A program that knows the same names as the script when it has been lowered. -/
def cellNames : Program where
  symbols := { vars := ["%t", "%u", "$x"], properties := ["q"] }
  functions := [{ fn := synonymReader "q" cellIndices writtenCell default },
    { fn := synonymWriter "q" cellIndices writtenCell default }]

/-- The arguments of a use: an array, and a number. -/
def cellArgs : List Expr := [.var (sampleName (some .integerArray) "u") [] default, .int 2 default]

/-- The array that stands for the first index. -/
def cellHandles : List (Spelling × Ident) := [((none, "a"), sampleName (some .integerArray) "u")]

/-- The place of the use: a callback. -/
def cellPlace : Place := ⟨.callback false, [], []⟩

/-- The cell that the arguments are for: `%t[%u[2]]`. -/
def cell : VarRef := cellTarget.fill ((cellIndices.map Ident.spelling).zip cellArgs)

/-- An assignment to a variable. -/
def readCell (value : Expr) : Stmt :=
  ⟨.assign (.plain (sampleName (some .integer) "x")) value, default, []⟩

/-- An assignment of a number. -/
def writeCell (target : VarRef) : Stmt := ⟨.assign target (.int 7 default), default, []⟩

/-- The script is lowered, its references get their sigils, and two assignments are expanded. What
is left are the names that are known in between. -/
def runCell (s s' : Stmt) : Except CompileError (Symbols × List String × List String) := do
  let (y₁, p₁) ← (Lowering.script ⟨{}, .empty⟩ cellScript).run {}
  let (_, p₂) ← (Sigils.script ⟨{}, .empty⟩ y₁).run p₁
  let _ ← (expand ⟨{}, .empty⟩ cellPlace [s]).run p₂
  let _ ← (expand ⟨{}, .empty⟩ cellPlace [s']).run p₂
  return (p₁.symbols, p₁.functions.map FunctionEntry.name, p₁.writtenNames)

theorem cellScript_synonym {p : Program} (hnames : Sigils.SameNames cellNames p)
    (hwritten : p.writtenNames = []) :
    SynonymIn ⟨{}, .empty⟩ cellScript p "q" cellIndices cellTarget where
  declared := by
    refine ⟨writtenCell, default, ⟨_, [], writtenName "q", [], [], rfl, .here ?_, rfl⟩, ?_⟩
    · simp
    · rw [hwritten]
      have hmap : Sigils.leafMap ⟨{}, .empty⟩ p = Sigils.leafMap ⟨{}, .empty⟩ cellNames :=
        Sigils.leafMap_sameNames hnames
      have htarget : ∀ scope v, Sigils.varRef ⟨{}, .empty⟩ p scope v =
          Sigils.varRef ⟨{}, .empty⟩ cellNames scope v :=
        fun scope v => congrFun (congrFun (congrArg LeafMap.target hmap) scope) v
      intro f hf
      rw [htarget]
      simp only [List.mem_cons, List.not_mem_nil, or_false] at hf
      rcases hf with rfl | rfl
      · rfl
      · rfl
  once := by
    unfold Lowering.EntersOnce
    decide +kernel
  bare := by decide +kernel
  builtins := by decide +kernel

theorem cell_namesApart (p : Program) : NamesApart ⟨{}, .empty⟩ p (cellIndices.map Ident.spelling) []
    cellHandles cellTarget where
  nodup := by decide
  undotted := by decide +kernel
  own := by decide
  subset := List.nil_subset _
  sigil := rfl
  first := by decide +kernel
  subscripts := by
    refine ⟨⟨.inr ⟨_, .lent rfl ?_, fun h => ?_⟩, ⟨.inl rfl, trivial⟩, trivial⟩, trivial⟩
    · rintro ⟨⟩
    · exact absurd h (by simp [isPropertyRef, sampleName])

theorem cellArgs_suit (p : Program) (n : Nat) : Suits ⟨{}, .empty⟩ p n cellPlace
    (cellIndices.map Ident.spelling) [] cellHandles cellArgs where
  length := rfl
  firm b hb _ := by
    rcases List.mem_cons.mp hb with rfl | hb
    · exact .inl rfl
    · rcases List.mem_singleton.mp hb with rfl
      exact .inr trivial
  lent n rep h := by
    simp only [cellHandles, List.lookup_cons, List.lookup_nil] at h
    split at h
    · next hn =>
      obtain rfl := beq_iff_eq.mp hn
      cases h
      exact ⟨default, rfl⟩
    · cases h
  sigils b hb v _ := by
    rcases List.mem_cons.mp hb with rfl | hb
    · exact fun _ _ _ _ => .inl rfl
    · rcases List.mem_singleton.mp hb with rfl
      exact fun _ _ _ _ => .inl rfl

theorem cellScript_uncopied : ∀ b ∈ cellScript.blocks, bodyMeets uncopied b.body := by
  intro b hb
  obtain rfl := List.mem_singleton.mp hb
  simp [Block.body, bodyMeets, stmtsMeet, Stmt.Meets, Declaration.Meets, sampleDeclare, uncopied,
    remembers, VarRef.Meets, VarRef.toExpr, writtenCell, exprsMeet, Expr.Meets]

/-- Two assignments that expand to the same, apart from places. -/
def ExpandAlike (p : Program) (s s' : Stmt) : Prop :=
  ∃ ss q ss' q', (expand ⟨{}, .empty⟩ cellPlace [s]).run p = .ok (ss, q) ∧
    (expand ⟨{}, .empty⟩ cellPlace [s']).run p = .ok (ss', q') ∧ StmtsMatch ss ss'

theorem cellScript_transparent : ∃ y₁ p₁ y₂ p₂,
    (Lowering.script ⟨{}, .empty⟩ cellScript).run {} = .ok (y₁, p₁) ∧
    (Sigils.script ⟨{}, .empty⟩ y₁).run p₁ = .ok (y₂, p₂) ∧
    SynonymIn ⟨{}, .empty⟩ cellScript p₁ "q" cellIndices cellTarget ∧
    NamesApart ⟨{}, .empty⟩ p₂ (cellIndices.map Ident.spelling) [] cellHandles cellTarget ∧
    Suits ⟨{}, .empty⟩ p₂ (depthBound p₂) cellPlace (cellIndices.map Ident.spelling) [] cellHandles
      cellArgs ∧
    (∀ e ∈ cellArgs, Passable ⟨{}, .empty⟩ p₂ (depthBound p₂) cellPlace e) ∧
    ExpandAlike p₂ (readCell (.var (sampleName none "q") cellArgs default)) (readCell cell.toExpr) ∧
    ExpandAlike p₂ (writeCell ⟨sampleName none "q", cellArgs, default⟩) (writeCell cell) := by
  have hrun : (runCell (readCell (.var (sampleName none "q") cellArgs default))
      (writeCell ⟨sampleName none "q", cellArgs, default⟩)).toOption =
      some (cellNames.symbols, ["q.get", "q.set"], []) := by decide +kernel
  obtain ⟨⟨y₁, p₁⟩, hlower, hrun⟩ := Except.bind_eq_ok.mp (Except.toOption_eq_some.mp hrun)
  obtain ⟨⟨y₂, p₂⟩, hsigils, hrun⟩ := Except.bind_eq_ok.mp hrun
  obtain ⟨⟨ss, q⟩, hread, hrun⟩ := Except.bind_eq_ok.mp hrun
  obtain ⟨⟨ss₁, q₁⟩, hwrite, hrun⟩ := Except.bind_eq_ok.mp hrun
  obtain ⟨hsymbols, hfunctions, hnames⟩ : p₁.symbols = cellNames.symbols ∧
      p₁.functions.map FunctionEntry.name = ["q.get", "q.set"] ∧ p₁.writtenNames = [] := by
    simpa using Except.ok.inj hrun
  have hsynonym := cellScript_synonym ⟨hsymbols, hfunctions⟩ hnames
  have hpassable : ∀ e ∈ cellArgs, Passable ⟨{}, .empty⟩ p₂ (depthBound p₂) cellPlace e := by
    intro e he
    rcases List.mem_cons.mp he with rfl | he
    · exact nofun
    · rcases List.mem_singleton.mp he with rfl
      exact fun _ => ⟨_, _, rfl⟩
  have hstack : StackOf p₂ cellPlace.stack := ⟨List.nodup_nil, nofun⟩
  have hnone : ∀ name, name ∉ cellPlace.stack := fun _ => List.not_mem_nil
  obtain ⟨hreads, hwrites⟩ := synonym_transparent (i := sampleName none "q") cellScript_uncopied
    hlower hsigils hsynonym (.refl p₂) rfl rfl (cell_namesApart p₂) hstack (hnone _) (hnone _)
    (cellArgs_suit p₂ _) hpassable
  obtain ⟨ss', q', hread', hmatch⟩ := (hreads _ _ _ _ rfl).same ss q hread
  obtain ⟨ss₁', q₁', hwrite', hmatch'⟩ :=
    (hwrites (.int 7 default) _ _ _ (.inr trivial)).same ss₁ q₁ hwrite
  exact ⟨y₁, p₁, y₂, p₂, hlower, hsigils, hsynonym, cell_namesApart p₂, cellArgs_suit p₂ _,
    hpassable, ⟨ss, q, ss', q', hread, hread', hmatch⟩, ss₁, q₁, ss₁', q₁', hwrite, hwrite',
    hmatch'⟩

/-! ### Calls that are written -/

/-- A script that writes the result of a function to a variable, or to the property that stands for
it. -/
def resultText (name : String) : String :=
  "on init\ndeclare $t\ndeclare $u\nproperty q -> t\nend on\non note\n" ++ name ++
    " := f(1)\nend on\nfunction f(n) -> r\nu := n\nr := n\nend function\n"

/-- The function that a compilation stops at because its body is no single assignment. -/
def unassigned? : Except Failure Compiled → Option String
  | .error (.program (.fault (.notSingleAssignment f) _)) => some f
  | _ => none

theorem exists_of_unassigned? {r : Except Failure Compiled} {f : String}
    (h : unassigned? r = some f) :
    ∃ loc, r = .error (.program (.fault (.notSingleAssignment f) loc)) := by
  unfold unassigned? at h
  split at h
  · cases h
    exact ⟨_, rfl⟩
  · cases h

/-- **A call that is written to a property is an argument**, so its function has to be a single
assignment. Any function can be written to the variable. -/
theorem resultText_differs :
    (∃ loc, compile ⟨{}, .empty⟩ {} (resultText "q") =
      .error (.program (.fault (.notSingleAssignment "f") loc))) ∧
    ∃ c, compile ⟨{}, .empty⟩ {} (resultText "t") = .ok c ∧
      c.code = "on init\ndeclare $t\ndeclare $u\nend on\non note\n$u := 1\n$t := 1\nend on\n" := by
  set_option maxRecDepth 4000 in
  have htext : ∀ name cs, name.toList = cs → (resultText name).toList = _ := fun name cs hname =>
    Text.toList_pieces (Text.toList_pieces String.toList_ofList hname) String.toList_ofList
  have hproperty : unassigned? (compile ⟨{}, .empty⟩ {} (resultText "q")) = some "f" := by
    rw [compile_eq_ofChars _ _ (htext "q" ['q'] rfl) (by decide +kernel)]
    decide +kernel
  have hvariable : (compile ⟨{}, .empty⟩ {} (resultText "t")).toOption.map Compiled.code =
      some "on init\ndeclare $t\ndeclare $u\nend on\non note\n$u := 1\n$t := 1\nend on\n" := by
    rw [compile_eq_ofChars _ _ (htext "t" ['t'] rfl) (by decide +kernel)]
    decide +kernel
  refine ⟨exists_of_unassigned? hproperty, ?_⟩
  obtain ⟨c, hcompile, hcode⟩ := Option.map_eq_some_iff.mp hvariable
  exact ⟨c, Except.toOption_eq_some.mp hcompile, hcode⟩

end FlatScript
