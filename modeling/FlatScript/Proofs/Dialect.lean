import FlatScript.Proofs.Characters
import FlatScript.Proofs.Compaction.Table
import FlatScript.Proofs.Compilation
import FlatScript.Proofs.Controls
import FlatScript.Proofs.Flat
import FlatScript.Proofs.Folding
import FlatScript.Proofs.Inlining.Calls
import FlatScript.Proofs.Renaming

/-!
# The flat dialect

What a compilation writes is a script in a small part of the language, which
`FlatScript.Script.InDialect` describes: the init callback comes first, the statements are flat,
functions have no parameters, references have at most one subscript, and no name has a dot.

The parts of this come from different steps, and every step behind them keeps what it finds.
Statements are followed by rules; what stands in the first line of a block is its
`FlatScript.Block.Head`.

* `FlatScript.Compilation.undotted_inDialect` puts the steps up to the removal of dots together.
* `FlatScript.Script.InDialect.fold` and `FlatScript.Script.InDialect.shorten` are about the
  steps that are left to choice.
* `FlatScript.compile_inDialect` is the statement on compilations.
-/

namespace FlatScript

/-! ### The dialect -/

/-- A name without a dot. -/
def Ident.Dotless (i : Ident) : Prop := '.' ∉ i.full.toList

/-- **Statements of the flat dialect**, with names that have a property. Nothing is passed over,
not even the first arguments of functions that take a name. -/
def dialect (P : Ident → Prop) : Rule where
  expr
    | .var i subscripts _ => P i ∧ subscripts.length ≤ 1
    | .call name _ _ _ _ => P name
    | _ => True
  stmt
    | .property _ _ | .synonym _ _ _ | .forLoop _ _ _ _ _ _ | .family _ _ => False
    | .declare d => P d.name ∧ d.name.sigil.isSome = true
    | .ifChain bs _ => bs.length = 1
    | .call c => P c.name
    | _ => True
  list _ := True
  skips _ := false
  atom _ _ _ := False

/-- **What stands in the first line of a block**, but for the control of a callback. -/
inductive Block.Head where
  | callback (name : String)
  | function (name : Ident) (params : List Param)

namespace Block

/-- The first line of a block. -/
def head : Block → Head
  | callback c => .callback c.name
  | function f => .function f.name f.params

/-- The name by which the function of a first line is found. -/
def Head.functionName? : Head → Option String
  | callback _ => none
  | function name _ => some name.name

/-- The first line with the name of the function changed. -/
def Head.rename (f : Ident → Ident) : Head → Head
  | callback name => .callback name
  | function name params => .function (f name) params

/-- The control of a block, if it is a callback at one. -/
def control? : Block → Option Ident
  | callback c => c.control
  | function _ => none

end Block

namespace Script

/-- The first lines of the blocks of a script. -/
def heads (s : Script) : List Block.Head := s.blocks.map Block.head

/-- The names of the functions of a script. -/
def functionNames (s : Script) : List String := s.functions.map (·.name.name)

theorem functionNames_eq (s : Script) :
    s.functionNames = s.heads.filterMap Block.Head.functionName? := by
  simp only [functionNames, functions, heads, List.map_filterMap, List.filterMap_map]
  congr 1
  funext b
  cases b <;> rfl

/-- **A script in the flat dialect.** -/
structure InDialect (s : Script) : Prop where
  init : s.heads.head? = some (.callback "init")
  bodies : ∀ b ∈ s.blocks, stmtsMeet (dialect Ident.Dotless) b.body
  functions : ∀ name params, .function name params ∈ s.heads → params = [] ∧ name.Dotless
  controls : ∀ b ∈ s.blocks, ∀ i ∈ b.control?, i.Dotless

end Script

variable {env : Env} {s s' : Script} {p p' : Program}

/-! ### First lines -/

theorem Block.MapLeaves.head {ε : Type} {f : LeafMap ε} {control : Ident → Except ε Ident}
    {b b' : Block} (h : b.MapLeaves f control b') : b'.head = b.head := by
  cases h with
  | callback _ _ => rfl
  | function hf =>
    obtain ⟨body, -, hf⟩ := Except.bind_eq_ok.mp hf
    cases hf
    rfl

/-- Finding sigils keeps first lines. -/
theorem Sigils.script_heads (h : (Sigils.script env s).run p = .ok (s', p')) :
    s'.heads = s.heads :=
  map_eq_of_forall₂ (Sigils.script_run h).1 fun _ _ hb => hb.head

/-- The check of controls keeps first lines. -/
theorem Controls.script_heads (h : (Controls.script env s).run p = .ok (s', p')) :
    s'.heads = s.heads :=
  map_eq_of_forall₂ (Script.mapLeaves_eq_ok (Controls.script_run h).2) fun _ _ hb => hb.head

/-- Expansion keeps first lines, and leaves no function among the blocks. -/
theorem Inlining.script_heads (h : (Inlining.script env s).run p = .ok (s', p')) :
    s'.heads = s.heads ∧ ∀ b ∈ s'.blocks, ∃ c, b = .callback c := by
  obtain ⟨p₁, bodies, -, -, hblocks, -⟩ :=
    Scheme.script_run (callScheme_starts env p s.blocks) h
  refine ⟨map_eq_of_forall₂ hblocks ?_, fun b hb => ?_⟩
  · rintro _ _ ⟨c, body, rfl, rfl, -⟩
    rfl
  · obtain ⟨-, -, c, body, -, rfl, -⟩ := exists_mem_of_forall₂ hblocks hb
    exact ⟨_, rfl⟩

/-- **The first block of a lowered script is an init callback.** -/
theorem Lowering.script_init (h : (Lowering.script env s).run p = .ok (s', p')) :
    s'.heads.head? = some (.callback "init") := by
  have hfirst : ∃ c rest, initFirst s.blocks = .callback c :: rest ∧ c.name = "init" := by
    unfold initFirst
    split
    · next b hfind =>
      have hb := List.find?_some hfind
      cases b with
      | callback c => exact ⟨c, _, rfl, by simpa [isInitBlock, Callback.isInit] using hb⟩
      | function f => cases hb
    · exact ⟨emptyInit, _, rfl, rfl⟩
  obtain ⟨c, rest, hblocks, hname⟩ := hfirst
  unfold script at h
  simp only [StateT.run_bind, StateT.run_get, pure_bind, hblocks] at h
  obtain ⟨⟨⟨bs, state⟩, p₁⟩, hrun, h⟩ := Except.bind_eq_ok.mp h
  cases h
  obtain ⟨hrun, -⟩ := StateT.lift_eq_ok.mp hrun
  simp only [blocks] at hrun
  obtain ⟨_, _, -, hrun⟩ := StateT.bind_eq_ok.mp hrun
  obtain ⟨body, _, -, hrun⟩ := StateT.bind_eq_ok.mp hrun
  obtain ⟨rest', _, -, hrun⟩ := StateT.bind_eq_ok.mp hrun
  cases hrun
  exact congrArg (fun name => some (Block.Head.callback name)) hname

/-- What the functions of an arranged script are, when there were none among the blocks. -/
theorem Arrangement.script_heads (hs : ∀ b ∈ s.blocks, ∃ c, b = .callback c)
    (h : (Arrangement.script s).run p = .ok (s', p')) :
    s'.heads.head? = s.heads.head? ∧
      s'.functions = written p.calls (markUsed p) := by
  obtain ⟨init, rest, hblocks, hblocks', -⟩ := script_run h
  have hrest : rest.filterMap Block.function? = [] := by
    refine List.filterMap_eq_nil_iff.mpr fun b hb => ?_
    obtain ⟨c, rfl⟩ := hs b (by simp [hblocks, hb])
    rfl
  have hself : ∀ fs : List FunctionDef, (fs.map Block.function).filterMap Block.function? = fs := by
    intro fs
    rw [List.filterMap_map]
    exact List.filterMap_some
  refine ⟨by simp [Script.heads, hblocks, hblocks', Block.head], ?_⟩
  simp only [Script.functions, hblocks', List.filterMap_cons, Block.function?,
    List.filterMap_append, hself, hrest, List.append_nil]

theorem Renaming.script_heads (f : Renaming) (s : Script) :
    (f.script s).heads = s.heads.map (Block.Head.rename f.function) := by
  simp only [Script.heads, Renaming.script, List.map_map]
  refine List.map_congr_left fun b _ => ?_
  cases b <;> rfl

theorem Folding.script_heads (s : Script) : (Folding.script s).heads = s.heads := by
  simp only [Script.heads, Folding.script, List.map_map]
  refine List.map_congr_left fun b _ => ?_
  cases b <;> rfl

/-! ### Statements -/

theorem dialect_reshaped {P : Ident → Prop} {k k' : StmtKind} (h : k.Reshaped k')
    (hk : (dialect P).stmt k) : (dialect P).stmt k' := by
  cases h with
  | declare hd =>
    rename_i d d'
    change P d'.name ∧ d'.name.sigil.isSome = true
    rw [hd.name]
    exact hk
  | ifChain hlength => exact hlength.trans hk
  | _ => exact hk

/-- The check of controls bounds the number of subscripts. -/
theorem Controls.carries_dialect : Controls.Carries flat (dialect fun _ => True) where
  binary _ := trivial
  unary _ := trivial
  var _ hes hlength := ⟨trivial, hlength ▸ hes⟩
  call _ := trivial
  literal {e} hlit _ := by cases e <;> trivial
  id := trivial
  callStmt _ := trivial
  assign _ := trivial
  skips _ h := h
  noAtom h := h
  noWhole h := h
  reshape {k k'} hk h := by
    have h' := flat_reshaped hk h
    cases k' with
    | declare d => exact ⟨trivial, h'⟩
    | call c => trivial
    | _ => exact h'
  list _ := trivial

/-- A renaming that keeps sigils changes what is known of names. -/
theorem Renaming.carries_dialect {f : Renaming} {P P' : Ident → Prop}
    (hname : ∀ i, P i → P' (f.name i))
    (hsigil : ∀ i, i.sigil.isSome = true → (f.name i).sigil.isSome = true) :
    f.Carries (dialect P) (dialect P') where
  expr {e} h := by
    cases e with
    | var i es _ =>
      simp only [Renaming.expr]
      exact ⟨hname i h.1, length_exprs f es ▸ h.2⟩
    | call name _ _ _ _ =>
      simp only [Renaming.expr]
      exact hname name h
    | _ =>
      simp only [Renaming.expr]
      trivial
  stmt {k} _ _ h := by
    cases k with
    | declare d =>
      simp only [Renaming.stmt]
      exact ⟨hname _ h.1, hsigil _ h.2⟩
    | ifChain bs o =>
      simp only [Renaming.stmt]
      exact (length_branches f bs).trans h
    | call c =>
      simp only [Renaming.stmt]
      exact hname _ h
    | assign _ _ | whileLoop _ _ | select _ _ =>
      simp only [Renaming.stmt]
      trivial
    | _ => exact h.elim
  list _ := trivial
  skipsExpr _ h := h
  skipsStmt _ h := h
  atom h := h
  whole h := h

/-- Folding keeps the dialect. -/
theorem dialect_folds (P : Ident → Prop) : (dialect P).Folds where
  literal {constants e v e'} _ he := by
    cases v <;> simp only [Value.toExpr?, Option.some.injEq, reduceCtorEq] at he <;> subst he <;>
      trivial
  binary _ := trivial
  unary _ := trivial
  var h hlength := ⟨h.1, hlength ▸ h.2⟩
  call h _ := h
  callStmt h _ := h
  assign _ := trivial
  chain {bs _ b bs' _} h hlength := by
    have hone : bs.length = 1 := h
    have hnone : bs'.length = 0 := by simpa [hone] using hlength
    exact congrArg (· + 1) hnone
  reshape := dialect_reshaped
  list _ := trivial
  noAtom h := h
  noWhole h := h

/-! ### Names without dots -/

/-- The spelling of a name has a dot only if the name has. -/
theorem Ident.dotless_of_name {i : Ident} (h : '.' ∉ i.name.toList) : i.Dotless := by
  unfold Ident.Dotless Ident.full
  cases i.sigil with
  | none => exact h
  | some sigil =>
    have hsigil : '.' ∉ sigil.text.toList := by cases sigil <;> decide
    simpa [String.toList_append, not_or] using ⟨hsigil, h⟩

theorem Undotting.dotless (i : Ident) : (Undotting.ident i).Dotless := by
  refine Ident.dotless_of_name fun h => ?_
  simp only [Undotting.ident, Name.undotted, String.toList_ofList, Text.replaceChar,
    List.mem_flatMap] at h
  obtain ⟨c, -, h⟩ := h
  split at h
  · revert h
    decide
  · next hc => exact hc (List.mem_singleton.mp h).symm

/-- The first arguments that are keys stay keys when names lose their dots. -/
theorem Undotting.keepsFirstArgument {name : String} (h : Builtins.keepsFirstArgument name = true) :
    Name.undotted name = name := by
  have hall : ∀ n ∈ Builtins.rawFirstArgument, Name.undotted n = n := by decide
  exact hall name (by simpa [Builtins.keepsFirstArgument] using h)

/-- A short name has no dot. -/
theorem Compaction.dotless_shortName (name : String) : '.' ∉ (shortName name).toList := by
  have hletters : ∀ count n, '.' ∉ letters count n := fun count n hc =>
    forall_letters (P := (· ≠ '.')) (by decide) count n _ hc rfl
  have hsigil : '.' ∉ (sigilText name).toList := by
    unfold sigilText
    cases (Sigil.split name).1 with
    | none => simp
    | some sigil => cases sigil <;> decide
  simpa [shortName, String.toList_append] using ⟨hsigil, hletters _ _⟩

/-- Lower case keeps the sigil of a name. -/
theorem Text.sigil_lower (sigil : Sigil) (rest : String) :
    (Sigil.split (Text.lower (sigil.text ++ rest))).1 = some sigil := by
  have hlist : (sigil.text ++ rest).toList = sigil.toChar :: rest.toList := by
    simp [Sigil.text, String.toList_append]
  have hlower : ∀ cs, Text.lowerIn [] sigil.toChar cs = [sigil.toChar] := by
    intro cs
    cases sigil <;> rfl
  unfold Text.lower Sigil.split
  rw [hlist, String.toList_ofList]
  simp only [Text.lowerAfter, hlower, List.cons_append, List.nil_append, Sigil.ofChar?_toChar]

/-- **What stands in the place of a variable**: it has a sigil, and no dot when the variable has
none. -/
theorem Compaction.ident_spec {t : ShortNames} (ht : ∀ pair ∈ t.pairs, pair.2 = shortName pair.1)
    (i : Ident) : (i.Dotless → (ident t i).Dotless) ∧
      (i.sigil.isSome = true → (ident t i).sigil.isSome = true) := by
  cases hsigil : i.sigil with
  | none => simp [ident, hsigil]
  | some sigil =>
    cases hshort : t.short? i.full with
    | none => simp [ident, hsigil, hshort]
    | some short =>
      have hname : short = shortName (Text.lower i.full) :=
        ht _ (ShortNames.mem_of_short? hshort)
      have hident : ident t i = ⟨(Sigil.split short).1, (Sigil.split short).2, i.span,
          i.qualified⟩ := by simp [ident, hsigil, hshort]
      have hfull : (ident t i).full = short := hident ▸ Ident.full_ofText short i.span
      have hsplit : (Sigil.split (Text.lower i.full)).1 = some sigil := by
        rw [Ident.full, hsigil]
        exact Text.sigil_lower sigil i.name
      refine ⟨fun _ => ?_, fun _ => ?_⟩
      · rw [Ident.Dotless, hfull, hname]
        exact dotless_shortName _
      · rw [hident, hname, shortName, sigilText, hsplit]
        exact congrArg (·.1.isSome) (Lowering.sigil_split_text sigil _)

/-! ### Whole scripts -/

/-- **Folding keeps scripts in the dialect.** -/
theorem Script.InDialect.fold (hs : s.InDialect) : (Folding.script s).InDialect := by
  refine ⟨Folding.script_heads s ▸ hs.init, fun b hb => ?_, Folding.script_heads s ▸ hs.functions,
    fun b hb => ?_⟩
  · obtain ⟨b₀, hb₀, rfl⟩ := List.mem_map.mp hb
    have hfolded : stmtsMeet (dialect Ident.Dotless)
        (Folding.stmts (Folding.constantsOf s) b₀.body) :=
      Folding.meets_stmts (dialect_folds _) _ (hs.bodies b₀ hb₀)
    cases b₀ <;> exact hfolded
  · obtain ⟨b₀, hb₀, rfl⟩ := List.mem_map.mp hb
    have hcontrol := hs.controls b₀ hb₀
    cases b₀ <;> exact hcontrol

/-- A renaming of a script in the dialect, or of one that is in it but for the dots. -/
theorem Renaming.inDialect {f : Renaming} {P : Ident → Prop}
    (hname : ∀ i, P i → (f.name i).Dotless)
    (hsigil : ∀ i, i.sigil.isSome = true → (f.name i).sigil.isSome = true)
    (hinit : s.heads.head? = some (.callback "init"))
    (hbodies : ∀ b ∈ s.blocks, stmtsMeet (dialect P) b.body)
    (hfunctions : ∀ name params, .function name params ∈ s.heads →
      params = [] ∧ (f.function name).Dotless)
    (hcontrols : ∀ b ∈ s.blocks, ∀ i ∈ b.control?, P i) : (f.script s).InDialect := by
  refine ⟨?_, fun b hb => ?_, fun name params hhead => ?_, fun b hb i hi => ?_⟩
  · rw [script_heads, List.head?_map, hinit]
    rfl
  · obtain ⟨b₀, hb₀, rfl⟩ := List.mem_map.mp hb
    rw [block_body]
    exact (carries_dialect hname hsigil).ofStmts _ (hbodies b₀ hb₀)
  · rw [script_heads] at hhead
    obtain ⟨head, hhead, heq⟩ := List.mem_map.mp hhead
    cases head with
    | callback _ => cases heq
    | function name₀ params₀ =>
      cases heq
      exact hfunctions name₀ params hhead
  · obtain ⟨b₀, hb₀, rfl⟩ := List.mem_map.mp hb
    have hcontrol := hcontrols b₀ hb₀
    cases b₀ with
    | callback c =>
      obtain ⟨i₀, hi₀, rfl⟩ := Option.map_eq_some_iff.mp hi
      exact hname i₀ (hcontrol i₀ hi₀)
    | function g => cases hi

/-- **Short names keep scripts in the dialect.** -/
theorem Script.InDialect.shorten {preserve : List String} {t : ShortNames} (hs : s.InDialect)
    (h : (Compaction.script env preserve s).run p = .ok ((s', t), p')) : s'.InDialect := by
  obtain ⟨ht, rfl, -⟩ := Compaction.scriptWith_run h
  have hspec := Compaction.ident_spec fun pair hpair => (ht.pairs pair hpair).2.2
  exact Renaming.inDialect (fun i => (hspec i).1) (fun i => (hspec i).2) hs.init hs.bodies
    hs.functions hs.controls

theorem Shortens.inDialect {o : Options} {short : Option ShortNames}
    (h : Shortens env o s p short s') (hs : s.InDialect) : s'.InDialect := by
  cases h with
  | keep _ => exact hs
  | shorten _ hrun => exact hs.shorten hrun

/-- A renaming keeps the names of functions, but for what it does to them. -/
theorem Renaming.functionNames_eq {f : Renaming} {g : String → String}
    (hname : ∀ i, (f.function i).name = g i.name) (s : Script) :
    (f.script s).functionNames = s.functionNames.map g := by
  rw [Script.functionNames_eq, Script.functionNames_eq, script_heads, List.filterMap_map,
    List.map_filterMap]
  congr 1
  funext head
  cases head with
  | callback _ => rfl
  | function name _ => exact congrArg some (hname name)

namespace Compilation

variable {o : Options} {source : String} (r : Compilation env o source)

/-- The expanded script is flat, and so are the functions of the table. -/
theorem expanded_flattened : Flattened r.expanded.1 r.expanded.2 :=
  ((flattened_of_lowering r.joined_forked r.lower_eq).sigils r.type_eq).expand r.expand_eq

/-- The first lines are those of the arranged script, until names lose their dots. -/
theorem checked_heads : r.checked.heads = r.arranged.1.heads :=
  (Controls.script_heads r.check_eq).trans (Sigils.script_heads r.resolve_eq)

/-- The init callback comes first, and the functions are those that are written. -/
theorem arranged_heads : r.arranged.1.heads.head? = some (.callback "init") ∧
    r.arranged.1.functions =
      Arrangement.written r.framed.calls (Arrangement.markUsed r.framed) := by
  obtain ⟨hheads, hcallbacks⟩ := Inlining.script_heads r.expand_eq
  obtain ⟨hinit, hfunctions⟩ := Arrangement.script_heads hcallbacks r.arrange_eq
  rw [hheads, Sigils.script_heads r.type_eq] at hinit
  exact ⟨hinit.trans (Lowering.script_init r.lower_eq), hfunctions⟩

/-- **No two functions of the checked script have the same name.** -/
theorem nodup_checked : r.checked.functionNames.Nodup := by
  rw [Script.functionNames_eq, r.checked_heads, ← Script.functionNames_eq, Script.functionNames,
    r.arranged_heads.2]
  exact Arrangement.nodup_written _ _

/-- The functions of the checked script have no parameters. -/
theorem checked_params {name : Ident} {params : List Param}
    (h : .function name params ∈ r.checked.heads) : params = [] := by
  rw [r.checked_heads] at h
  obtain ⟨b, hb, hhead⟩ := List.mem_map.mp h
  cases b with
  | callback _ => cases hhead
  | function f =>
    cases hhead
    have hf : f ∈ r.arranged.1.functions := List.mem_filterMap.mpr ⟨_, hb, rfl⟩
    rw [r.arranged_heads.2] at hf
    obtain ⟨hmark, e, he, -, rfl⟩ := Arrangement.mem_written hf
    obtain ⟨e₁, he₁, used, rfl⟩ := Arrangement.mem_markUsed he
    exact r.expanded_flattened.framed_params r.frame_eq (e := e₁) he₁ hmark

/-- The statements of the checked script are flat and have one subscript at most. -/
theorem checked_bodies : ∀ b ∈ r.checked.blocks, stmtsMeet (dialect fun _ => True) b.body := by
  intro b hb
  obtain ⟨b₁, hb₁, hchecked⟩ :=
    exists_mem_of_forall₂ (Script.mapLeaves_eq_ok (Controls.script_run r.check_eq).2) hb
  obtain ⟨b₂, hb₂, hresolved⟩ :=
    exists_mem_of_forall₂ (Sigils.script_run r.resolve_eq).1 hb₁
  have hflat := (r.expanded_flattened.frames r.frame_eq).arrange r.arrange_eq b₂ hb₂
  exact (Controls.carries_dialect.leafMap env _).block
    ((LeafMap.carries_flat _).block hflat hresolved) hchecked

/-- The script without dots is the checked one, renamed. -/
theorem undotted_eq : r.undotted.1 = Undotting.undot.script r.checked := by
  have h := r.undot_eq
  unfold Undotting.script at h
  exact (congrArg Prod.fst (Except.ok.inj h)).symm

/-- **A script without dots is in the dialect.** -/
theorem undotted_inDialect : r.undotted.1.InDialect := by
  rw [r.undotted_eq]
  refine Renaming.inDialect (P := fun _ => True) (fun i _ => Undotting.dotless i) (fun _ h => h)
    ?_ r.checked_bodies (fun name params h => ⟨r.checked_params h, Undotting.dotless name⟩)
    (fun _ _ _ _ => trivial)
  rw [r.checked_heads]
  exact r.arranged_heads.1

end Compilation

/-- **A compilation ends in the flat dialect.** What is written is a script in the dialect. It was
in the dialect when its names had lost their dots, and folding and short names have kept it there;
before that, no two of its functions had the same name. -/
theorem compile_inDialect {o : Options} {source : String} {c : Compiled}
    (h : compile env o source = .ok c) :
    ∃ r : Compilation env c.options source,
      c.code = Printer.script env.builtins c.options r.final ∧
      r.checked.functionNames.Nodup ∧
      r.undotted.1.functionNames = r.checked.functionNames.map Name.undotted ∧
      r.undotted.1.InDialect ∧ r.folded.InDialect ∧ r.final.InDialect := by
  obtain ⟨r, rfl⟩ := exists_compilation h
  have hundotted := r.undotted_inDialect
  have hfolded : r.folded.InDialect := by
    rw [r.fold_eq]
    split
    · exact hundotted.fold
    · exact hundotted
  refine ⟨r, rfl, r.nodup_checked, ?_, hundotted, hfolded, r.shortens.inDialect hfolded⟩
  rw [r.undotted_eq]
  exact Renaming.functionNames_eq (fun _ => rfl) r.checked

/-! ### A sample -/

/-- The functions of the engine that the sample uses. -/
def sampleBuiltins : Builtins where
  functions := [("message", ⟨["text"], none⟩), ("inc", ⟨["variable"], none⟩)]

/-- A family, a counting loop, a chain of conditions, and names with dots. -/
def sampleText : String :=
  "on note\nfor fam.i := 0 to 3\nif fam.i = 1\nmessage(fam.i)\nelse if fam.i = 2\ncall my.f\n" ++
    "end if\nend for\nend on\non init\nfamily fam\ndeclare i\nend family\nend on\n" ++
    "function my.f\nfam.i := 2+3\nend function\n"

/-- The sample with everything asked for. -/
def sampleOptions : Options where
  optimizeCode := true
  compactVariables := true

/-- What is written for the sample. -/
def sampleCode : String :=
  "on init\ndeclare $ouwpf\nend on\nfunction my__f\n$ouwpf := 5\nend function\non note\n" ++
    "$ouwpf := 0\nwhile ($ouwpf<=3)\nif ($ouwpf=1)\nmessage($ouwpf)\nelse\nif ($ouwpf=2)\n" ++
    "call my__f\nend if\nend if\ninc($ouwpf)\nend while\nend on\n"

theorem sampleText_inDialect : ∃ c,
    compile ⟨sampleBuiltins, .empty⟩ sampleOptions sampleText = .ok c ∧ c.code = sampleCode ∧
    ∃ r : Compilation ⟨sampleBuiltins, .empty⟩ c.options sampleText,
      c.code = Printer.script sampleBuiltins c.options r.final ∧
      r.checked.functionNames.Nodup ∧
      r.undotted.1.functionNames = r.checked.functionNames.map Name.undotted ∧
      r.undotted.1.InDialect ∧ r.folded.InDialect ∧ r.final.InDialect := by
  set_option maxRecDepth 4000 in
  have htext : sampleText.toList = _ :=
    Text.toList_pieces (Text.toList_pieces String.toList_ofList String.toList_ofList) String.toList_ofList
  have hcode : (compile ⟨sampleBuiltins, .empty⟩ sampleOptions sampleText).toOption.map
      Compiled.code = some sampleCode := by
    rw [compile_eq_ofChars _ _ htext (by decide +kernel)]
    decide +kernel
  cases hrun : compile ⟨sampleBuiltins, .empty⟩ sampleOptions sampleText with
  | error failure =>
    rw [hrun] at hcode
    cases hcode
  | ok c =>
    rw [hrun] at hcode
    exact ⟨c, rfl, Option.some.inj hcode, compile_inDialect hrun⟩

end FlatScript
