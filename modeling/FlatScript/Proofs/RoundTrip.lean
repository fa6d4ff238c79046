import FlatScript.Proofs.Closure
import FlatScript.Proofs.Orthography.Identifiers
import FlatScript.Proofs.Writing.Reprint

/-!
# Compiled scripts are read and written again

What a compilation writes is in the flat dialect, and its names are made of the characters of names.
So it can be read, and what is read is written as the same text, if the script is upright
(`FlatScript.Script.Upright`). There are scripts that are not. A prefix operator has no parentheses
behind another one, so it takes the operand of a looser one with it when it is read; and a function
that lost the sigil of its name may be called by a keyword or by a number.

* `FlatScript.verbatim` is all that is known of the statements of an upright script, and
  `FlatScript.Stmt.Meets.printable` says that such statements can be read back.
* `FlatScript.Script.Upright.written_again`: an upright script in the dialect is written again.
* `FlatScript.compiled_written_again`: so is every compiled script that is upright.
-/

namespace FlatScript

/-! ### Upright scripts -/

/-- Whether an expression is read as it was written, apart from its parts: a prefix operator does
not stand over a looser one, a second minus does not stand over the least integer, and what is
called is an identifier. -/
def Expr.isUpright : Expr → Bool
  | .unary op (.unary op' operand _) _ =>
    op.precedence ≤ op'.precedence && !(op == .neg && op' == .neg && operand.isInt Int32.minValue)
  | .call name _ _ _ _ => decide (IsToken .identifier name.full)
  | _ => true

/-- Whether a statement calls a function by an identifier, if it is a call. -/
def StmtKind.isUpright : StmtKind → Bool
  | .call c => decide (IsToken .identifier c.name.full)
  | _ => true

/-- **Statements that are read as they were written.** -/
def upright : Rule where
  expr e := e.isUpright = true
  stmt k := k.isUpright = true
  list _ := True
  skips _ := false
  atom _ _ _ := False

instance : upright.Decides where
  expr e := inferInstanceAs (Decidable (e.isUpright = true))
  stmt k := inferInstanceAs (Decidable (k.isUpright = true))
  list _ := inferInstanceAs (Decidable True)
  atom _ _ _ := inferInstanceAs (Decidable False)
  whole _ _ := inferInstanceAs (Decidable False)

/-- **A script that is read as it was written**, if all else is in order: its statements are, and
its functions are named by identifiers. -/
structure Script.Upright (s : Script) : Prop where
  bodies : ∀ bl ∈ s.blocks, stmtsMeet upright bl.body
  functions : ∀ f ∈ s.functions, IsToken .identifier f.name.full

theorem Script.upright_iff {s : Script} : s.Upright ↔
    (∀ bl ∈ s.blocks, stmtsMeet upright bl.body) ∧
      ∀ f ∈ s.functions, IsToken .identifier f.name.full :=
  ⟨fun h => ⟨h.bodies, h.functions⟩, fun h => ⟨h.1, h.2⟩⟩

instance (s : Script) : Decidable s.Upright := decidable_of_iff' _ s.upright_iff

/-! ### Statements -/

/-- What is known of the statements of an upright script in the dialect. -/
def verbatim : Rule := (identifierNames.rule.both (dialect Ident.Dotless)).both upright

theorem stmtsMeet_verbatim {ss : List Stmt} (hnames : stmtsMeet identifierNames.rule ss)
    (hdialect : stmtsMeet (dialect Ident.Dotless) ss) (hupright : stmtsMeet upright ss) :
    stmtsMeet verbatim ss := by
  have hplain : identifierNames.rule.Plain := ⟨id, id⟩
  have hflat : (dialect Ident.Dotless).Plain := ⟨id, id⟩
  have hboth : (identifierNames.rule.both (dialect Ident.Dotless)).Plain := hplain.both
  have hlast : upright.Plain := ⟨id, id⟩
  exact stmtsMeet_both hboth hlast rfl (stmtsMeet_both hplain hflat rfl hnames hdialect) hupright

theorem verbatim_readable : verbatim.ImpliesExpr readable where
  expr e h := by
    obtain ⟨⟨hname, hdialect⟩, hupright⟩ := h
    cases e with
    | var i es span => exact isToken_reference hname hdialect.1
    | call name args isProcedure usingCall span =>
      exact ⟨of_decide_eq_true hupright, hname.2 trivial⟩
    | str raw span => exact hname
    | raw text span => exact hname
    | unary op operand span =>
      cases operand with
      | unary op' operand span' =>
        simp only [upright, Expr.isUpright, Bool.and_eq_true, decide_eq_true_eq] at hupright
        exact hupright.1
      | _ => trivial
    | _ => trivial
  skips _ h := h
  atom _ _ _ h := h.1.1

theorem verbatim_oneMinus : verbatim.ImpliesExpr oneMinus where
  expr e h := by
    obtain ⟨-, hupright⟩ := h
    simp only [oneMinus]
    split
    · simpa [upright, Expr.isUpright] using hupright
    · trivial
  skips _ h := h
  atom _ _ _ h := h.1.1

section Verbatim

variable (b : Builtins)

theorem Expr.Meets.stable {e : Expr} (h : e.Meets verbatim) : Printer.Stable b e :=
  Printer.stable_of_readable b (h.imp verbatim_readable) (h.imp verbatim_oneMinus)

theorem exprsMeet_stable {es : List Expr} (h : exprsMeet verbatim es) :
    ∀ e ∈ es, Printer.Stable b e :=
  fun e he => (exprsMeet_iff.mp h e he).stable b

theorem branches_stable {bs : List Branch} (h : branchesMeet verbatim bs) :
    ∀ br ∈ bs, Printer.Stable b br.cond := by
  induction bs with
  | nil => simp
  | cons br bs ih =>
    obtain ⟨cond, body⟩ := br
    obtain ⟨hcond, -, -, hbs⟩ := h
    exact List.forall_mem_cons.mpr ⟨hcond.stable b, ih hbs⟩

theorem cases_stable {cs : List Case} (h : casesMeet verbatim cs) :
    ∀ c ∈ cs, Printer.Stable b c.start ∧ ∀ e ∈ c.stop, Printer.Stable b e := by
  induction cs with
  | nil => simp
  | cons c cs ih =>
    obtain ⟨start, stop, body⟩ := c
    obtain ⟨hstart, hstop, -, -, hcs⟩ := h
    exact List.forall_mem_cons.mpr ⟨⟨hstart.stable b, fun e he => (hstop e he).stable b⟩, ih hcs⟩

/-- **What is known of a statement of an upright script makes it printable**, apart from its
parts. -/
theorem Stmt.Meets.printable : ∀ {s : Stmt}, s.Meets verbatim → (Printer.printable b).stmt s.kind
  | ⟨.declare d, _, _⟩, ⟨⟨⟨hname, hdialect⟩, _⟩, hsize, hparams, hinit⟩ => by
    obtain ⟨hwordy, hmodifiers, hlisted⟩ := hname
    obtain ⟨hdot, hsigil⟩ := hdialect
    refine ⟨isToken_reference ⟨hwordy, fun hnone => ?_⟩ hdot, hmodifiers,
      fun e he => (hsize e he).stable b, exprsMeet_stable b hparams, fun i hi => ?_⟩
    · rw [hnone] at hsigil
      cases hsigil
    · have hvalues := hinit i hi
      cases i with
      | list values => exact ⟨exprsMeet_stable b hvalues, hlisted trivial _ hi⟩
      | single value =>
        have hstable := Expr.Meets.stable b hvalues
        cases value with
        | raw text span => exact hvalues.1.1
        | _ => exact hstable
  | ⟨.assign target value, _, _⟩, .inl h => h.elim
  | ⟨.assign target value, _, _⟩, .inr ⟨_, htarget, hvalue⟩ => by
    obtain ⟨⟨⟨hname, hdialect⟩, -⟩, hsubscripts⟩ := htarget
    exact ⟨isToken_reference hname hdialect.1, exprsMeet_stable b hsubscripts, hvalue.stable b⟩
  | ⟨.call c, _, _⟩, ⟨⟨⟨hname, _⟩, hupright⟩, hargs⟩ =>
    ⟨of_decide_eq_true hupright, exprsMeet_stable b (argsMeet_false.mp hargs), hname.2 trivial⟩
  | ⟨.whileLoop cond _, _, _⟩, ⟨_, hcond, _⟩ => hcond.stable b
  | ⟨.ifChain bs _, _, _⟩, ⟨⟨⟨_, hlength⟩, _⟩, hbs, _⟩ => ⟨hlength, branches_stable b hbs⟩
  | ⟨.select subject cs, _, _⟩, ⟨_, hsubject, hcs⟩ => ⟨hsubject.stable b, cases_stable b hcs⟩
  | ⟨.property _ _, _, _⟩, ⟨⟨⟨_, h⟩, _⟩, _⟩ | ⟨.synonym _ _ _, _, _⟩, ⟨⟨⟨_, h⟩, _⟩, _⟩
  | ⟨.forLoop _ _ _ _ _ _, _, _⟩, ⟨⟨⟨_, h⟩, _⟩, _⟩ | ⟨.family _ _, _, _⟩, ⟨⟨⟨_, h⟩, _⟩, _⟩ => h.elim

end Verbatim

/-! ### Blocks -/

/-- A name of the characters of names has its sigil in its spelling. -/
theorem Wordy.spelled {i : Ident} (h : Wordy i.name) : i.Spelled := by
  unfold Ident.Spelled Ident.full
  split
  · next sigil _ => rw [Lowering.sigil_split_text]
  · rw [h.split]

theorem identifierNames_spelled : identifierNames.rule.Implies spelled where
  expr _ _ := trivial
  stmt k h := by
    cases k with
    | call c => exact Wordy.spelled h.1
    | _ => trivial
  list _ h := h
  skips _ h := h
  atom _ _ _ h := h
  whole _ _ h := h

/-- A block with all that is written of it. -/
def Block.plain : Block → Block
  | .callback c => .callback c
  | .function f => .function { f with result := none, isTaskfunc := false, isOverride := false }

/-- A script with all that is written of it. -/
def Script.plain (s : Script) : Script := ⟨s.blocks.map Block.plain⟩

theorem Printer.script_plain (b : Builtins) (o : Options) (s : Script) :
    script b o s.plain = script b o s := by
  simp only [script, Script.plain, List.map_map]
  refine congrArg String.join (List.map_congr_left fun bl _ => ?_)
  cases bl <;> rfl

@[simp] theorem Block.plain_body (bl : Block) : bl.plain.body = bl.body := by cases bl <;> rfl

/-- **The blocks of an upright script in the dialect are printable.** -/
theorem Script.Upright.blockPrintable {s : Script} (hs : s.Upright) (hdialect : s.InDialect)
    (hnames : ∀ bl ∈ s.blocks, bl.Obeys identifierNames) (b : Builtins) :
    ∀ bl ∈ s.blocks, Printer.blockPrintable b bl.plain := by
  intro bl hbl
  have hbody : stmtsMeet (Printer.printable b) bl.body :=
    stmtsMeet_imp ⟨fun _ => trivial, fun _ => trivial, fun _ h => h.printable b⟩ _
      (stmtsMeet_verbatim (hnames bl hbl).body (hdialect.bodies bl hbl) (hs.bodies bl hbl))
  have hcontrol := hdialect.controls bl hbl
  cases bl with
  | callback c =>
    obtain ⟨hname, hreference, -⟩ := hnames _ hbl
    exact ⟨hname, fun i hi => isToken_reference (hreference i hi) (hcontrol i hi), hbody⟩
  | function f =>
    obtain ⟨hparams, -⟩ := hdialect.functions f.name f.params (List.mem_map_of_mem hbl)
    have hf : f ∈ s.functions := List.mem_filterMap.mpr ⟨_, hbl, rfl⟩
    exact ⟨hs.functions f hf, hparams, rfl, rfl, rfl, hbody⟩

/-- **An upright script in the dialect is read from its text and written again as the same text.** -/
theorem Script.Upright.written_again {s : Script} (hs : s.Upright) (hdialect : s.InDialect)
    (hnames : ∀ bl ∈ s.blocks, bl.Obeys identifierNames) (b : Builtins) (o : Options)
    (lines : Lines) :
    ∃ s', Script.parse (Printer.script b o s) lines = .ok s' ∧
      Printer.script b o s' = Printer.script b o s := by
  have hprintable : ∀ bl ∈ s.plain.blocks, Printer.blockPrintable b bl :=
    List.forall_mem_map.mpr (hs.blockPrintable hdialect hnames b)
  obtain ⟨s', hparse, halike⟩ := Printer.script_read_back b o lines hprintable
  have hread : ∀ bl ∈ s'.blocks, bl.Obeys identifierNames :=
    Script.obeys_of_parse (fun _ ht => Token.obeys_identifierNames ht) hparse
  have hspelled : ∀ bl ∈ s.plain.blocks, stmtsMeet spelled bl.body := by
    refine List.forall_mem_map.mpr fun bl hbl => ?_
    rw [Block.plain_body]
    exact stmtsMeet_mono identifierNames_spelled (hnames bl hbl).body
  have hagain := Printer.script_alike o halike hspelled fun bl hbl =>
    stmtsMeet_mono identifierNames_spelled (hread bl hbl).body
  rw [Printer.script_plain] at hparse hagain
  exact ⟨s', hparse, hagain.symm⟩

/-- **Compiled scripts are read and written again as the same text**, whatever the options are, if
they are upright, and if the lines of the source stand under namespaces that are names. -/
theorem compiled_written_again {env : Env} {o : Options} {source : String} {c : Compiled}
    (h : compile env o source = .ok c) (hl : env.lines.WordyNamespaces) :
    ∃ r : Compilation env c.options source,
      c.code = Printer.script env.builtins c.options r.final ∧
      (r.final.Upright → ∀ lines, ∃ s, Script.parse c.code lines = .ok s ∧
        Printer.script env.builtins c.options s = c.code) := by
  obtain ⟨r, hcode, -, -, -, -, hdialect⟩ := compile_inDialect h
  obtain ⟨p, hproduced⟩ := r.produced
  have hobeyed := hproduced.obeyed identifierNames_stays (identifierNames_under hl) fun _ _ =>
    Token.obeys_identifierNames
  refine ⟨r, hcode, fun hupright lines => ?_⟩
  rw [hcode]
  exact hupright.written_again hdialect hobeyed.blocks env.builtins c.options lines

/-- A text with numbers, operators, conditions and calls. -/
def libraryText : String :=
  "on init\ndeclare n\ndeclare ~r := -2.5\nn := -(1+2)*3\nif not (n=1) and n<9\n" ++
    "message(\"n\", n)\nend if\nend on\non note\ncall f\nend on\n" ++
    "function f\nn := 3-(2-n)\nend function\n"

/-- Its lines come from under a namespace. -/
def libraryEnv : Env := ⟨sampleBuiltins, Lines.empty.push 14 ⟨none, ["lib"]⟩⟩

/-- What is written for it. -/
def libraryCode : String :=
  "on init\ndeclare $lib__n\ndeclare ~lib__r := -2.5\n$lib__n := -(1+2)*3\n" ++
    "if (not ($lib__n=1) and $lib__n<9)\nmessage(\"n\", $lib__n)\nend if\nend on\n" ++
    "function lib__f\n$lib__n := 3-(2-$lib__n)\nend function\non note\ncall lib__f\nend on\n"

theorem libraryText_written_again : ∃ c, compile libraryEnv {} libraryText = .ok c ∧
    c.code = libraryCode ∧ libraryEnv.lines.WordyNamespaces ∧
    ∃ r : Compilation libraryEnv c.options libraryText,
      c.code = Printer.script libraryEnv.builtins c.options r.final ∧ r.final.Upright ∧
      ∀ lines, ∃ s, Script.parse c.code lines = .ok s ∧
        Printer.script libraryEnv.builtins c.options s = c.code := by
  set_option maxRecDepth 4000 in
  have htext : libraryText.toList = _ :=
    Text.toList_pieces (Text.toList_pieces String.toList_ofList String.toList_ofList) String.toList_ofList
  have hrun : (compile libraryEnv {} libraryText).toOption.map (fun c => (c.code, c.options)) =
      some (libraryCode, {}) := by
    rw [compile_eq_ofChars _ _ htext (by decide +kernel)]
    decide +kernel
  have hupright : (plainScript libraryEnv libraryText).map (fun s => decide s.Upright) =
      some true := by
    rw [plainScript, Script.parse_eq_ofChars htext]
    decide +kernel
  obtain ⟨c, hrun, hc⟩ := Option.map_eq_some_iff.mp hrun
  obtain ⟨hcode, hoptions⟩ := Prod.mk.inj hc
  have hcompile : compile libraryEnv {} libraryText = .ok c := Except.toOption_eq_some.mp hrun
  have hl : libraryEnv.lines.WordyNamespaces := by
    have hknown : ∀ info ∈ libraryEnv.lines.known, WordyPrefix info.namespaces := by
      intro info hinfo
      obtain rfl := List.eq_of_mem_replicate hinfo
      exact (by decide +kernel : WordyPrefix ["lib"])
    have hother : WordyPrefix [] := by decide
    exact Lines.forall_info hknown hother
  obtain ⟨r, hprinted, hagain⟩ := compiled_written_again hcompile hl
  have hfinal : r.final.Upright := by
    obtain ⟨code, names, options⟩ := c
    obtain rfl : options = {} := hoptions
    rw [r.plainScript_eq] at hupright
    exact of_decide_eq_true (Option.some.inj hupright)
  exact ⟨c, hcompile, hcode, hl, r, hprinted, hfinal, hagain hfinal⟩

/-- A comparison of a minus in front of a looser prefix operator. -/
def crossedText : String :=
  "on init\ndeclare $a\ndeclare $b\ndeclare $x\n$x := (-(not $a)) = $b\nend on\n"

/-- **A script that is not upright need not be written again**: the looser prefix operator takes the
comparison as its operand when it is read. -/
theorem crossedText_not_written_again : ∃ c, compile ⟨{}, .empty⟩ {} crossedText = .ok c ∧
    c.code = "on init\ndeclare $a\ndeclare $b\ndeclare $x\n$x := -not $a=$b\nend on\n" ∧
    (∀ r : Compilation ⟨{}, .empty⟩ {} crossedText, ¬ r.final.Upright) ∧
    ∃ s, Script.parse c.code .empty = .ok s ∧ Printer.script {} c.options s =
      "on init\ndeclare $a\ndeclare $b\ndeclare $x\n$x := -not ($a=$b)\nend on\n" := by
  have htext : crossedText.toList = _ := String.toList_ofList
  have hrun : (compile ⟨{}, .empty⟩ {} crossedText).toOption.map (fun c => (c.code, c.options)) =
      some ("on init\ndeclare $a\ndeclare $b\ndeclare $x\n$x := -not $a=$b\nend on\n", {}) := by
    rw [compile_eq_ofChars _ _ htext (by decide +kernel)]
    decide +kernel
  have hupright : (plainScript ⟨{}, .empty⟩ crossedText).map (fun s => decide s.Upright) =
      some false := by
    rw [plainScript, Script.parse_eq_ofChars htext]
    decide +kernel
  have hread : (Script.parse "on init\ndeclare $a\ndeclare $b\ndeclare $x\n$x := -not $a=$b\nend on\n"
      .empty).toOption.map (Printer.script {} {}) =
      some "on init\ndeclare $a\ndeclare $b\ndeclare $x\n$x := -not ($a=$b)\nend on\n" := by
    rw [Script.parse_eq_ofChars String.toList_ofList]
    decide +kernel
  obtain ⟨c, hrun, hc⟩ := Option.map_eq_some_iff.mp hrun
  obtain ⟨hcode, hoptions⟩ := Prod.mk.inj hc
  obtain ⟨s, hs, hagain⟩ := Option.map_eq_some_iff.mp hread
  refine ⟨c, Except.toOption_eq_some.mp hrun, hcode, fun r => ?_, s, ?_, ?_⟩
  · rw [r.plainScript_eq] at hupright
    exact of_decide_eq_false (Option.some.inj hupright)
  · rw [hcode]
    exact Except.toOption_eq_some.mp hs
  · rw [hoptions]
    exact hagain

end FlatScript
