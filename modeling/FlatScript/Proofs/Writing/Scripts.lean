import FlatScript.Parser.Script
import FlatScript.Proofs.Writing.Statements

/-!
# Scripts read back from print

A script that is ready for the engine is a list of callbacks and of functions without parameters
and results. `FlatScript.Printer.script_read_back` says that such a script can be read back from
its text, whatever the layout is: parsing succeeds, and the blocks are alike one by one
(`FlatScript.Block.Alike`), with the same statements and with expressions of the same texts.

A block is read by one step of the parser, `FlatScript.Printer.ReadsBlock`; the blocks of a script
follow each other with nothing but empty lines in between, and these are no words.
-/

namespace FlatScript

open Printer

/-! ### Blocks that are alike -/

/-- Callbacks that are alike. -/
structure Callback.Alike (b : Builtins) (c c' : Callback) : Prop where
  name : c.name = c'.name
  control : c.control.map Ident.full = c'.control.map Ident.full
  body : stmtsAlike b c.body c'.body

/-- Functions that are alike. -/
structure FunctionDef.Alike (b : Builtins) (f f' : FunctionDef) : Prop where
  name : f.name.full = f'.name.full
  params : f.params.map (fun p => (p.name.full, p.kind)) =
    f'.params.map (fun p => (p.name.full, p.kind))
  result : f.result.map Ident.full = f'.result.map Ident.full
  isTaskfunc : f.isTaskfunc = f'.isTaskfunc
  isOverride : f.isOverride = f'.isOverride
  body : stmtsAlike b f.body f'.body

/-- **Blocks that are alike.** -/
def Block.Alike (b : Builtins) : Block → Block → Prop
  | .callback c, .callback c' => c.Alike b c'
  | .function f, .function f' => f.Alike b f'
  | _, _ => False

namespace Printer

open FlatScript.Parser (Takes)

/-! ### Blocks that can be read back -/

/-- A callback can be read back. -/
structure CallbackPrintable (b : Builtins) (c : Callback) : Prop where
  name : IsToken .identifier c.name
  control : ∀ i ∈ c.control, IsToken .identifier i.full
  body : stmtsMeet (printable b) c.body

/-- A function can be read back: one without parameters, result and marks. -/
structure FunctionPrintable (b : Builtins) (f : FunctionDef) : Prop where
  name : IsToken .identifier f.name.full
  params : f.params = []
  result : f.result = none
  isTaskfunc : f.isTaskfunc = false
  isOverride : f.isOverride = false
  body : stmtsMeet (printable b) f.body

/-- **Blocks that can be read back.** -/
def blockPrintable (b : Builtins) : Block → Prop
  | .callback c => CallbackPrintable b c
  | .function f => FunctionPrintable b f

variable {b : Builtins} {next : TokenKind} {ws : List Word}

/-- Lines are read as a block. -/
def ReadsBlock (b : Builtins) (ls : List Line) (bl : Block) : Prop :=
  ∃ ws, Lined ls ws ∧ (∃ w rest, ws = w :: rest ∧ w.kind ≠ .newline) ∧
    ∀ next, Takes Parser.block ws next (bl.Alike b)

/-- The body of a block, with its closing line. -/
theorem ReadsBody.takes_body {ls : List Line} {body : List Stmt} (h : ReadsBody b ls body) :
    ∃ ws, Lined ls ws ∧ Takes Parser.body ws (.keyword .endKw) (stmtsAlike b body) := by
  obtain ⟨ws, hlines, htakes⟩ := h
  exact ⟨ws, hlines, .bounded fun n hn => htakes (by omega) rfl⟩

/-- The control of a callback. -/
theorem reads_control (control : Option Ident) (h : ∀ i ∈ control, IsToken .identifier i.full) :
    ∃ ws, Trails (match control with
        | some control => "(" ++ control.full ++ ")"
        | none => "").toList ws ∧ ∀ ⦃next⦄, next ≠ .sign .leftParen →
      Takes Parser.control ws next fun control' =>
        control.map Ident.full = control'.map Ident.full := by
  cases control with
  | none =>
    refine ⟨[], .nil, fun next hnext => ?_⟩
    rw [Parser.control]
    refine .eatNot hnext ?_
    simp only [Bool.false_eq_true, if_false]
    exact .pure rfl
  | some i =>
    have htrails := Trails.parens (.cons (Written.name (h i rfl)) .nil)
    rw [commas, String.intercalate_singleton, commaWords, List.intercalate_singleton] at htrails
    refine ⟨_, htrails, fun next _ => ?_⟩
    rw [Parser.control]
    refine .eat rfl ?_
    simp only [if_true]
    refine .expect rfl fun t ht => .expect rfl fun _ _ => .pure ?_
    simpa using (congrArg Word.lexeme ht).symm

/-- **A callback is read back.** -/
theorem reads_callback {c : Callback} (h : CallbackPrintable b c) :
    ReadsBlock b (block b (.callback c)) (.callback c) := by
  obtain ⟨ws, htrails, hcontrol⟩ := reads_control c.control h.control
  obtain ⟨ws', hlines, hbody⟩ := (reads_stmts 1 h.body).takes_body
  have hhead : callbackHead c = Keyword.onKw.spelling ++ (" " ++ (c.name ++ match c.control with
      | some control => "(" ++ control.full ++ ")"
      | none => "")) := by
    simp only [callbackHead, ← String.append_assoc]
    rfl
  have hwritten : Written (callbackHead c).toList (Keyword.onKw.word :: (nameWord c.name :: ws)) := by
    rw [hhead]
    refine .behind .onKw ?_
    rw [String.toList_append]
    exact (Written.name h.name).append htrails
  refine ⟨_, Lined.cons (l := ⟨0, callbackHead c⟩) hwritten (hlines.closed 0 .onKw),
    ⟨_, _, rfl, by rintro ⟨⟩⟩, fun next => ?_⟩
  have hcallback : Takes Parser.callback (Keyword.onKw.word :: nameWord c.name ::
      (ws ++ lineEnd :: (ws' ++ [Keyword.endKw.word, Keyword.onKw.word, lineEnd]))) next
      (c.Alike b) := by
    rw [Parser.callback]
    refine .expect rfl fun _ _ => .expect rfl fun name hname => ?_
    refine (hcontrol (by simp)).bind fun control hcontrol' => .lineEnd ?_
    refine Takes.bind hbody fun body hbody' => ?_
    refine (Parser.takes_expectEnd .onKw).bindNil fun _ _ => .pure ⟨?_, hcontrol', hbody'⟩
    exact (congrArg Word.lexeme hname).symm
  simp only [List.cons_append, List.append_assoc, List.nil_append]
  rw [Parser.block]
  refine .peekKind fun t ht => ?_
  have ht : t.kind = .keyword .onKw := ht
  simp only [ht]
  exact hcallback.andThen fun c' hc' => hc'

/-- No parameters. -/
theorem takes_params (hnext : next ≠ .sign .leftParen) :
    Takes Parser.params [] next ([] = ·) := by
  rw [Parser.params]
  refine .eatNot hnext ?_
  simp only [Bool.false_eq_true, if_false]
  exact .pure rfl

/-- The first line of a function without parameters and result. -/
theorem takes_functionHead (name : String) :
    Takes (Parser.functionHead false) [Keyword.functionKw.word, nameWord name, lineEnd] next fun r =>
      r.1 = .functionKw ∧ r.2.name.full = name ∧ r.2.params = [] ∧ r.2.result = none ∧
        r.2.isTaskfunc = false ∧ r.2.isOverride = false := by
  rw [Parser.functionHead]
  refine .advance fun t ht => ?_
  have ht : t.kind = .keyword .functionKw := congrArg Word.kind ht
  simp only [ht, pure_bind]
  refine .expect rfl fun token htoken => ?_
  have hparams : Takes Parser.params [] (nextKind [lineEnd] next) ([] = ·) := takes_params nofun
  refine Takes.bind hparams ?_
  rintro _ rfl
  refine .eatNot nofun ?_
  simp only [Bool.false_eq_true, if_false]
  refine .lineEnd (.pure ⟨rfl, ?_, rfl, rfl, rfl, rfl⟩)
  rw [Ident.full_ofText]
  exact congrArg Word.lexeme htoken

/-- **A function is read back.** -/
theorem reads_function {f : FunctionDef} (h : FunctionPrintable b f) :
    ReadsBlock b (block b (.function f)) (.function f) := by
  obtain ⟨ws, hlines, htakes⟩ := reads_stmts 1 h.body
  have hhead : functionHead f = Keyword.functionKw.spelling ++ (" " ++ f.name.full) := by
    simp only [functionHead, h.params, List.isEmpty_nil, if_true, String.append_empty,
      ← String.append_assoc]
    rfl
  have hwritten : Written (functionHead f).toList [Keyword.functionKw.word, nameWord f.name.full] := by
    rw [hhead]
    exact .behind .functionKw (.name h.name)
  refine ⟨_, Lined.cons (l := ⟨0, functionHead f⟩) hwritten (hlines.closed 0 .functionKw),
    ⟨_, _, rfl, nofun⟩, fun next => ?_⟩
  have hfunction : Takes (Parser.function false) ([Keyword.functionKw.word, nameWord f.name.full,
      lineEnd] ++ (ws ++ [Keyword.endKw.word, Keyword.functionKw.word, lineEnd])) next (f.Alike b) := by
    refine .bounded (f := fun n => Parser.functionFrom n false) fun n hn => ?_
    simp only [List.length_append, List.length_cons, List.length_nil] at hn
    obtain ⟨n, rfl⟩ : ∃ m, n = m + 1 := ⟨n - 1, by omega⟩
    rw [Parser.functionFrom]
    refine (takes_functionHead f.name.full).bind ?_
    rintro ⟨closing, f'⟩ ⟨hclosing, hname, hparams, hresult, htask, hoverride⟩
    obtain rfl : closing = .functionKw := hclosing
    refine (htakes (by omega) (rfl : Parser.endsBody (.keyword .endKw) = true)).bind
      fun body hbody => ?_
    refine (Parser.takes_expectEnd .functionKw).bindNil fun _ _ => .pure ?_
    exact ⟨hname.symm, by simp [h.params, show f'.params = [] from hparams],
      by simp [h.result, show f'.result = none from hresult], h.isTaskfunc.trans htask.symm,
      h.isOverride.trans hoverride.symm, hbody⟩
  rw [Parser.block]
  refine .peekKind fun t ht => ?_
  have ht : t.kind = .keyword .functionKw := ht
  simp only [ht]
  exact hfunction.andThen fun f' hf' => hf'

theorem reads_block : ∀ {bl : Block}, blockPrintable b bl → ReadsBlock b (block b bl) bl
  | .callback _, h => reads_callback h
  | .function _, h => reads_function h

/-! ### Scripts -/

/-- **The text of blocks is scanned and read back**, block by block. -/
theorem reads_blocks (o : Options) {bls : List Block} (h : ∀ bl ∈ bls, blockPrintable b bl) :
    ∃ ws, Scan.Lexed false (script b o ⟨bls⟩).toList (ws ++ Scan.endWords false) ∧
      bls.length ≤ ws.length ∧
      ∀ ⦃fuel⦄ ⦃s s' : Parser.State⦄, bls.length < fuel → s.eof.kind = .eof → s.Passes ws s' →
        s'.rest = [] → ∃ bls', Parser.blocks fuel s = (bls', []) ∧
          List.Forall₂ (Block.Alike b) bls bls' := by
  induction bls with
  | nil =>
    refine ⟨[], .nil false, le_rfl, fun fuel s s' hfuel heof hs hrest => ⟨[], ?_, .nil⟩⟩
    obtain ⟨fuel, rfl⟩ : ∃ n, fuel = n + 1 := ⟨fuel - 1, by omega⟩
    have hempty : s.rest = [] := by rw [hs.rest_eq, hrest]
    have hskip : s.skipNewlines = s := by
      refine s.skipNewlines_eq ?_
      rw [Parser.State.peek, hempty, List.headD_nil, heof]
      rintro ⟨⟩
    simp [Parser.blocks, hskip, hempty]
  | cons bl bls ih =>
    rw [List.forall_mem_cons] at h
    obtain ⟨ws, hlines, ⟨w, rest, rfl, hw⟩, htakes⟩ := reads_block h.1
    obtain ⟨ws', hlexed, hlength, hblocks⟩ := ih h.2
    refine ⟨w :: rest ++ ws', ?_, ?_, fun fuel s s' hfuel heof hs hrest => ?_⟩
    · have htext : (script b o ⟨bl :: bls⟩).toList = (text o (block b bl)).toList ++
          ((if o.removeWhitespace then [] else ['\n']) ++ (script b o ⟨bls⟩).toList) := by
        simp only [script, List.map_cons, String.join_cons, String.toList_append, List.append_assoc]
        split <;> simp
      rw [htext, List.append_assoc]
      refine hlines.lexed o ?_
      split
      · exact hlexed
      · exact .emptyLine hlexed
    · simp only [List.length_cons, List.length_append]
      omega
    · obtain ⟨fuel, rfl⟩ : ∃ n, fuel = n + 1 := ⟨fuel - 1, by omega⟩
      obtain ⟨m, hm, hm'⟩ := hs.split
      obtain ⟨bl', s₁, hrun, hs₁, hbl⟩ := htakes _ heof hm rfl
      have heof₁ : s₁.eof.kind = .eof := by rw [← hs₁.eof, hm.eof, heof]
      obtain ⟨bls', hrun', hbls⟩ := hblocks (by simpa using hfuel) heof₁ (hs₁.trans hm') hrest
      have hskip : s.skipNewlines = s := s.skipNewlines_eq (by rw [hs.peek_kind]; exact hw)
      have hne : s.rest.isEmpty = false := by
        obtain ⟨ts, hts, hsrest⟩ := hs.words
        obtain ⟨t, ts, rfl, -⟩ := List.map_eq_cons_iff.mp hts
        rw [hsrest]
        rfl
      refine ⟨bl' :: bls', ?_, .cons hbl hbls⟩
      simp only [Parser.blocks, hskip, hne, Bool.false_eq_true, if_false, hrun, hrun']

/-- **Scripts are read back from print.** The text of a printable script, in any layout, is parsed
without a fault, as a script with the same blocks and statements, whose expressions have the same
texts. -/
theorem script_read_back (b : Builtins) (o : Options) (lines : FlatScript.Lines) {s : Script}
    (h : ∀ bl ∈ s.blocks, blockPrintable b bl) :
    ∃ s', Script.parse (script b o s) lines = .ok s' ∧
      List.Forall₂ (Block.Alike b) s.blocks s'.blocks := by
  obtain ⟨ws, hlexed, hlength, hblocks⟩ := reads_blocks o h
  obtain ⟨herrors, hwords⟩ := tokenize_of_lexed hlexed
  obtain ⟨ts, ends, hts, rfl, hends⟩ := List.map_eq_append_iff.mp hwords
  obtain ⟨eof, rfl, heof⟩ : ∃ eof, ends = [eof] ∧ eof.word = ⟨.eof, ""⟩ := by
    simpa [Scan.endWords, List.map_eq_cons_iff] using hends
  have hstate : Parser.State.ofTokens (tokenize (script b o s)).1 = ⟨ts, eof, true⟩ := by
    simp [Parser.State.ofTokens, hts]
  have hfuel : s.blocks.length < (tokenize (script b o s)).1.length + 1 := by
    rw [hts]
    simp at hlength ⊢
    omega
  have hpasses : Parser.State.Passes ⟨ts, eof, true⟩ (ts.map Token.word) ⟨[], eof, true⟩ :=
    ⟨⟨ts, rfl, by simp⟩, rfl⟩
  obtain ⟨bls', hrun, halike⟩ := hblocks hfuel (congrArg Word.kind heof) hpasses rfl
  refine ⟨⟨bls'⟩, ?_, halike⟩
  simp [Script.parse, hstate, hrun, herrors]

theorem meets_printable (e : Expr) : e.Meets (printable b) := by
  have hr : Rule.trivial.ImpliesExpr (printable b) :=
    ⟨fun _ _ => trivial, fun _ h => h, fun _ _ _ h => h⟩
  exact e.meets_trivial.imp hr

/-- An operation that is written with parentheses at its front. -/
def sampleProduct : Expr :=
  .binary .mul (.binary .add (.int 1 .zero) (.var (.ofText "$x" .zero) [] .zero) .zero)
    (.int 3 .zero) .zero

/-- A callback of a control, with a declaration, a condition and a loop. -/
def sampleCallback : Callback where
  name := "ui_control"
  control := some (.ofText "$knob" .zero)
  body := [
    .written (.declare ⟨.ofText "%a" .zero, ["const"], some sampleProduct, [],
      some (.single sampleProduct)⟩) .zero,
    .written (.ifChain [⟨.unary .not sampleProduct .zero,
      [.written (.call ⟨.ofText "reset" .zero, [], true, true, .zero⟩) .zero]⟩]
      [.written (.whileLoop sampleProduct
        [.written (.assign ⟨.ofText "%a" .zero, [sampleProduct], .zero⟩ sampleProduct) .zero]) .zero])
      .zero]
  span := .zero

theorem sampleCallback_read_back : blockPrintable default (.callback sampleCallback) ∧
    ∃ s', Script.parse (script default default ⟨[.callback sampleCallback]⟩) default = .ok s' ∧
      List.Forall₂ (Block.Alike default) [.callback sampleCallback] s'.blocks := by
  have hproduct : Stable default sampleProduct := by decide +kernel
  have hnot : Stable default (.unary .not sampleProduct .zero) := by decide +kernel
  have harray : IsToken .identifier (Ident.ofText "%a" .zero).full := by decide +kernel
  have hreset : IsToken .identifier (Ident.ofText "reset" .zero).full := by decide +kernel
  have hdeclare : DeclPrintable default ⟨.ofText "%a" .zero, ["const"], some sampleProduct, [],
      some (.single sampleProduct)⟩ :=
    ⟨harray, by decide +kernel, by rintro _ ⟨⟩; exact hproduct, by simp, by rintro _ ⟨⟩; exact hproduct⟩
  have hprintable : blockPrintable default (.callback sampleCallback) := by
    refine ⟨by decide +kernel, by decide +kernel, ⟨hdeclare, fun e _ => meets_printable e, trivial, ?_⟩,
      ⟨⟨rfl, by simpa using hnot⟩, ⟨meets_printable _, trivial,
        ⟨⟨⟨hreset, by simp, rfl⟩, trivial⟩, trivial⟩, trivial⟩, trivial,
        ⟨hproduct, meets_printable _, trivial, .inr ⟨⟨harray, by simpa using hproduct, hproduct⟩,
          meets_printable _, meets_printable _⟩, trivial⟩, trivial⟩, trivial⟩
    rintro _ ⟨⟩
    exact meets_printable _
  exact ⟨hprintable, script_read_back default default default (by simpa using hprintable)⟩

end Printer

end FlatScript
