import FlatScript.Proofs.Compilation

/-!
# Texts that are given by their characters

A script is read as a list of characters, and so are the directives in it. A string is kept as
bytes, and taking it apart by evaluation is far more work than all that a compilation does with
its characters. The characters of a literal are known without that, and the theorems of this file
put them in the place of a text before it is evaluated.

* `FlatScript.Options.withPragmas_eq_self`: a text without an opening brace has no directives.
* `FlatScript.Script.parse_eq_ofChars`: the script of a text is that of its characters.
* `FlatScript.compile_eq_ofChars`: so is the compilation of a text without directives.
-/

namespace FlatScript

variable {source : String} {cs : List Char}

/-- The characters of a text that is put together of two. -/
theorem Text.toList_pieces {s t : String} {cs ds : List Char} (hs : s.toList = cs)
    (ht : t.toList = ds) : (s ++ t).toList = cs ++ ds := by
  rw [String.toList_append, hs, ht]

/-! ### Directives -/

namespace Pragma

variable {word : String}

theorem afterHead?_eq_none (h : '\x7b' ∉ cs) : afterHead? word cs = none := by
  have hbrace : afterWord? "\x7b" cs = none := by
    refine if_neg fun hprefix => h ?_
    exact (List.isPrefixOf_iff_prefix.mp hprefix).subset (List.mem_singleton_self _)
  rw [afterHead?, hbrace]
  rfl

/-- What is not found in any text without an opening brace is not found. -/
theorem find_eq_nil {at? : Nat → List Char → Option (Pragma × List Char)}
    (hat : ∀ line cs, '\x7b' ∉ cs → at? line cs = none) (h : '\x7b' ∉ cs) (skip line : Nat) :
    find at? skip line cs = [] := by
  induction cs generalizing skip line with
  | nil => cases skip <;> rfl
  | cons c cs ih =>
    have hcs : '\x7b' ∉ cs := fun hmem => h (List.mem_cons_of_mem c hmem)
    cases skip with
    | zero => simp only [find, hat line _ h, ih hcs]
    | succ skip => simp only [find, ih hcs]

end Pragma

/-- **A text without an opening brace has no directives**, and leaves the options as they are. -/
theorem Options.withPragmas_eq_self (o : Options) (lines : Lines) (h : '\x7b' ∉ source.toList) :
    o.withPragmas source lines = o := by
  have hpreserves : Pragma.preserves source = [] :=
    Pragma.find_eq_nil (fun line cs hcs => by simp [Pragma.preserveAt?, Pragma.afterHead?_eq_none hcs])
      h 0 1
  have hswitches : Pragma.switches source = [] :=
    Pragma.find_eq_nil (fun line cs hcs => by simp [Pragma.switchAt?, Pragma.afterHead?_eq_none hcs])
      h 0 1
  simp [Options.withPragmas, hpreserves, hswitches, Pragma.applySwitches]

/-! ### Scripts -/

/-- The script that tokens spell, or what is wrong with them and their text. -/
def Script.ofTokens (tokens : List Token) (lexErrors : List LexError) (lines : Lines) :
    Except (List ParseError) Script :=
  let (blocks, faults) := Parser.blocks (tokens.length + 1) (.ofTokens tokens)
  let errors := (lexErrors.map LexError.toFault ++ faults).map (·.locate lines)
  if errors.isEmpty then .ok ⟨blocks⟩ else .error errors

/-- The script that characters spell. -/
def Script.ofChars (cs : List Char) (lines : Lines) : Except (List ParseError) Script :=
  let scanned := Scan.tokens (cs.length + 1) .start false cs
  Script.ofTokens scanned.1 scanned.2 lines

/-- **The script of a text is that of its characters.** -/
theorem Script.parse_eq_ofChars (h : source.toList = cs) (lines : Lines) :
    Script.parse source lines = Script.ofChars cs lines := by
  subst h
  rfl

/-! ### Compilations -/

/-- What a compilation makes of a script that has been parsed. -/
def compileParsed (env : Env) (o : Options) (parsed : Except (List ParseError) Script) :
    Except Failure Compiled :=
  let written : Staged Compiled := do
    let s ← Staged.ofParse parsed
    let (s, p) ← Staged.runSteps Staged.never (steps env o) s {}
    let (s, shortNames) ← Staged.compact Staged.never env o s p
    Staged.enter Staged.never .writing
    let code := Printer.script env.builtins o s
    Staged.enter Staged.never .done
    return ⟨code, shortNames, o⟩
  match written.run [.pragmas, .parsing] with
  | .ok compiled _ => .ok compiled
  | .error failure _ => .error failure

theorem compile_eq_compileParsed (env : Env) (o : Options) (source : String) :
    compile env o source =
      compileParsed env (o.withPragmas source env.lines) (Script.parse source env.lines) := rfl

/-- **A text without directives is compiled from its characters.** -/
theorem compile_eq_ofChars (env : Env) (o : Options) (h : source.toList = cs) (hplain : '\x7b' ∉ cs) :
    compile env o source = compileParsed env o (Script.ofChars cs env.lines) := by
  rw [compile_eq_compileParsed, Script.parse_eq_ofChars h,
    Options.withPragmas_eq_self o env.lines (h ▸ hplain)]

end FlatScript
