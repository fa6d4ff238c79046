import FlatScript.Proofs.Characters
import FlatScript.Proofs.Layout.Orthography

/-!
# Every script has one program in two layouts

A parsed script is solid, and every pass leaves it so, in whatever order the passes are run. Nothing
but the namespaces of its lines is put into a script from outside, and these are all that its two
layouts hang on.

* `FlatScript.Produced.two_layouts`: both layouts of whatever passes have made of parsed scripts are
  the same program, under namespaces that names stay solid under.
* `FlatScript.looseNamespaces_differ`: under other namespaces they are not.
-/

namespace FlatScript

open Printer (withLayout)

variable {env : Env} {s : Script} {p : Program}

/-- **The two layouts of a script are the same program.** Under namespaces that names stay solid
under, whatever passes have been run on a parsed script and whatever the width of the indentation:
without the blanks at the front of its lines and without its empty lines, the indented text is the
other one, and both are scanned as the same words. -/
theorem Produced.two_layouts (hl : env.lines.SolidNamespaces) (h : Produced env s p) (b : Builtins)
    (o : Options) :
    unindented (Printer.script b (withLayout o false) s) = Printer.script b (withLayout o true) s ∧
      (tokenize (Printer.script b (withLayout o false) s)).1.map Token.word =
        (tokenize (Printer.script b (withLayout o true) s)).1.map Token.word :=
  Printer.layouts_agree b o fun bl hbl => Printer.solidBlock (h.isSolid hl bl hbl)

/-! ### Namespaces -/

/-- A text with one assignment. -/
def assignText : String := "on init\nx := 1\nend on\n"

/-- Its lines come from under a namespace. -/
def assignEnv (n : String) : Env := ⟨{}, Lines.empty.push 3 ⟨none, [n]⟩⟩

/-- What it is lowered to. -/
def loweredAssign (n : String) : Option (Script × Program) :=
  (Script.parse assignText (assignEnv n).lines).toOption.bind fun s =>
    ((Pass.lower.run (assignEnv n) s).run {}).toOption

theorem produced_of_loweredAssign {n : String} {s : Script} {p : Program}
    (h : loweredAssign n = some (s, p)) : Produced (assignEnv n) s p := by
  obtain ⟨s₀, hparse, hlower⟩ := Option.bind_eq_some_iff.mp h
  exact .pass (.parsed (Except.toOption_eq_some.mp hparse) rfl) .lower
    (Except.toOption_eq_some.mp hlower)

/-- Both layouts of a script, without white space and with it. -/
def layouts (s : Script) : String × String :=
  (Printer.script {} (withLayout {} true) s, Printer.script {} (withLayout {} false) s)

/-- **Under other namespaces the layouts differ**: a blank at the front of the outermost one is
taken away with the indentation, and so is one behind a line feed; a mark of the byte order is
skipped at the front of a line, but not behind its indentation. -/
theorem looseNamespaces_differ :
    (∃ s p, loweredAssign " n" = some (s, p) ∧ Produced (assignEnv " n") s p ∧
      layouts s = ("on init\n n.x := 1\nend on\n", "on init\n   n.x := 1\nend on\n\n") ∧
      unindented (layouts s).2 ≠ (layouts s).1) ∧
    (∃ s p, loweredAssign "m\n n" = some (s, p) ∧ Produced (assignEnv "m\n n") s p ∧
      unindented (layouts s).2 ≠ (layouts s).1) ∧
    ∃ s p, loweredAssign "\ufeffn" = some (s, p) ∧ Produced (assignEnv "\ufeffn") s p ∧
      (tokenize (layouts s).2).1.map Token.word ≠ (tokenize (layouts s).1).1.map Token.word := by
  have htext : assignText.toList = _ := String.toList_ofList
  have hblank : (loweredAssign " n").map (fun r => layouts r.1) =
      some ("on init\n n.x := 1\nend on\n", "on init\n   n.x := 1\nend on\n\n") := by
    rw [loweredAssign, Script.parse_eq_ofChars htext]
    decide +kernel
  have hfeed : ((loweredAssign "m\n n").map fun r =>
      decide (unindented (layouts r.1).2 ≠ (layouts r.1).1)) = some true := by
    rw [loweredAssign, Script.parse_eq_ofChars htext]
    decide +kernel
  have hmark : ((loweredAssign "\ufeffn").map fun r =>
      decide ((tokenize (layouts r.1).2).1.map Token.word ≠
        (tokenize (layouts r.1).1).1.map Token.word)) = some true := by
    rw [loweredAssign, Script.parse_eq_ofChars htext]
    decide +kernel
  obtain ⟨⟨s, p⟩, hs, hlayouts⟩ := Option.map_eq_some_iff.mp hblank
  obtain ⟨⟨s₁, p₁⟩, hs₁, hfeed⟩ := Option.map_eq_some_iff.mp hfeed
  obtain ⟨⟨s₂, p₂⟩, hs₂, hmark⟩ := Option.map_eq_some_iff.mp hmark
  refine ⟨⟨s, p, hs, produced_of_loweredAssign hs, hlayouts, ?_⟩,
    ⟨s₁, p₁, hs₁, produced_of_loweredAssign hs₁, of_decide_eq_true hfeed⟩,
    s₂, p₂, hs₂, produced_of_loweredAssign hs₂, of_decide_eq_true hmark⟩
  rw [hlayouts]
  decide +kernel

theorem assignText_two_layouts : ∃ s p, loweredAssign "n" = some (s, p) ∧
    (assignEnv "n").lines.SolidNamespaces ∧ Produced (assignEnv "n") s p ∧
    unindented (Printer.script {} (withLayout {} false) s) =
      Printer.script {} (withLayout {} true) s ∧
    (tokenize (Printer.script {} (withLayout {} false) s)).1.map Token.word =
      (tokenize (Printer.script {} (withLayout {} true) s)).1.map Token.word := by
  have htext : assignText.toList = _ := String.toList_ofList
  have hsome : (loweredAssign "n").isSome = true := by
    rw [loweredAssign, Script.parse_eq_ofChars htext]
    decide +kernel
  obtain ⟨⟨s, p⟩, hlowered⟩ := Option.isSome_iff_exists.mp hsome
  have hproduced := produced_of_loweredAssign hlowered
  have hl : (assignEnv "n").lines.SolidNamespaces := by
    refine Lines.solidNamespaces_of_known (fun info hinfo => ?_) .nil
    obtain rfl := List.eq_of_mem_replicate hinfo
    exact SolidPrefix.nil.snoc (by decide)
  exact ⟨s, p, hlowered, hl, hproduced, hproduced.two_layouts hl {} {}⟩

end FlatScript
