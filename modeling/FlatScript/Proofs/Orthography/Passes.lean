import FlatScript.Proofs.Orthography.Parsed
import FlatScript.Proofs.Orthography.Steps

/-!
# Orthography and passes

A parsed script obeys the orthography of its tokens, and every pass leaves it so, in whatever order
the passes are run. Nothing but the namespaces of its lines is put into a script from outside.

* `FlatScript.Produced` is what passes make of parsed scripts, one after the other; a compilation is
  such a run (`FlatScript.Compilation.produced`).
* `FlatScript.Produced.obeyed`: such a script obeys an orthography that all tokens obey, under
  namespaces that names may stand under.
-/

namespace FlatScript

/-- **The passes.** The last one is given the names that it has to keep. -/
inductive Pass where
  | combine | lower | sigils | expand | frames | arrange | controls | undot | fold
  | shorten (keep : List String)

/-- What a pass does with a script. -/
def Pass.run (env : Env) : Pass → Script → Compile Script
  | combine, s => return s.combineCallbacks
  | lower, s => Lowering.script env s
  | sigils, s => Sigils.script env s
  | expand, s => Inlining.script env s
  | frames, s => do Taskfunc.program env; return s
  | arrange, s => Arrangement.script s
  | controls, s => Controls.script env s
  | undot, s => Undotting.script s
  | fold, s => return Folding.script s
  | shorten keep, s => return (← Compaction.script env keep s).1

/-- **A script that passes have made of a parsed one**, in any order, with the program that they
have made meanwhile. There are no functions in it at first. -/
inductive Produced (env : Env) : Script → Program → Prop
  | parsed {source : String} {s : Script} {p : Program}
    (h : Script.parse source env.lines = .ok s) (hp : p.functions = []) : Produced env s p
  | pass {s s' : Script} {p p' : Program} (hs : Produced env s p) (pass : Pass)
    (h : (pass.run env s).run p = .ok (s', p')) : Produced env s' p'

variable {o : Orthography} {env : Env} {s s' : Script} {p p' : Program}

/-- **A pass keeps an orthography.** -/
theorem Obeyed.pass (ho : o.Stays) (hl : o.Under env.lines) (hs : Obeyed o s p) {pass : Pass}
    (h : (pass.run env s).run p = .ok (s', p')) : Obeyed o s' p' := by
  cases pass with
  | combine =>
    cases h
    exact hs.combine
  | lower => exact hs.lower ho hl h
  | sigils => exact hs.sigils ho h
  | expand => exact hs.expand ho h
  | frames =>
    obtain ⟨⟨⟩, q, hframe, h⟩ := StateT.bind_eq_ok.mp h
    cases h
    exact hs.frames ho hframe
  | arrange => exact hs.arrange h
  | controls => exact hs.controls ho h
  | undot => exact hs.undot ho h
  | fold =>
    cases h
    exact hs.fold
  | shorten keep =>
    obtain ⟨⟨s₁, t⟩, q, hshort, h⟩ := StateT.bind_eq_ok.mp h
    cases h
    exact hs.shorten ho hshort

/-- **What passes make of parsed scripts obeys the orthography of tokens.** -/
theorem Produced.obeyed (ho : o.Stays) (hl : o.Under env.lines)
    (ht : ∀ source, ∀ t ∈ (tokenize source).1, t.Obeys o) (h : Produced env s p) :
    Obeyed o s p := by
  induction h with
  | @parsed source _ _ h hp =>
    exact ⟨Script.obeys_of_parse (ht source) h, by simp [hp], by simp [hp]⟩
  | pass _ pass h ih => exact ih.pass ho hl h

/-- **A compilation is a run of passes** on the script of its source. -/
theorem Compilation.produced {options : Options} {source : String}
    (r : Compilation env options source) :
    ∃ p, Produced env r.final p := by
  have hparsed : Produced env r.parsed {} := .parsed r.parse_eq rfl
  have hjoined : Produced env r.joined {} := by
    unfold Compilation.joined
    split
    · exact hparsed.pass .combine rfl
    · exact hparsed
  have hlowered := hjoined.pass .lower r.lower_eq
  have hexpanded := (hlowered.pass .sigils r.type_eq).pass .expand r.expand_eq
  have hframed : Produced env r.expanded.1 r.framed := by
    refine hexpanded.pass .frames ?_
    simp [Pass.run, r.frame_eq]
  have hchecked := ((hframed.pass .arrange r.arrange_eq).pass .sigils r.resolve_eq).pass .controls
    r.check_eq
  have hundotted := hchecked.pass .undot r.undot_eq
  have hfolded : Produced env r.folded r.undotted.2 := by
    rw [r.fold_eq]
    split
    · exact hundotted.pass .fold rfl
    · exact hundotted
  have hshortens := r.shortens
  generalize r.final = final, r.shortNames = short at hshortens ⊢
  cases hshortens with
  | keep => exact ⟨_, hfolded⟩
  | @shorten _ t q _ hrun =>
    refine ⟨q, hfolded.pass (.shorten options.preserveNames) ?_⟩
    simp [Pass.run, hrun]

end FlatScript
