import FlatScript.Proofs.Compilation
import FlatScript.Proofs.Controls
import FlatScript.Proofs.Flat
import FlatScript.Proofs.References
import FlatScript.Proofs.Sigils

/-!
# What references are resolved to

Sigils are found a second time once all functions are in their places, and from then on the
references of a script only get other names. `FlatScript.Sigils.Found` says what a reference
was taken for: something that has no sigil, a variable of the script or of the engine, or a
parameter of the function around it.
-/

namespace FlatScript

/-- The parameters of a block. -/
def Block.params : Block → List String
  | .callback _ => []
  | .function f => f.paramNames

variable {env : Env} {p : Program} {params : List String}

namespace Sigils

/-- **What a reference was taken for**, in a function with the given parameters. -/
inductive Found (b : Builtins) (p : Program) (params : List String) (i : Ident) : Prop
  | noVariable (hsigil : i.sigil = none) (h : isSigilFree b p params i.name = true)
  | variable (hsigil : i.sigil.isSome = true) (h : isDeclared b p i.full = true)
  | parameter (hsigil : i.sigil.isSome = true) (h : isParam params i.full = true)

theorem found_of_resolve {b : Builtins} {i j : Ident} {subscripted : Bool}
    (h : resolve b p params i subscripted = .ok j) : Found b p params j := by
  unfold resolve at h
  split at h
  · next hsigil =>
    split at h
    · next hfree =>
      cases h
      exact .noVariable hsigil hfree
    · split at h
      · cases h
      · next sigil hcandidates =>
        cases h
        have hmem : sigil ∈ candidates b p i.name subscripted := by simp [hcandidates]
        have hdeclared := (List.mem_filter.mp hmem).2
        rw [Bool.and_eq_true] at hdeclared
        exact .variable rfl hdeclared.2
      · cases h
  · next sigil hsigil =>
    split at h
    · next hdeclared =>
      cases h
      have hsome : i.sigil.isSome = true := by simp [hsigil]
      rcases Bool.or_eq_true_iff.mp hdeclared with hdeclared | hparam
      · exact .variable hsome hdeclared
      · exact .parameter hsome hparam
    · split at h <;> cases h

theorem found_of_ident {scope : Scope} {i j : Ident} {subscripted : Bool}
    (h : ident env p scope i subscripted = .ok j) : Found env.builtins p scope.params j :=
  found_of_resolve (resolve_of_ident h)

/-- What every reference of an expression is taken for. -/
theorem found_carries (env : Env) (p : Program) (scope : Scope) :
    Carries env p scope flat (refer (Found env.builtins p scope.params)) where
  atom h := h.elim
  binary _ := trivial
  unary _ := trivial
  literal {e} hlit _ := by
    cases e with
    | binary _ _ _ _ | unary _ _ _ | var _ _ _ | call _ _ _ _ _ => cases hlit
    | _ => trivial
  var _ _ hj := found_of_ident hj
  call _ := trivial
  skips h := absurd h Bool.false_ne_true
  kept h := .inl h

/-- **Finding sigils tells what every reference is taken for**, in functions with the given
parameters. -/
theorem leafMap_carries (env : Env) (p : Program) (params : List String) :
    (leafMap env p).Carries flat (refer (Found env.builtins p params)) (· = params) where
  expr ha hm h := ha ▸ (found_carries env p _).ofExpr _ hm h
  target ha hm h := ha ▸ (found_carries env p _).ofVarRef hm h
  call ha _ hm h := by
    obtain ⟨args, hargs, rfl⟩ := call_eq_ok h
    exact ⟨trivial, ha ▸ (found_carries env p _).ofArguments _ hm hargs⟩
  assign _ _ _ := trivial
  whole _ h := h.elim
  accessors h := h.elim
  reshape _ _ := trivial
  list _ _ := trivial

/-- A block whose references have been resolved. -/
theorem found_of_mapLeaves {b b' : Block} (hb : stmtsMeet flat b.body)
    (h : b.MapLeaves (leafMap env p) (fun i => ident env p ⟨[], []⟩ i false) b') :
    b'.params = b.params ∧ ∀ i ∈ b'.references, Found env.builtins p b'.params i := by
  cases h with
  | @callback c bound body hcontrol hbody =>
    refine ⟨rfl, fun i hi => ?_⟩
    rcases List.mem_append.mp hi with hi | hi
    · have hrel := Except.mapM_option_eq_ok.mp hcontrol
      exact forall_mem_of_optionRel hrel (fun _ _ h => found_of_ident h) i (Option.mem_toList.mp hi)
    · exact (stmtsMeet_refer _).mp ((leafMap_carries env p []).stmts rfl _ hb hbody) i hi
  | @function f f' hf =>
    obtain ⟨body, hbody, hf⟩ := Except.bind_eq_ok.mp hf
    cases hf
    refine ⟨rfl, fun i hi => ?_⟩
    exact (stmtsMeet_refer _).mp ((leafMap_carries env p f.paramNames).stmts rfl _ hb hbody) i hi

end Sigils

/-! ### Controls -/

namespace Controls

/-- Checking controls brings no new references. -/
theorem carries_refer (P : Ident → Prop) : Controls.Carries (refer P) (refer P) where
  binary _ := trivial
  unary _ := trivial
  var h _ _ := h
  call _ := trivial
  literal _ h := h
  id := trivial
  callStmt _ := trivial
  assign _ := trivial
  skips _ h := h
  noAtom h := h
  noWhole h := h
  reshape _ _ := trivial
  list _ := trivial

variable {symbols : Symbols}

theorem references_of_mapLeaves {b b' : Block}
    (h : b.MapLeaves (leafMap env symbols) .ok b') :
    b'.params = b.params ∧ ∀ i ∈ b'.references, i ∈ b.references := by
  have hcarries := (carries_refer (· ∈ b.references)).leafMap env symbols
  cases h with
  | @callback c bound body hcontrol hbody =>
    refine ⟨rfl, fun i hi => ?_⟩
    rcases List.mem_append.mp hi with hi | hi
    · have hrel := Except.mapM_option_eq_ok.mp hcontrol
      refine List.mem_append_left _ (Option.mem_toList.mpr ?_)
      obtain ⟨j, hj, hsame⟩ := exists_mem_of_optionRel hrel (Option.mem_toList.mp hi)
      cases hsame
      exact hj
    · have hbefore : stmtsMeet (refer (· ∈ (Block.callback c).references)) c.body :=
        (stmtsMeet_refer _).mpr fun j hj => List.mem_append_right _ hj
      exact (stmtsMeet_refer _).mp (hcarries.stmts trivial _ hbefore hbody) i hi
  | @function f f' hf =>
    obtain ⟨body, hbody, hf⟩ := Except.bind_eq_ok.mp hf
    cases hf
    refine ⟨rfl, fun i hi => ?_⟩
    have hbefore : stmtsMeet (refer (· ∈ (Block.function f).references)) f.body :=
      (stmtsMeet_refer _).mpr fun j hj => hj
    exact (stmtsMeet_refer _).mp (hcarries.stmts trivial _ hbefore hbody) i hi

end Controls

end FlatScript
