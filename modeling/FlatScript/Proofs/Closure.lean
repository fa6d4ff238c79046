import FlatScript.Proofs.Characters
import FlatScript.Proofs.Hoisting
import FlatScript.Proofs.LetterCase
import FlatScript.Proofs.Resolution

/-!
# The variables of a compiled script

What a reference of a compiled script is to is decided twice. Whether it is to a variable at all
is looked up among the names that are declared anywhere in the source; whether the declaration is
written depends on whether its function is reached. So a script may refer to a variable whose
declaration is not in it. This file says when.

* `FlatScript.Compilation.Closes` is what a reference of a compiled script can be, and
  `FlatScript.Compilation.Lost` is how a declaration can be missing.
* `FlatScript.compile_closed` is the statement on compilations, and
  `FlatScript.looseText_open` a script with a reference that nothing declares.
-/

namespace FlatScript

variable {env : Env} {s s' : Script} {p p' : Program}

/-! ### References -/

/-- **The references of a script.** -/
def Script.references (s : Script) : List Ident := s.blocks.flatMap Block.references

/-- **References lose their dots.** -/
theorem Undotting.exists_reference {i : Ident} (h : i ∈ (undot.script s).references) :
    ∃ i₀ ∈ s.references, i = ident i₀ := by
  obtain ⟨b', hb', hi⟩ := List.mem_flatMap.mp h
  obtain ⟨b, hb, rfl⟩ := List.mem_map.mp hb'
  -- Whether a call keeps its first argument is told by its name, and those names have no dots.
  have himplies : (refer (· ∈ b.references)).Implies
      (undot.refersThrough fun i => ∃ i₀ ∈ b.references, i = ident i₀) := by
    refine ⟨fun e he => ?_, fun k _ => ?_, fun _ _ => trivial, fun _ hname => hname,
      fun _ _ _ h => h, fun _ _ h => h⟩
    · cases e with
      | var i es span => exact ⟨i, he, rfl⟩
      | call name args isProcedure usingCall span =>
        intro hname
        change Builtins.keepsFirstArgument (Name.undotted name.name) = true
        rwa [keepsFirstArgument hname]
      | _ => trivial
    · cases k with
      | call c =>
        intro hname
        change Builtins.keepsFirstArgument (Name.undotted c.name.name) = true
        rwa [keepsFirstArgument hname]
      | _ => trivial
  have hbody : ∀ body, (∀ j ∈ stmtsReferences body, j ∈ b.references) →
      i ∈ stmtsReferences (undot.stmts body) → ∃ i₀ ∈ b.references, i = ident i₀ := by
    intro body hsub hi
    have hmeets := stmtsMeet_mono himplies ((stmtsMeet_refer body).mpr hsub)
    exact (stmtsMeet_refer _).mp ((undot.carries_refersThrough _).ofStmts body hmeets) i hi
  have hfound : ∃ i₀ ∈ b.references, i = ident i₀ := by
    cases b with
    | callback c =>
      rcases List.mem_append.mp hi with hi | hi
      · obtain ⟨i₀, hi₀, heq⟩ := Option.map_eq_some_iff.mp (Option.mem_toList.mp hi)
        exact ⟨i₀, List.mem_append_left _ (Option.mem_toList.mpr hi₀), heq.symm⟩
      · exact hbody c.body (fun j hj => List.mem_append_right _ hj) hi
    | function f => exact hbody f.body (fun j hj => hj) hi
  obtain ⟨i₀, hi₀, heq⟩ := hfound
  exact ⟨i₀, List.mem_flatMap.mpr ⟨b, hb, hi₀⟩, heq⟩

/-- **Folding brings no new references.** -/
theorem Folding.references_subset : (Folding.script s).references ⊆ s.references := by
  intro i h
  obtain ⟨b', hb', hi⟩ := List.mem_flatMap.mp h
  obtain ⟨b, hb, rfl⟩ := List.mem_map.mp hb'
  refine List.mem_flatMap.mpr ⟨b, hb, ?_⟩
  have hbody : ∀ body, (∀ j ∈ stmtsReferences body, j ∈ b.references) →
      i ∈ stmtsReferences (stmts (constantsOf s) body) → i ∈ b.references := by
    intro body hsub hi
    have hmeets : stmtsMeet (refer (· ∈ b.references)) (stmts (constantsOf s) body) :=
      meets_stmts (refer_folds _) body ((stmtsMeet_refer body).mpr hsub)
    exact (stmtsMeet_refer _).mp hmeets i hi
  cases b with
  | callback c =>
    rcases List.mem_append.mp hi with hi | hi
    · exact List.mem_append_left _ hi
    · exact hbody c.body (fun j hj => List.mem_append_right _ hj) hi
  | function f => exact hbody f.body (fun j hj => hj) hi

/-! ### Declarations that folding may drop -/

/-- The names that are declared inside of conditions and loops. -/
def stmtsGuarded (ss : List Stmt) : List Ident :=
  ss.flatMap fun x => match x.kind with
    | .declare _ => []
    | _ => x.declared

/-- **The names that a script declares inside of conditions and loops.** -/
def Script.guarded (s : Script) : List Ident := s.blocks.flatMap fun b => stmtsGuarded b.body

theorem Folding.mem_stmtsDeclared (constants : Constants) {i : Ident} {ss : List Stmt}
    (h : i ∈ stmtsDeclared ss) : i ∈ stmtsDeclared (stmts constants ss) ∨ i ∈ stmtsGuarded ss := by
  induction ss with
  | nil => cases h
  | cons x ss ih =>
    simp only [stmts, stmtsDeclared_append, stmtsGuarded, List.flatMap_cons, List.mem_append]
    rcases List.mem_append.mp h with h | h
    · obtain ⟨kind, span, trace⟩ := x
      cases kind with
      | declare d => exact .inl (.inl (List.mem_append_left _ h))
      | _ => exact .inr (.inl h)
    · exact (ih h).imp .inr .inr

/-- **Folding drops declarations from conditions and loops only.** -/
theorem Folding.mem_declared {i : Ident} (h : i ∈ s.declared) :
    i ∈ (Folding.script s).declared ∨ i ∈ s.guarded := by
  obtain ⟨b, hb, hi⟩ := List.mem_flatMap.mp h
  rcases mem_stmtsDeclared (constantsOf s) hi with hi | hi
  · refine .inl (List.mem_flatMap.mpr ⟨_, List.mem_map_of_mem hb, ?_⟩)
    cases b <;> exact hi
  · exact .inr (List.mem_flatMap.mpr ⟨b, hb, hi⟩)

/-! ### Names of variables -/

theorem Undotting.full_ident (i : Ident) : (ident i).full = Name.undotted i.full := by
  cases hsigil : i.sigil with
  | none => simp [Ident.full, ident, hsigil]
  | some sigil =>
    have htext : Text.replaceChar '.' ['_', '_'] sigil.text.toList = sigil.text.toList := by
      cases sigil <;> decide
    rw [← String.toList_inj]
    simp only [Ident.full, ident, hsigil, Name.undotted, String.toList_append, String.toList_ofList,
      Text.replaceChar, List.flatMap_append]
    simp only [Text.replaceChar] at htext
    rw [htext]

/-! ### Compilations -/

namespace Compilation

variable {o : Options} {source : String} (r : Compilation env o source)

/-- The short name of a variable, if short names are asked for. -/
def short (i : Ident) : Ident :=
  match r.shortNames with
  | none => i
  | some t => Compaction.ident t i

/-- The program that references are resolved by the second time. -/
theorem arranged_symbols : r.arranged.2.symbols = r.lowered.2.symbols := by
  obtain ⟨-, functions, hsigils, -⟩ := Sigils.script_run r.type_eq
  obtain ⟨p₁, bodies, hgrows, hexpanded, -, -⟩ :=
    Inlining.Scheme.script_run (Inlining.callScheme_starts env _ _) r.expand_eq
  obtain ⟨functions', hframed, -⟩ := Taskfunc.program_run r.frame_eq
  obtain ⟨init, rest, -, -, harranged⟩ := Arrangement.script_run r.arrange_eq
  rw [harranged, hframed, hexpanded]
  change p₁.symbols = _
  rw [hgrows.symbols, hsigils]

/-- The variables without dots. -/
theorem mem_undotted_vars {v : String} :
    v ∈ r.undotted.2.symbols.vars ↔ ∃ u ∈ r.lowered.2.symbols.vars, Name.undotted u = v := by
  obtain ⟨-, functions, hsigils, -⟩ := Sigils.script_run r.resolve_eq
  have hundot : r.undotted.2 =
      { r.resolved.2 with symbols := r.resolved.2.symbols.renameVariables Name.undotted } := by
    have h := r.undot_eq
    unfold Undotting.script at h
    exact (congrArg Prod.snd (Except.ok.inj h)).symm
  have hsymbols : r.resolved.2.symbols = r.lowered.2.symbols := by
    rw [hsigils]
    exact r.arranged_symbols
  rw [hundot]
  change v ∈ Name.distinct (r.resolved.2.symbols.vars.map Name.undotted) ↔ _
  rw [Name.mem_distinct, hsymbols, List.mem_map]

/-! ### Declarations -/

/-- **What happened when the script was lowered.** -/
def History (log : List Lowering.Event) : Prop :=
  Lowering.ScriptHistory env r.joined r.lowered.1 r.lowered.2 log

/-- Every compilation has a history. -/
theorem exists_history : ∃ log, r.History log := Lowering.script_history r.lower_eq

/-- **The variables are in lower case** when they get short names. -/
theorem lower_undotted_vars {v : String} (hv : v ∈ r.undotted.2.symbols.vars) :
    Text.lower v = v := by
  obtain ⟨log, hlog⟩ := r.exists_history
  obtain ⟨u, hu, rfl⟩ := r.mem_undotted_vars.mp hv
  rcases hlog.books.vars u hu with ⟨i, -, -, rfl⟩ | ⟨e, -, i, -, -, rfl⟩
  · exact Text.lower_undotted_lower i.full
  · exact Text.lower_undotted_lower i.full

/-- Whether folding is asked for or not, it drops declarations from conditions and loops only. -/
theorem mem_folded {i : Ident} (h : i ∈ r.undotted.1.declared) :
    i ∈ r.folded.declared ∨ o.optimizeCode = true ∧ i ∈ r.undotted.1.guarded := by
  rw [r.fold_eq]
  split
  · next ho => exact (Folding.mem_declared h).imp_right fun hi => ⟨ho, hi⟩
  · exact .inl h

/-- The declarations of the script that is written have short names. -/
theorem final_declared : r.final.declared = r.folded.declared.map r.short := by
  have hshortens := r.shortens
  unfold short
  generalize r.shortNames = names at hshortens ⊢
  generalize r.final = final at hshortens ⊢
  cases hshortens with
  | keep _ => simp
  | shorten _ hrun =>
    obtain ⟨-, rfl, -⟩ := Compaction.scriptWith_run hrun
    exact Renaming.script_declared _ _

/-- The check of controls and the second search for sigils leave declarations alone. -/
theorem checked_declared : r.checked.declared = r.arranged.1.declared :=
  (Script.declared_mapLeaves (Script.mapLeaves_eq_ok (Controls.script_run r.check_eq).2)).trans
    (Script.declared_mapLeaves (Sigils.script_run r.resolve_eq).1)

/-- **How a declaration of a variable can be missing** from the script that is written, when the log
is what happened when the script was lowered. -/
inductive Lost (log : List Lowering.Event) (v : String) : Prop
  /-- It is in a function that no callback reaches. -/
  | unreached {e : FunctionEntry} (he : e ∈ r.lowered.2.functions)
    (hnot : ¬ r.framed.calls.LeadsTo none e.name) (hv : Declares e.declared v)
  /-- It is in a function that has given way to another one of its name. -/
  | replaced (h : Lowering.Shadowed log v)
  /-- It is inside of a condition or a loop, which folding may drop. -/
  | dropped (ho : o.optimizeCode = true) (h : Declares r.undotted.1.guarded (Name.undotted v))
  /-- Its letter case cannot be told, because there is a sigma in its name. -/
  | sigma (h : ¬ Text.NoSigma v)

variable {log : List Lowering.Event} (hlog : r.History log)

include hlog in
/-- **A declared variable is declared in the arranged script**, unless its declaration is lost. -/
theorem declares_or_lost {v : String} (hv : v ∈ r.lowered.2.symbols.vars) :
    Declares r.arranged.1.declared v ∨ r.Lost log v := by
  obtain ⟨hinit, helse⟩ :=
    arranged_perm r.lower_eq r.type_eq r.expand_eq r.frame_eq r.arrange_eq
  rcases hlog.books.vars v hv with ⟨d, hd, hsigil, hname⟩ | hshadowed
  · have harranged : d ∈ r.lowered.1.declared ∨
        d ∈ r.lowered.2.declaredBy (r.framed.calls.LeadsTo none) → d ∈ r.arranged.1.declared := by
      intro hd
      refine r.arranged.1.declared_perm.symm.subset (List.mem_append.mpr ?_)
      rcases hd with hd | hd
      · rcases List.mem_append.mp (r.lowered.1.declared_perm.subset hd) with hd | hd
        · exact .inl (hinit.symm.subset (List.mem_append_left _ hd))
        · exact .inr (helse.symm.subset hd)
      · exact .inl (hinit.symm.subset (List.mem_append_right _ hd))
    rcases List.mem_append.mp hd with hd | hd
    · exact .inl ⟨d, harranged (.inl hd), hsigil, hname⟩
    · obtain ⟨e, he, hd⟩ := List.mem_flatMap.mp hd
      by_cases hreached : r.framed.calls.LeadsTo none e.name
      · refine .inl ⟨d, harranged (.inr (List.mem_flatMap.mpr ⟨e, ?_, hd⟩)), hsigil, hname⟩
        simp [he, hreached]
      · exact .inr (.unreached he hreached ⟨d, hd, hsigil, hname⟩)
  · exact .inr (.replaced hshadowed)

/-! ### Short names -/

/-- What is known of the table of short names. -/
theorem shortNames_spec {t : ShortNames} (ht : r.shortNames = some t) :
    ∀ pair ∈ t.pairs, (∃ v ∈ r.lowered.2.symbols.vars, Name.undotted v = pair.1) ∧
      pair.2 = Compaction.shortName pair.1 := by
  have hshortens := r.shortens
  rw [ht] at hshortens
  cases hshortens with
  | shorten _ hrun =>
    intro pair hpair
    obtain ⟨hmem, -, hshort⟩ := (Compaction.scriptWith_run hrun).1.pairs pair hpair
    exact ⟨r.mem_undotted_vars.mp (Name.mem_sorted.mp hmem), hshort⟩

/-- A variable keeps a sigil. -/
theorem short_sigil {i : Ident} (h : i.sigil.isSome = true) : (r.short i).sigil.isSome = true := by
  unfold short
  cases ht : r.shortNames with
  | none => exact h
  | some t =>
    have hpairs := fun pair hpair => (r.shortNames_spec ht pair hpair).2
    exact (Compaction.ident_spec hpairs i).2 h

/-- What is no variable keeps its name. -/
theorem short_of_none {i : Ident} (h : i.sigil = none) : r.short i = i := by
  unfold short
  cases r.shortNames with
  | none => rfl
  | some t => simp [Compaction.ident, h]

/-- Variables that differ in letter case only have names that differ in letter case only. -/
theorem key_short {i j : Ident} (hi : i.sigil.isSome = true) (hj : j.sigil.isSome = true)
    (h : Text.lower i.full = Text.lower j.full) :
    Text.lower (r.short i).full = Text.lower (r.short j).full := by
  unfold short
  cases r.shortNames with
  | none => exact h
  | some t =>
    have hsame : t.short? i.full = t.short? j.full := by
      unfold ShortNames.short?
      rw [h]
    change Text.lower (Compaction.ident t i).full = Text.lower (Compaction.ident t j).full
    unfold Compaction.ident
    rw [Option.isNone_eq_false_iff.mpr hi, Option.isNone_eq_false_iff.mpr hj, hsame]
    cases t.short? j.full with
    | none => exact h
    | some short => rfl

include hlog in
/-- **A variable is declared in the script that is written**, unless its declaration is lost. -/
theorem final_declares_or_lost {v : String} (hv : v ∈ r.lowered.2.symbols.vars) {k : Ident}
    (hsigil : k.sigil.isSome = true) (hk : Text.lower k.full = Name.undotted v) :
    Declares r.final.declared (Text.lower (r.short k).full) ∨ r.Lost log v := by
  by_cases hsigma : Text.NoSigma v
  · rcases r.declares_or_lost hlog hv with ⟨d, hd, hdsigil, rfl⟩ | hlost
    · have hundotted : Undotting.ident d ∈ r.undotted.1.declared := by
        rw [r.undotted_eq, Renaming.script_declared, r.checked_declared]
        exact List.mem_map_of_mem hd
      have hname : Text.lower (Undotting.ident d).full = Name.undotted (Text.lower d.full) := by
        rw [Undotting.full_ident, Text.lower_undotted hsigma]
      rcases r.mem_folded hundotted with hfolded | ⟨ho, hguarded⟩
      · refine .inl ⟨r.short (Undotting.ident d), ?_, r.short_sigil hdsigil, ?_⟩
        · rw [r.final_declared]
          exact List.mem_map_of_mem hfolded
        · exact r.key_short hdsigil hsigil (hname.trans hk.symm)
      · exact .inr (.dropped ho ⟨_, hguarded, hdsigil, hname⟩)
    · exact .inr hlost
  · exact .inr (.sigma hsigma)

/-! ### References -/

/-- **What a reference of the script that is written can be.** -/
inductive Closes (log : List Lowering.Event) (j : Ident) : Prop
  /-- It has no sigil and is the name of a function, a family or a property. -/
  | named {name : String} (hsigil : j.sigil = none) (hname : j.name = Name.undotted name)
    (h : Sigils.isSigilFree env.builtins r.arranged.2 [] name = true)
  /-- It is the result of a function that is called with the word for it. -/
  | result {i : Ident} (hj : j = r.short (Undotting.ident i)) {f : FunctionDef}
    (hf : f ∈ r.arranged.1.functions) (hi : ∃ k ∈ f.result, Name.firstPart i.full = k.full)
  /-- It is built in. -/
  | builtin {name : String} (hsigil : j.sigil.isSome = true) (hname : j.full = Name.undotted name)
    (h : env.builtins.isBuiltin name = true)
  /-- It is declared, in some letter case. -/
  | declared (hsigil : j.sigil.isSome = true) (h : Declares r.final.declared (Text.lower j.full))
  /-- It is a variable of the source that is not declared, because a declaration of it is lost. -/
  | lost {i : Ident} {v : String} (hsigil : j.sigil.isSome = true)
    (hj : j = r.short (Undotting.ident i)) (hv : v ∈ r.lowered.2.symbols.vars)
    (hname : Text.lower i.full = v ∨ Text.lower (Undotting.ident i).full = Name.undotted v)
    (hnot : ¬ Declares r.final.declared (Text.lower j.full)) (h : r.Lost log v)

/-- The parameters of a block of the arranged script are results. -/
theorem arranged_params {b : Block} (hb : b ∈ r.arranged.1.blocks) {name : String}
    (h : name ∈ b.params) : ∃ f ∈ r.arranged.1.functions, ∃ k ∈ f.result, name = k.full := by
  cases b with
  | callback c => cases h
  | function f =>
    have hhead : .function f.name f.params ∈ r.checked.heads := by
      rw [r.checked_heads]
      exact List.mem_map.mpr ⟨_, hb, rfl⟩
    have hparams := r.checked_params hhead
    have hresult : name ∈ (f.result.map Ident.full).toList := by
      simpa [Block.params, FunctionDef.paramNames, hparams] using h
    obtain ⟨k, hk, rfl⟩ := Option.map_eq_some_iff.mp (Option.mem_toList.mp hresult)
    exact ⟨f, List.mem_filterMap.mpr ⟨_, hb, rfl⟩, k, hk, rfl⟩

/-- What a reference of the checked script was taken for. -/
theorem checked_found {i : Ident} (h : i ∈ r.checked.references) :
    ∃ b ∈ r.arranged.1.blocks, Sigils.Found env.builtins r.arranged.2 b.params i := by
  obtain ⟨b, hb, hi⟩ := List.mem_flatMap.mp h
  obtain ⟨b₁, hb₁, hchecked⟩ :=
    exists_mem_of_forall₂ (Script.mapLeaves_eq_ok (Controls.script_run r.check_eq).2) hb
  obtain ⟨b₂, hb₂, hresolved⟩ := exists_mem_of_forall₂ (Sigils.script_run r.resolve_eq).1 hb₁
  have hflat := (r.expanded_flattened.frames r.frame_eq).arrange r.arrange_eq b₂ hb₂
  obtain ⟨hparams, hfound⟩ := Sigils.found_of_mapLeaves hflat hresolved
  exact ⟨b₂, hb₂, hparams ▸ hfound i ((Controls.references_of_mapLeaves hchecked).2 i hi)⟩

include hlog in
/-- A reference that is called like a variable of the source. -/
theorem closes_called {i : Ident} {v : String} (hsigil : i.sigil.isSome = true)
    (hv : v ∈ r.lowered.2.symbols.vars)
    (hname : Text.lower i.full = v ∨ Text.lower (Undotting.ident i).full = Name.undotted v) :
    r.Closes log (r.short (Undotting.ident i)) := by
  have hshort := r.short_sigil (i := Undotting.ident i) hsigil
  by_cases hdeclared : Declares r.final.declared (Text.lower (r.short (Undotting.ident i)).full)
  · exact .declared hshort hdeclared
  refine .lost hshort rfl hv hname hdeclared ?_
  by_cases hsigma : Text.NoSigma v
  · refine (r.final_declares_or_lost hlog hv (k := Undotting.ident i) hsigil ?_).resolve_left hdeclared
    rcases hname with rfl | hname
    · rw [Undotting.full_ident, Text.lower_undotted hsigma]
    · exact hname
  · exact .sigma hsigma

include hlog in
/-- A reference to something built in, which may have got the short name of a variable. -/
theorem closes_builtin {i : Ident} (hsigil : i.sigil.isSome = true)
    (h : env.builtins.isBuiltin i.full = true) : r.Closes log (r.short (Undotting.ident i)) := by
  have hshort := r.short_sigil (i := Undotting.ident i) hsigil
  cases ht : r.shortNames with
  | none =>
    have hsame : r.short (Undotting.ident i) = Undotting.ident i := by simp [short, ht]
    exact .builtin hshort (by rw [hsame, Undotting.full_ident]) h
  | some t =>
    cases hfound : t.short? (Undotting.ident i).full with
    | none =>
      have hsame : r.short (Undotting.ident i) = Undotting.ident i := by
        simp [short, ht, Compaction.ident, hfound]
      exact .builtin hshort (by rw [hsame, Undotting.full_ident]) h
    | some name =>
      obtain ⟨⟨v, hv, hkey⟩, -⟩ := r.shortNames_spec ht _ (ShortNames.mem_of_short? hfound)
      exact r.closes_called hlog hsigil hv (.inr hkey.symm)

include hlog in
/-- A reference to a variable of the source. -/
theorem closes_variable {i : Ident} (hsigil : i.sigil.isSome = true)
    (h : r.lowered.2.symbols.hasVariable i.full = true) :
    r.Closes log (r.short (Undotting.ident i)) := by
  have hv : Text.lower i.full ∈ r.lowered.2.symbols.vars := by
    simpa [Symbols.hasVariable] using h
  exact r.closes_called hlog hsigil hv (.inl rfl)

include hlog in
/-- **The references of a compiled script close.** -/
theorem closes {i : Ident} (h : i ∈ r.folded.references) : r.Closes log (r.short i) := by
  have hundotted : i ∈ r.undotted.1.references := by
    rw [r.fold_eq] at h
    split at h
    · exact Folding.references_subset h
    · exact h
  rw [r.undotted_eq] at hundotted
  obtain ⟨i, hi, rfl⟩ := Undotting.exists_reference hundotted
  obtain ⟨b, hb, hfound⟩ := r.checked_found hi
  have hresult : ∀ {name}, Sigils.isParam b.params name = true → name = i.full →
      r.Closes log (r.short (Undotting.ident i)) := by
    intro name hparam hname
    obtain ⟨f, hf, hk⟩ := r.arranged_params hb (by simpa [Sigils.isParam] using hparam)
    exact .result rfl hf (hname ▸ hk)
  rcases hfound with ⟨hsigil, hfree⟩ | ⟨hsigil, hdeclared⟩ | ⟨-, hparam⟩
  · have hfull : i.name = i.full := by simp [Ident.full, hsigil]
    by_cases hparam : Sigils.isParam b.params i.name = true
    · exact hresult hparam hfull
    · have hsame : r.short (Undotting.ident i) = Undotting.ident i := r.short_of_none hsigil
      rw [hsame]
      refine .named hsigil rfl (?_ : Sigils.isSigilFree env.builtins r.arranged.2 [] i.name = true)
      simp only [Sigils.isSigilFree, Bool.or_eq_true, Bool.not_eq_true] at hfree hparam ⊢
      exact .inl (by simpa [hparam] using hfree)
  · rcases Bool.or_eq_true_iff.mp hdeclared with hvariable | hbuiltin
    · exact r.closes_variable hlog hsigil (r.arranged_symbols ▸ hvariable)
    · exact r.closes_builtin hlog hsigil hbuiltin
  · exact hresult hparam rfl

end Compilation

/-- A variable in two letter cases, the name of a family, and a variable that is declared in a
function without a call. -/
def looseText : String :=
  "on init\nfamily fam\ndeclare X\nend family\nend on\n" ++
    "on note\nfam.x := 1\nfam := 1\ng := 1\nend on\n" ++
    "function unused\ndeclare global g\nend function\n"

/-- What is written for it. -/
def looseCode : String :=
  "on init\ndeclare $fam__X\nend on\non note\n$fam__x := 1\nfam := 1\n$g := 1\nend on\n"

theorem looseText_compiles : ∃ c, compile ⟨{}, .empty⟩ {} looseText = .ok c ∧
    c.code = looseCode ∧ c.options = {} := by
  set_option maxRecDepth 4000 in
  have htext : looseText.toList = _ :=
    Text.toList_pieces (Text.toList_pieces String.toList_ofList String.toList_ofList) String.toList_ofList
  have hrun : (compile ⟨{}, .empty⟩ {} looseText).toOption.map (fun c => (c.code, c.options)) =
      some (looseCode, {}) := by
    rw [compile_eq_ofChars _ _ htext (by decide +kernel)]
    decide +kernel
  obtain ⟨c, hrun, hc⟩ := Option.map_eq_some_iff.mp hrun
  obtain ⟨hcode, hoptions⟩ := Prod.mk.inj hc
  exact ⟨c, Except.toOption_eq_some.mp hrun, hcode, hoptions⟩

/-- **A script that declares its variables**: every reference has a sigil, and is built in or
declared in some letter case. -/
def Script.DeclaresItsVariables (b : Builtins) (s : Script) : Prop :=
  ∀ i ∈ s.references, i.sigil.isSome = true ∧
    (b.isBuiltin i.full = true ∨ Declares s.declared (Text.lower i.full))

/-- The script that is written when the options ask for nothing, step by step. -/
def plainScript (env : Env) (source : String) : Option Script := do
  let parsed ← (Script.parse source env.lines).toOption
  let lowered ← ((Lowering.script env parsed).run {}).toOption
  let typed ← ((Sigils.script env lowered.1).run lowered.2).toOption
  let expanded ← ((Inlining.script env typed.1).run typed.2).toOption
  let framed ← ((Taskfunc.program env).run expanded.2).toOption
  let arranged ← ((Arrangement.script expanded.1).run framed.2).toOption
  let resolved ← ((Sigils.script env arranged.1).run arranged.2).toOption
  let checked ← ((Controls.script env resolved.1).run resolved.2).toOption
  let undotted ← ((Undotting.script checked.1).run resolved.2).toOption
  return undotted.1

theorem Compilation.plainScript_eq {source : String} (r : Compilation env {} source) :
    plainScript env source = some r.final := by
  have hfinal : r.final = r.undotted.1 := by
    have hfold := r.fold_eq
    have hshortens := r.shortens
    generalize r.shortNames = names at hshortens
    generalize r.final = final at hshortens ⊢
    rcases hshortens with _ | ⟨hcompact, -⟩
    · exact hfold
    · cases hcompact
  have hlower : (Lowering.script env r.parsed).run {} = .ok r.lowered := r.lower_eq
  simp only [plainScript, r.parse_eq, hlower, r.type_eq, r.expand_eq, r.frame_eq, r.arrange_eq,
    r.resolve_eq, r.check_eq, r.undot_eq, hfinal, Except.toOption, Option.bind_eq_bind,
    Option.bind_some, Option.pure_def]

end FlatScript
