import FlatScript.Lowering.Body
import FlatScript.Proofs.Inlining.Templates

/-!
# Properties that stand for variables

A property that stands for a variable has two functions, one that reads the variable and one that
writes it. A call of one of them is copied like any other, and what is left is an assignment from or
to the variable, with the arguments in the places of the indices.

* `FlatScript.Program.StandsFor` says that the functions of the table are those of the property.
* `FlatScript.Inlining.assignment_reads` and `FlatScript.Inlining.assignment_writes` compare an
  assignment from or to the property with one from or to the variable.
-/

namespace FlatScript

/-! ### The functions of the property -/

/-- The function that reads a property which stands for a variable, with its body. -/
def synonymReader (property : String) (indices : List Ident) (target : VarRef) (span : Span) :
    FunctionDef :=
  { Lowering.synonymGetter property indices span with
    body := [⟨.assign (.plain (.fixed "result" span)) target.toExpr, span, []⟩] }

/-- The function that writes a property which stands for a variable, with its body. -/
def synonymWriter (property : String) (indices : List Ident) (target : VarRef) (span : Span) :
    FunctionDef :=
  { Lowering.synonymSetter property indices span with
    body := [⟨.assign target (VarRef.plain (.fixed "value_to_set" span)).toExpr, span, []⟩] }

/-- A function of the table that has no declarations besides its body. -/
def Program.Defines (p : Program) (name : String) (f : FunctionDef) : Prop :=
  ∃ e, p.function? name = some e ∧ e.fn = f ∧ e.globals = [] ∧ e.locals = []

theorem Program.Defines.name {p : Program} {name : String} {f : FunctionDef}
    (h : p.Defines name f) :
    f.name.name = name := by
  obtain ⟨e, he, rfl, -, -⟩ := h
  exact (Program.mem_functions_of_function? he).2

theorem Program.Defines.isUserFunction {p : Program} {name : String} {f : FunctionDef}
    (h : p.Defines name f) :
    p.isUserFunction name = true := by
  obtain ⟨e, he, -⟩ := h
  exact Program.isUserFunction_of_function? he

/-- **A property stands for a variable**, as far as the table of functions is concerned. -/
structure Program.StandsFor (p : Program) (property : String) (indices : List Ident)
    (target : VarRef) : Prop where
  getter : ∃ span, p.Defines (property ++ ".get") (synonymReader property indices target span)
  setter : ∃ span, p.Defines (property ++ ".set") (synonymWriter property indices target span)

/-! ### Lookups -/

section Lookup

variable {α β γ : Type} [BEq α] [LawfulBEq α]

/-- The first entry of a name is the only one where the names are different. -/
theorem lookup_reverse (name : α) : ∀ {l : List (α × β)},
    (l.map Prod.fst).Nodup → l.reverse.lookup name = l.lookup name
  | [], _ => rfl
  | (key, value) :: l, h => by
    rw [List.map_cons, List.nodup_cons] at h
    rw [List.reverse_cons, List.lookup_append, lookup_reverse name h.2]
    cases hname : name == key with
    | false => simp [List.lookup_cons, hname]
    | true =>
      have hnone : l.lookup name = none := by
        refine List.lookup_eq_none_iff.mpr fun b hb => bne_iff_ne.mpr ?_
        rw [beq_iff_eq.mp hname]
        exact fun heq => h.1 (List.mem_map.mpr ⟨b, hb, heq.symm⟩)
      simp [List.lookup_cons, hname, hnone]

/-- Names that are looked up among the same ones. -/
theorem lookup_forall₂ {S : α × β → α × γ → Prop} {l : List (α × β)} {l' : List (α × γ)}
    (h : List.Forall₂ S l l') (hkey : ∀ b b', S b b' → b'.1 = b.1) (name : α) :
    Option.Rel (fun v v' => S (name, v) (name, v')) (l.lookup name) (l'.lookup name) := by
  induction h with
  | nil => exact .none
  | @cons b b' l l' hb _ ih =>
    obtain ⟨key, value⟩ := b
    obtain ⟨key', value'⟩ := b'
    obtain rfl : key' = key := hkey _ _ hb
    simp only [List.lookup_cons]
    split
    · next hname =>
      rw [beq_iff_eq.mp hname]
      exact .some hb
    · exact ih

/-- A name that is one of the keys has a value. -/
theorem exists_lookup {l : List (α × β)} {name : α}
    (h : name ∈ l.map Prod.fst) : ∃ value, l.lookup name = some value := by
  cases hlookup : l.lookup name with
  | some value => exact ⟨value, rfl⟩
  | none =>
    obtain ⟨b, hb, rfl⟩ := List.mem_map.mp h
    exact absurd (List.lookup_eq_none_iff.mp hlookup b hb) (by simp)

/-- A name that is none of the keys has no value. -/
theorem lookup_eq_none_of_notMem {l : List (α × β)} {name : α}
    (h : name ∉ l.map Prod.fst) : l.lookup name = none := by
  refine List.lookup_eq_none_iff.mpr fun b hb => bne_iff_ne.mpr ?_
  rintro rfl
  exact h (List.mem_map_of_mem hb)

end Lookup

namespace Inlining

variable {env : Env} {p₀ p q p' : Program} {at' at₁ at₂ : Place} {n k m : Nat}
  {names : List Spelling} {loose : List String} {handles : List (Spelling × Ident)} {σ : Filler}
  {ρ : Substitution}

/-! ### Places -/

/-- A place is not further in than itself. -/
theorem Nearer.refl (env : Env) (at' : Place) : Nearer env at' at' := ⟨rfl, fun _ h => h, trivial⟩

/-- A place in the function that is copied, and the one where it is called. -/
theorem nearer_pushed (env : Env) (at' : Place) (name : String) (trace : List Span) :
    Nearer env { at' with stack := at'.stack ++ [name], trace } at' :=
  ⟨rfl, fun _ h => List.mem_append_left _ h, trivial⟩

/-! ### Arguments -/

/-- **What an argument is passed as**: a reference as it is written, and anything else expanded
where the call stands. -/
def PassedAs (env : Env) (p₀ : Program) (n : Nat) (at' : Place) (e v : Expr) : Prop :=
  (e.asVar?.isSome = true ∧ v = e) ∨ (e.asVar? = none ∧
    ∃ p p', Akin env p₀ p ∧ (expr env (below env n) at' e).run p = .ok (v, p'))

theorem passedAs_of_run (hp₀ : Orderly p₀) (hp : Akin env p₀ p) {e v : Expr}
    (h : (passed (argument env (below env n) at' e)).run p = .ok (v, p')) :
    Akin env p₀ p' ∧ PassedAs env p₀ n at' e v := by
  unfold passed argument at h
  cases e with
  | var i es span =>
    cases h
    exact ⟨hp, .inl ⟨rfl, rfl⟩⟩
  | _ => exact ⟨hp.trans (expr_akin (hp₀.akin hp) h), .inr ⟨rfl, p, p', hp, h⟩⟩

/-- What the parameters of a function are replaced by, one after the other. -/
theorem argumentSubstitution_passes (hp₀ : Orderly p₀) : ∀ (params : List Param) (es : List Expr)
    {p p' : Program} {ρ : Substitution}, Akin env p₀ p →
    (argumentSubstitution (params.zip (arguments env (below env n) at' es))).run p = .ok (ρ, p') →
    Akin env p₀ p' ∧ List.Forall₂ (fun b b' => b'.1 = Name.firstPart b.1.name.name ∧
      PassedAs env p₀ n at' b.2 b'.2) (params.zip es) ρ.reverse
  | [], es, p, p', ρ, hp, h => by
    cases h
    exact ⟨hp, .nil⟩
  | param :: params, [], p, p', ρ, hp, h => by
    simp only [arguments, List.zip_nil_right] at h ⊢
    cases h
    exact ⟨hp, .nil⟩
  | param :: params, e :: es, p, p', ρ, hp, h => by
    rw [arguments_cons, List.zip_cons_cons, argumentSubstitution_cons] at h
    obtain ⟨v, p₁, hv, h⟩ := StateT.bind_eq_ok.mp h
    obtain ⟨ρ', p₂, hρ, h⟩ := StateT.bind_eq_ok.mp h
    cases h
    obtain ⟨hp₁, hpassed⟩ := passedAs_of_run hp₀ hp hv
    obtain ⟨hp₂, hrest⟩ := argumentSubstitution_passes hp₀ params es hp₁ hρ
    rw [List.reverse_append, List.zip_cons_cons]
    exact ⟨hp₂, .cons ⟨rfl, hpassed⟩ hrest⟩

theorem Stays.of_akin {α : Type} {x : Compile α} {a : α} (h : Stays env p x a)
    (hp : Akin env p₀ p) : Stays env p₀ x a := by
  intro q hq
  obtain ⟨q', hrun, hq'⟩ := h q (hp.symm.trans hq)
  exact ⟨q', hrun, hp.trans hq'⟩

/-- **What an argument is passed as comes to the same as the argument.** -/
theorem PassedAs.fits (hp₀ : Orderly p₀) (hkn : k ≤ n) (hat : Nearer env at₁ at₂) {e v : Expr}
    (h : PassedAs env p₀ n at₂ e v) : Fits env p₀ k n at₁ at₂ v e := by
  rcases h with ⟨hvar, rfl⟩ | ⟨hvar, p, p', hp, hrun⟩
  · refine ⟨expr_tracks_of_matches hp₀ hkn hat (.refl _), ?_⟩
    cases v with
    | var i es span => exact .ret (.refl _)
    | _ => cases hvar
  · have hsettled := (expr_settled hrun).2
    have hstays : Stays env p₀ (expr env (below env k) at₁ v) v :=
      (expr_stays v hsettled).of_akin hp
    -- The argument has been expanded once; it is expanded again where it stands in the subscripts.
    have hagain : ∀ q, Akin env p₀ q → ∃ v' q', (expr env (below env n) at₂ e).run q = .ok (v', q') ∧
        Akin env p₀ q' ∧ v.Matches v' := by
      intro q hq
      obtain ⟨v', q', hrun', hsame, hmatch⟩ := (expr_follows (below_follows env (Nat.le_refl n))
        (.refl env at₂) (.refl e) p q (hp.symm.trans hq)).run hrun
      exact ⟨v', q', hrun', (hp.trans (expr_akin (hp₀.akin hp) hrun)).trans hsame, hmatch⟩
    refine ⟨.trans_stays hstays hagain, ?_⟩
    have hpassed : passed (argument env (below env n) at₂ e) = expr env (below env n) at₂ e := by
      cases e with
      | var i es span => cases hvar
      | _ => rfl
    rw [hpassed]
    cases v with
    | var i es span => exact .trans_stays (.ret _) hagain
    | _ => exact .trans_stays hstays hagain

/-- **An argument comes to the same as what it is passed as**, wherever it is expanded further in. -/
theorem PassedAs.fits_written (hp₀ : Orderly p₀) (hkn : k ≤ n) (hat : Nearer env at₁ at₂)
    (hat' : Nearer env at₁ at') {e v : Expr} (h : PassedAs env p₀ n at' e v) :
    Fits env p₀ k k at₁ at₂ e v := by
  rcases h with ⟨hvar, rfl⟩ | ⟨hvar, p, p', hp, hrun⟩
  · refine ⟨expr_tracks_of_matches hp₀ (Nat.le_refl k) hat (.refl _), ?_⟩
    cases v with
    | var i es span => exact .ret (.refl _)
    | _ => cases hvar
  · have hstays : Stays env p₀ (expr env (below env k) at₂ v) v :=
      (expr_stays v (expr_settled hrun).2).of_akin hp
    have hagain : ∀ q a q', Akin env p₀ q → (expr env (below env k) at₁ e).run q = .ok (a, q') →
        Akin env p₀ q' ∧ a.Matches v := by
      intro q a q' hq hrun'
      obtain ⟨v', p₁, hrun₁, -, hmatch⟩ := (expr_follows (below_follows env hkn) hat' (.refl e) q p
        (hq.symm.trans hp)).run hrun'
      rw [hrun] at hrun₁
      cases hrun₁
      exact ⟨hq.trans (expr_akin (hp₀.akin hq) hrun'), hmatch⟩
    refine ⟨.stays_trans hagain hstays, ?_⟩
    have hpassed : passed (argument env (below env k) at₁ e) = expr env (below env k) at₁ e := by
      cases e with
      | var i es span => cases hvar
      | _ => rfl
    rw [hpassed]
    cases v with
    | var i es span => exact .stays_trans hagain (.ret _)
    | _ => exact .stays_trans hagain hstays

/-- An argument that is a reference, or has nothing left to expand, is passed as it is written. -/
theorem PassedAs.eq_self {e v : Expr} (h : PassedAs env p₀ n at' e v)
    (he : e.asVar?.isSome = true ∨ e.Meets (settled env p₀)) : v = e := by
  rcases h with ⟨-, rfl⟩ | ⟨hvar, p, p', hp, hrun⟩
  · rfl
  · have hmeets := he.resolve_left (by simp [hvar])
    obtain ⟨q', hrun', -⟩ := (expr_stays e hmeets : Stays env p₀ (expr env (below env n) at' e) e) p hp
    rw [hrun] at hrun'
    cases hrun'
    rfl

/-! ### Names that are apart -/

/-- **The names of a property are apart from those of its variable.** The indices have names of
their own, the variable has a sigil and is no index, and its subscripts are expressions over the
indices. -/
structure NamesApart (env : Env) (p : Program) (names : List Spelling) (loose : List String)
    (handles : List (Spelling × Ident)) (target : VarRef) : Prop where
  nodup : (names.map Prod.snd).Nodup
  undotted : ∀ n ∈ names, Name.firstPart n.2 = n.2
  own : ∀ n ∈ names, n.2 ∉ invented
  subset : loose ⊆ names.map Prod.snd
  sigil : target.ident.sigil.isSome = true
  first : Name.firstPart target.ident.name ∉ names.map Prod.snd ++ invented
  subscripts : exprsMeet (template env p names loose handles) target.subscripts

/-- **Arguments that suit the indices.** The one of an index that is not loose is passed as it is
written; the one of an index that names begin with is a name; and none takes the sigil of its index. -/
structure Suits (env : Env) (p : Program) (n : Nat) (at' : Place) (names : List Spelling)
    (loose : List String) (handles : List (Spelling × Ident)) (es : List Expr) : Prop where
  length : es.length = names.length
  firm : ∀ b ∈ names.zip es, b.1.2 ∉ loose → b.2.asVar?.isSome = true ∨ b.2.Meets (settled env p)
  lent : Lent handles (names.zip es)
  sigils : ∀ b ∈ names.zip es, ∀ v, PassedAs env p n at' b.2 v → SuitsSigil b.1.1 v

/-- **What the arguments of the indices are passed as.** -/
def Passes (env : Env) (p : Program) (n : Nat) (at' : Place) (names : List Spelling) (es : List Expr)
    (σ : Filler) : Prop :=
  List.Forall₂ (fun b b' => b'.1 = b.1 ∧ PassedAs env p n at' b.2 b'.2) (names.zip es) σ

variable {target : VarRef} {es : List Expr}

/-- **Two lists of arguments for the indices** fill expressions alike, if two arguments for the same
index come to the same. -/
theorem NamesApart.filling (h : NamesApart env p₀ names loose handles target) (hp₀ : Orderly p₀)
    (hkm : k ≤ m) (hat : Nearer env at₁ at₂) {σ' : Filler} (hkeys : σ.map Prod.fst = names)
    (hpairs : List.Forall₂ (fun b b' => b'.1 = b.1 ∧ Fits env p₀ k m at₁ at₂ b.2 b'.2 ∧
      (b.1.2 ∉ loose → b'.2 = b.2)) σ σ') (hlent : Lent handles σ ∧ Lent handles σ') :
    Filling env p₀ k m at₁ at₂ names loose handles σ σ' where
  orderly := hp₀
  level := hkm
  near := hat
  undotted := h.undotted
  subset := h.subset
  fits name hname := by
    obtain ⟨v, hv⟩ := exists_lookup (hkeys ▸ hname)
    have hrel := lookup_forall₂ hpairs (fun _ _ hb => hb.1) name
    rw [hv] at hrel
    generalize σ'.lookup name = o at hrel ⊢
    cases hrel with
    | some hb => exact ⟨v, _, hv, rfl, hb.2.1⟩
  outside name hname := by
    have hkeys' : σ'.map Prod.fst = names :=
      (map_eq_of_forall₂ hpairs fun _ _ hb => hb.1).trans hkeys
    exact ⟨lookup_eq_none_of_notMem (hkeys ▸ hname), lookup_eq_none_of_notMem (hkeys' ▸ hname)⟩
  same name hname := by
    have hrel := lookup_forall₂ hpairs (fun _ _ hb => hb.1) name
    generalize σ.lookup name = o, σ'.lookup name = o' at hrel ⊢
    cases hrel with
    | none => rfl
    | some hb => exact congrArg some (hb.2.2 hname).symm
  lent := hlent

/-- What stands in the place of an index, under the bare name that the compiler looks it up by. -/
def bare (b : Spelling × Expr) : String × Expr := (b.1.2, b.2)

namespace Passes

variable (h : Passes env p₀ n at' names es σ) (hsuits : Suits env p₀ n at' names loose handles es)
include h hsuits

theorem keys : σ.map Prod.fst = names := by
  rw [map_eq_of_forall₂ h fun _ _ hb => hb.1, List.map_fst_zip (Nat.le_of_eq hsuits.length.symm)]

theorem keys_bare : (σ.map bare).map Prod.fst = names.map Prod.snd := by
  rw [← h.keys hsuits, List.map_map, List.map_map]
  rfl

theorem nodup_bare (hnodup : (names.map Prod.snd).Nodup) : ((σ.map bare).map Prod.fst).Nodup :=
  h.keys_bare hsuits ▸ hnodup

/-- What is known of an argument and what it is passed as. -/
theorem suited : List.Forall₂ (fun b b' => b'.1 = b.1 ∧ PassedAs env p₀ n at' b.2 b'.2 ∧
    (b.1.2 ∉ loose → b'.2 = b.2) ∧ SuitsSigil b'.1.1 b'.2) (names.zip es) σ := by
  refine ((List.forall₂_and_left _ _).mpr ⟨fun b hb => hb, h⟩).imp fun b b' hb => ?_
  obtain ⟨hmem, hkey, hpassed⟩ := hb
  exact ⟨hkey, hpassed, fun hnot => hpassed.eq_self (hsuits.firm b hmem hnot),
    hkey ▸ hsuits.sigils b hmem _ hpassed⟩

/-- Names are passed as they are written. -/
theorem lent : Lent handles σ := by
  intro name rep hname
  obtain ⟨span, hlookup⟩ := hsuits.lent name rep hname
  have hrel := lookup_forall₂ h (fun _ _ hb => hb.1) name
  rw [hlookup] at hrel
  generalize σ.lookup name = o at hrel ⊢
  cases hrel with
  | some hb =>
    obtain rfl := hb.2.eq_self (.inl rfl)
    exact ⟨span, rfl⟩

/-- **What the arguments are passed as fills expressions like the arguments.** -/
theorem filling (hapart : NamesApart env p₀ names loose handles target) (hp₀ : Orderly p₀)
    (hkn : k ≤ n) (hat : Nearer env at₁ at') :
    Filling env p₀ k n at₁ at' names loose handles σ (names.zip es) := by
  refine hapart.filling hp₀ hkn hat (h.keys hsuits) ((h.suited hsuits).flip.imp fun b b' hb => ?_)
    ⟨h.lent hsuits, hsuits.lent⟩
  obtain ⟨hkey, hpassed, hsame, -⟩ := hb
  exact ⟨hkey.symm, hpassed.fits hp₀ hkn hat, fun hnot => (hsame (hkey ▸ hnot)).symm⟩

/-- **The arguments fill expressions like what they are passed as**, further in. -/
theorem unfilling (hapart : NamesApart env p₀ names loose handles target) (hp₀ : Orderly p₀)
    (hkn : k ≤ n) (hat : Nearer env at₁ at₂) (hat' : Nearer env at₁ at') :
    Filling env p₀ k k at₁ at₂ names loose handles (names.zip es) σ := by
  have hkeys : (names.zip es).map Prod.fst = names :=
    List.map_fst_zip (Nat.le_of_eq hsuits.length.symm)
  refine hapart.filling hp₀ (Nat.le_refl k) hat hkeys ((h.suited hsuits).imp fun b b' hb => ?_)
    ⟨hsuits.lent, h.lent hsuits⟩
  exact ⟨hb.1, hb.2.1.fits_written hp₀ hkn hat hat', hb.2.2.1⟩

end Passes

/-- An index is found under its bare name, if no other one has it. -/
theorem lookup_bare {n : Spelling} {v : Expr} (hnodup : ((σ.map bare).map Prod.fst).Nodup)
    (h : σ.lookup n = some v) : (σ.map bare).lookup n.2 = some v := by
  induction σ with
  | nil => cases h
  | cons b σ ih =>
    obtain ⟨key, value⟩ := b
    rw [List.map_cons, List.map_cons, List.nodup_cons] at hnodup
    rw [List.lookup_cons] at h
    rw [List.map_cons, bare, List.lookup_cons]
    split at h
    · next hkey =>
      rw [beq_iff_eq.mp hkey, beq_self_eq_true]
      exact h
    · have hmem : n.2 ∈ (σ.map bare).map Prod.fst := by
        by_contra hnot
        have hnone : σ.lookup n = none := by
          refine List.lookup_eq_none_iff.mpr fun b hb => bne_iff_ne.mpr ?_
          rintro rfl
          exact hnot (List.mem_map_of_mem (List.mem_map_of_mem hb))
        rw [hnone] at h
        cases h
      have hne : (n.2 == key.2) = false := beq_false_of_ne fun heq => hnodup.1 (by rwa [heq] at hmem)
      rw [hne]
      exact ih hnodup.2 h

/-- **What the compiler puts into the places of the indices** are the arguments, as they are passed. -/
theorem NamesApart.fills (h : NamesApart env p₀ names loose handles target)
    (hpasses : Passes env p₀ n at' names es σ) (hsuits : Suits env p₀ n at' names loose handles es)
    (hρ : ∀ name, name ∉ invented → ρ.lookup name = (σ.map bare).lookup name) :
    Fills names handles σ ρ where
  undotted := h.undotted
  index name hname := by
    have hkeys := hpasses.keys hsuits
    obtain ⟨v, hv⟩ := exists_lookup (hkeys ▸ hname)
    have hrel := lookup_forall₂ (hpasses.suited hsuits) (fun _ _ hb => hb.1) name
    refine ⟨v, hv, ?_, ?_⟩
    · rw [Substitution.find?, h.undotted name hname, hρ _ (h.own name hname),
        lookup_bare (hpasses.nodup_bare hsuits h.nodup) hv]
    · rw [hv] at hrel
      generalize (names.zip es).lookup name = o at hrel
      cases hrel with
      | some hb => exact hb.2.2.2
  outside name hname := lookup_eq_none_of_notMem (hpasses.keys hsuits ▸ hname)
  other name hname := by
    rw [Substitution.find?, hρ _ fun hmem => hname (List.mem_append_right _ hmem)]
    refine lookup_eq_none_of_notMem fun hmem => hname (List.mem_append_left _ ?_)
    exact hpasses.keys_bare hsuits ▸ hmem
  lent := hpasses.lent hsuits

/-! ### Calls of functions without declarations -/

/-- Changing functions in what has been learnt of them leaves a program like the one before. -/
theorem Akin.updated (h : Akin env p₀ p) {name : String} {f : FunctionEntry → FunctionEntry}
    (hf : ∀ e ∈ p.functions, e.name = name → e.Same (f e)) :
    Akin env p₀ (p.updateFunction name f) := by
  refine h.trans ⟨rfl, ?_⟩
  simp only [Program.updateFunction, List.forall₂_map_right_iff, List.forall₂_same]
  intro e he
  split
  · next hname => exact ⟨trivial, hf e he (beq_iff_eq.mp hname)⟩
  · exact ⟨trivial, rfl, rfl, rfl⟩

theorem Akin.entered (h : Akin env p₀ p) (t : Top) (name : String) (usingCall : Bool) :
    Akin env p₀ (Inlining.entered p t name usingCall) := by
  have hcalls : ∀ calls, Akin env p₀ { p with calls } := fun _ =>
    h.trans ((Akin.refl env p).aside rfl rfl rfl rfl)
  unfold Inlining.entered
  dsimp only
  split <;> split
  · exact (hcalls _).updated fun _ _ _ => ⟨rfl, rfl, rfl⟩
  · exact (hcalls _).updated fun _ _ _ => ⟨rfl, rfl, rfl⟩
  · exact hcalls _
  · exact hcalls _

theorem Akin.defines (h : Akin env p₀ p) {name : String} {f : FunctionDef}
    (hf : p₀.Defines name f) : p.Defines name f := by
  obtain ⟨e, he, hfn, hglobals, hlocals⟩ := hf
  have hrel := h.function? name
  rw [he] at hrel
  cases hfind : p.function? name with
  | none =>
    rw [hfind] at hrel
    cases hrel
  | some e' =>
    rw [hfind] at hrel
    cases hrel with
    | some hsame =>
      exact ⟨e', hfind, hsame.2.fn.trans hfn, hsame.2.globals.trans hglobals,
        hsame.2.locals.trans hlocals⟩

/-- A function without declarations leaves none in an init callback. -/
theorem takeDeclarations_run (at' : Place) (hp₀ : Orderly p₀) (hp : Akin env p₀ p) {e : FunctionEntry}
    {f : FunctionDef} (hdef : p₀.Defines e.name f) (hglobals : e.globals = [])
    (hlocals : e.locals = []) :
    ∃ p', (takeDeclarations at' e).run p = .ok ([], p') ∧ Akin env p₀ p' := by
  unfold takeDeclarations
  split
  · refine ⟨p.updateFunction e.name ({ · with globals := [], locals := [] }), ?_,
      hp.updated fun e' he' hname => ?_⟩
    · rw [hglobals, hlocals]
      rfl
    · obtain ⟨e₁, hfound, -, hglobals₁, hlocals₁⟩ := hp.defines hdef
      rw [← hname, Program.function?_of_mem (hp₀.akin hp).nodup he'] at hfound
      cases hfound
      exact ⟨rfl, hglobals₁.symm, hlocals₁.symm⟩
  · exact ⟨p, rfl, hp⟩

/-- **A call of a function without declarations is a copy of its body**, with the arguments in the
place of its parameters. -/
theorem callStmts_defined (hp₀ : Orderly p₀) (hp : Akin env p₀ p) {c : CallSite}
    {result : Option VarRef} {f : FunctionDef} (hdef : p₀.Defines c.name.name f)
    (htask : f.isTaskfunc = false) (huser : reachesBuiltin env p₀ c = false)
    (hcall : c.usingCall = false) {ss : List Stmt}
    (h : (callStmts env (below env n) at' c result).run p = .ok (ss, p')) :
    ∃ k ρ p₁ p₂ body, n = k + 1 ∧ c.args.length = f.params.length ∧ Akin env p₀ p₁ ∧
      (argumentSubstitution (f.params.zip c.args)).run p₁ = .ok (ρ, p₂) ∧
      Substitution.stmts env (resultsOf f result ++ ρ) (stmtsCopiedTo c.span f.body) = .ok body ∧
      (expandAt env k { at' with stack := at'.stack ++ [c.name.name] } body).run p₂ =
        .ok (ss, p') := by
  rw [callStmts_eq] at h
  simp only [StateT.run_bind, StateT.run_get, pure_bind] at h
  rw [reachesBuiltin_akin rfl rfl hp, huser, if_neg Bool.false_ne_true] at h
  obtain ⟨e, p₁, henter, h⟩ := StateT.bind_eq_ok.mp h
  obtain ⟨e', he', hfn, hglobals, hlocals⟩ := hp.defines hdef
  rw [enterCall_run, he'] at henter
  dsimp only at henter
  -- The call is entered without a fault, so it has an argument for every parameter.
  split at henter
  · cases henter
  next hfault =>
  cases henter
  have hname : e.name = c.name.name := (Program.mem_functions_of_function? he').2
  have harity := (faultless_of_callFault? hfault).arity
  rw [← hname] at hdef h ⊢
  rw [hfn] at harity
  rw [hfn, htask, hcall, if_neg Bool.false_ne_true, if_neg Bool.false_ne_true, inlineBody_eq] at h
  have hp₁ := hp.entered at'.top e.name false
  obtain ⟨decls, p₂, htake, h⟩ := StateT.bind_eq_ok.mp h
  obtain ⟨p₂', htake', hp₂⟩ := takeDeclarations_run at' hp₀ hp₁ hdef hglobals hlocals
  rw [htake'] at htake
  cases htake
  -- No declarations are taken along, and so nothing stands in front of the copy.
  obtain ⟨decls', p₃, hinner, h⟩ := StateT.bind_eq_ok.mp h
  cases n with
  | zero => cases hinner
  | succ k =>
    rw [below, expandAt_eq, stmts] at hinner
    cases hinner
    obtain ⟨ρ, p₄, hρ, h⟩ := StateT.bind_eq_ok.mp h
    obtain ⟨copy, p₅, hcopy, h⟩ := StateT.bind_eq_ok.mp h
    cases h
    obtain ⟨body, p₆, hlift, hcopy⟩ := StateT.bind_eq_ok.mp hcopy
    obtain ⟨hbody, rfl⟩ := StateT.lift_eq_ok.mp hlift
    rw [hfn] at hρ hbody
    exact ⟨k, ρ, _, _, body, rfl, harity, hp₂, hρ, hbody, hcopy⟩

/-! ### Uses -/

/-- What goes with a list that has one more at its end. -/
theorem exists_of_forall₂_concat {α β : Type} {R : α → β → Prop} {a : α} {l : List α} {l' : List β}
    (h : List.Forall₂ R (l ++ [a]) l') : ∃ l'' b, l' = l'' ++ [b] ∧ List.Forall₂ R l l'' ∧ R a b := by
  induction l generalizing l' with
  | nil =>
    cases h with
    | cons hab hnil =>
      cases hnil
      exact ⟨[], _, rfl, .nil, hab⟩
  | cons c l ih =>
    cases h with
    | cons hcd hrest =>
      obtain ⟨l'', b, rfl, hl, hab⟩ := ih hrest
      exact ⟨_ :: l'', b, rfl, .cons hcd hl, hab⟩

/-- What the parameters are replaced by are the arguments, under the bare names of the indices. -/
theorem exists_passes : ∀ {indices : List Ident} {es : List Expr} {l : Substitution},
    (∀ i ∈ indices, Name.firstPart i.name = i.name) →
    List.Forall₂ (fun b b' => b'.1 = Name.firstPart b.1.name.name ∧ PassedAs env p₀ n at' b.2 b'.2)
      ((indices.map (⟨·, .value⟩ : Ident → Param)).zip es) l →
    ∃ σ : Filler, l = σ.map bare ∧ Passes env p₀ n at' (indices.map Ident.spelling) es σ
  | [], _, _, _, h => by
    cases h
    exact ⟨[], rfl, .nil⟩
  | _ :: _, [], _, _, h => by
    cases h
    exact ⟨[], rfl, .nil⟩
  | i :: indices, e :: es, (key, v) :: l, hundotted, .cons hfirst hrest => by
    obtain ⟨σ, rfl, hpasses⟩ :=
      exists_passes (fun j hj => hundotted j (List.mem_cons_of_mem i hj)) hrest
    obtain ⟨hkey, hpassed⟩ := hfirst
    have hname : key = i.name := hkey.trans (hundotted i List.mem_cons_self)
    exact ⟨(i.spelling, v) :: σ, by rw [hname]; rfl, .cons ⟨rfl, hpassed⟩ hpasses⟩

/-- A single assignment, copied to a call, with arguments in the place of parameters. -/
theorem substitution_assign (site : Span) (target : VarRef) (value : Expr) (span : Span) :
    Substitution.stmts env ρ (stmtsCopiedTo site [⟨.assign target value, span, []⟩]) = (do
      let t ← Substitution.target env ρ [site] target
      let v ← Substitution.expr env ρ [site] value
      return [⟨.assign t v, span, [site]⟩]) := by
  simp only [Substitution.stmts, stmtsCopiedTo, Stmt.copiedTo, List.nil_append, mapLeavesStmts,
    Stmt.mapLeaves, bind_assoc, pure_bind]
  rfl

/-- A single assignment, expanded. -/
theorem expandAt_assign (env : Env) (k : Nat) (at' : Place) (target : VarRef) (value : Expr)
    (span : Span) (trace : List Span) :
    expandAt env k at' [⟨.assign target value, span, trace⟩] =
      assignment env (below env k) { at' with trace } target value span := by
  simp [expandAt_eq, stmts, stmt]

/-- A variable with a sigil is no property and no function. -/
theorem siteOfValue?_of_sigil (inner : Expander) {i : Ident} (h : i.sigil.isSome = true)
    (es : List Expr) (span : Span) : siteOfValue? env inner at' p (.var i es span) = .ok none := by
  have hnone : i.sigil.isNone = false := by simpa using h
  simp [siteOfValue?, isPropertyRef, namesFunction, hnone]
  rfl

theorem expr_of_sigil (inner : Expander) {i : Ident} (h : i.sigil.isSome = true) (es : List Expr)
    (span : Span) : expr env inner at' (.var i es span) = (do
      return .var i (← exprs env inner at' es) span) := by
  have hnone : i.sigil.isNone = false := by simpa using h
  simp [expr, isPropertyRef, namesFunction, hnone]

theorem isPropertyRef_of_sigil {i : Ident} (h : i.sigil.isSome = true) :
    isPropertyRef p i = false := by
  simp [isPropertyRef, Option.isNone_eq_false_iff.mpr h]

/-- **A plain assignment, taken apart**: the call that its value may be, the subscripts of its target,
and what comes of the value. -/
theorem assignment_eq_ok {inner : Expander} {x : VarRef} (hx : isPropertyRef p x.ident = false)
    {v : Expr} {span : Span} {ss : List Stmt} :
    (assignment env inner at' x v span).run p = .ok (ss, p') ↔
      ∃ o xs p₁, siteOfValue? env inner at' p v = .ok o ∧
        (exprs env inner at' x.subscripts).run p = .ok (xs, p₁) ∧
        (assigned env inner at' p v span o ⟨x.ident, xs, x.span⟩).run p₁ = .ok (ss, p') := by
  rw [assignment_eq env _ _ _ _ hx]
  constructor
  · intro h
    obtain ⟨o, p₁, hlift, h⟩ := StateT.bind_eq_ok.mp h
    obtain ⟨hsite, rfl⟩ := StateT.lift_eq_ok.mp hlift
    obtain ⟨x', p₁, hvar, h⟩ := StateT.bind_eq_ok.mp h
    obtain ⟨xs, p₂, hsubscripts, hvar⟩ := StateT.bind_eq_ok.mp hvar
    cases hvar
    exact ⟨o, xs, _, hsite, hsubscripts, h⟩
  · rintro ⟨o, xs, p₁, hsite, hsubscripts, h⟩
    have hvar : (varRef env inner at' x).run p = .ok (⟨x.ident, xs, x.span⟩, p₁) :=
      StateT.bind_eq_ok.mpr ⟨xs, p₁, hsubscripts, rfl⟩
    exact StateT.bind_eq_ok.mpr ⟨o, p, StateT.lift_eq_ok.mpr ⟨hsite, rfl⟩,
      StateT.bind_eq_ok.mpr ⟨_, p₁, hvar, h⟩⟩

theorem NamesApart.undotted_indices {indices : List Ident}
    (h : NamesApart env p₀ (indices.map Ident.spelling) loose handles target) :
    ∀ i ∈ indices, Name.firstPart i.name = i.name := fun i hi =>
  h.undotted i.spelling (List.mem_map_of_mem hi)

theorem arguments_length (inner : Expander) (es : List Expr) :
    (arguments env inner at' es).length = es.length := by
  induction es with
  | nil => simp only [arguments, List.length_nil]
  | cons e es ih => simp only [arguments, List.length_cons, ih]

variable {x : VarRef} {i : Ident}

/-- The invented names have no sigils. -/
theorem fixed_of_invented {name : String} (h : name ∈ invented) (span : Span) :
    Ident.fixed name span = ⟨none, name, span, true⟩ := by
  have hsplit : ∀ n ∈ invented, Sigil.split n = (none, n) := by decide
  rw [Ident.fixed, Ident.ofText, hsplit name h]

theorem resultsOf_synonymReader (property : String) (indices : List Ident) (target : VarRef)
    (span : Span) (x : VarRef) :
    resultsOf (synonymReader property indices target span) (some x) = [("result", x.toExpr)] := by
  have hsplit : Sigil.split "result" = (none, "result") := by decide
  have hfirst : Name.firstPart "result" = "result" := by decide
  have hkey : resultKey? (synonymReader property indices target span) = some "result" := by
    simp only [resultKey?, synonymReader, Lowering.synonymGetter, Option.map_some, Ident.ofText,
      hsplit, hfirst]
  simp only [resultsOf, hkey]

/-- What stands in the place of an invented name. -/
theorem mergeIdent_invented {name : String} (h : name ∈ invented) (span : Span) (i : Ident) :
    (Substitution.mergeIdent ⟨none, name, span, true⟩ i).Matches i where
  sigil := by
    rw [Substitution.mergeIdent]
    cases i.sigil <;> rfl
  name := by
    rw [Substitution.mergeIdent, lastPart_of_firstPart (firstPart_invented name h), String.append_empty]

/-- The body of the function that reads the property, with what stands in the place of the result
and of the indices. -/
theorem Fills.read_body (F : Fills names handles σ ρ) (hx : ρ.find? "result" = some x.toExpr)
    (h : NamesApart env p₀ names loose handles target) (site span span' : Span) :
    ∃ x' rs, Substitution.stmts env ρ
        (stmtsCopiedTo site [⟨.assign (.plain (.fixed "result" span)) target.toExpr, span', []⟩]) =
          .ok [⟨.assign x' (.var target.ident rs target.span), span', [site]⟩] ∧
      x'.ident.Matches x.ident ∧ x'.subscripts = x.subscripts ∧
      ExprsMatch rs (exprsFill σ target.subscripts) := by
  obtain ⟨rs, hrs, hmatch⟩ := F.exprs [site] _ h.subscripts
  have hmem : "result" ∈ invented := by decide
  have hvalue : Substitution.expr env ρ [site] target.toExpr =
      .ok (.var target.ident rs target.span) := by
    simp only [VarRef.toExpr, Substitution.expr, F.other _ h.first, hrs]
    rfl
  have hread : Substitution.target env ρ [site] (.plain (.fixed "result" span)) =
      .ok ⟨Substitution.mergeIdent ⟨none, "result", span, true⟩ x.ident, [] ++ x.subscripts, span⟩ := by
    rw [fixed_of_invented hmem, Substitution.target]
    simp only [VarRef.plain, hx, VarRef.toExpr]
    rfl
  refine ⟨⟨Substitution.mergeIdent ⟨none, "result", span, true⟩ x.ident, [] ++ x.subscripts, span⟩,
    rs, ?_, mergeIdent_invented hmem span x.ident, rfl, hmatch⟩
  rw [substitution_assign, hread, hvalue]
  rfl

/-- The body of the function that writes the property, with what stands in the place of the indices
and of the value. -/
theorem Fills.write_body (F : Fills names handles σ ρ) {v : Expr}
    (hv : ρ.find? "value_to_set" = some v) (h : NamesApart env p₀ names loose handles target)
    (site span span' : Span) :
    ∃ v' rs, Substitution.stmts env ρ (stmtsCopiedTo site
        [⟨.assign target (VarRef.plain (.fixed "value_to_set" span)).toExpr, span', []⟩]) =
          .ok [⟨.assign ⟨target.ident, rs, target.span⟩ v', span', [site]⟩] ∧
      v'.Matches v ∧ ExprsMatch rs (exprsFill σ target.subscripts) := by
  obtain ⟨rs, hrs, hmatch⟩ := F.exprs [site] _ h.subscripts
  have hmem : "value_to_set" ∈ invented := by decide
  have hwrite : Substitution.target env ρ [site] target = .ok ⟨target.ident, rs, target.span⟩ := by
    simp only [Substitution.target, F.other _ h.first, hrs]
    rfl
  have hvalue : ∃ v', Substitution.expr env ρ [site]
      (VarRef.plain (.fixed "value_to_set" span)).toExpr = .ok v' ∧ v'.Matches v := by
    rw [fixed_of_invented hmem]
    simp only [VarRef.plain, VarRef.toExpr, Substitution.expr, hv]
    cases v with
    | var rep own span' =>
      exact ⟨_, rfl, .var (mergeIdent_invented hmem span rep) (.refl _)⟩
    | _ => exact ⟨_, rfl, .refl _⟩
  obtain ⟨v', hvalue, hmatch'⟩ := hvalue
  refine ⟨v', rs, ?_, hmatch', hmatch⟩
  rw [substitution_assign, hwrite, hvalue]
  rfl

/-- A substitution is looked up in the reverse order of its making. -/
theorem lookup_of_reverse (hnodup : (ρ.reverse.map Prod.fst).Nodup) (name : String) :
    ρ.lookup name = ρ.reverse.lookup name := by
  rw [List.map_reverse, List.nodup_reverse] at hnodup
  exact (lookup_reverse name hnodup).symm

/-- What stands in the place of the result and of the indices. -/
theorem NamesApart.fills_result (h : NamesApart env p₀ names loose handles target)
    (hpasses : Passes env p₀ n at' names es σ) (hsuits : Suits env p₀ n at' names loose handles es)
    (hρ : ρ.reverse = σ.map bare) (x : VarRef) :
    Fills names handles σ (("result", x.toExpr) :: ρ) ∧
      Substitution.find? (("result", x.toExpr) :: ρ) "result" = some x.toExpr := by
  constructor
  · refine h.fills hpasses hsuits fun name hnot => ?_
    have hne : (name == "result") = false := by
      rw [beq_eq_false_iff_ne]
      rintro rfl
      exact hnot (by decide)
    rw [List.lookup_cons, hne, ← hρ]
    exact lookup_of_reverse (hρ ▸ hpasses.nodup_bare hsuits h.nodup) name
  · rw [Substitution.find?, firstPart_invented _ (by decide), List.lookup_cons_self]

/-- What stands in the place of the indices and of the value. -/
theorem NamesApart.fills_value (h : NamesApart env p₀ names loose handles target)
    (hpasses : Passes env p₀ n at' names es σ) (hsuits : Suits env p₀ n at' names loose handles es)
    {v : Expr} (hρ : ρ.reverse = σ.map bare ++ [("value_to_set", v)]) :
    Fills names handles σ ρ ∧ ρ.find? "value_to_set" = some v := by
  have hnodup := hpasses.nodup_bare hsuits h.nodup
  have hfresh : "value_to_set" ∉ (σ.map bare).map Prod.fst := by
    rw [hpasses.keys_bare hsuits]
    intro hmem
    obtain ⟨n, hn, hvalue⟩ := List.mem_map.mp hmem
    exact h.own n hn (hvalue ▸ by decide)
  have hlookup : ∀ name, ρ.lookup name = (σ.map bare ++ [("value_to_set", v)]).lookup name := by
    intro name
    rw [← hρ]
    refine lookup_of_reverse ?_ name
    rw [hρ, List.map_append, List.map_singleton, List.nodup_append]
    refine ⟨hnodup, List.nodup_singleton _, fun a ha b hb hab => hfresh ?_⟩
    rwa [hab, show b = "value_to_set" from List.mem_singleton.mp hb] at ha
  constructor
  · refine h.fills hpasses hsuits fun name hnot => ?_
    have hne : (name == "value_to_set") = false := by
      rw [beq_eq_false_iff_ne]
      rintro rfl
      exact hnot (by decide)
    rw [hlookup, List.lookup_append, List.lookup_cons, hne, List.lookup_nil, Option.or_none]
  · rw [Substitution.find?, firstPart_invented _ (by decide), hlookup, List.lookup_append,
      lookup_eq_none_of_notMem hfresh, List.lookup_cons_self, Option.none_or]

/-- **Reading the property**: its function is copied, and leaves an assignment from the variable,
with what the arguments are passed as in the places of the indices. -/
theorem callStmts_reads {indices : List Ident}
    (h : NamesApart env p₀ (indices.map Ident.spelling) loose handles target)
    (hsuits : Suits env p₀ n at' (indices.map Ident.spelling) loose handles es) (hp₀ : Orderly p₀)
    (hp : Akin env p₀ p) {property : String} (hstands : p₀.StandsFor property indices target)
    (hbuiltin : p₀.isBuiltinCall env.builtins (property ++ ".get") = false) {c : CallSite}
    (hname : c.name.name = property ++ ".get") (hcall : c.usingCall = false)
    (hargs : c.args = arguments env (below env n) at' es)
    (hx : exprsMeet (settled env p₀) x.subscripts) (hprop : isPropertyRef p₀ x.ident = false)
    {ss : List Stmt}
    (hrun : (callStmts env (below env n) at' c (some x)).run p = .ok (ss, p')) :
    ∃ k σ rs rs' q x' span trace span', n = k + 1 ∧
      Passes env p₀ n at' (indices.map Ident.spelling) es σ ∧
      ExprsMatch rs (exprsFill σ target.subscripts) ∧ Akin env p₀ q ∧
      (exprs env (below env k) { at' with stack := at'.stack ++ [c.name.name], trace } rs).run q =
        .ok (rs', p') ∧
      x'.Matches x ∧ ss = [⟨.assign x' (.var target.ident rs' span'), span, trace⟩] := by
  obtain ⟨span, hdef⟩ := hstands.getter
  rw [← hname] at hdef
  have huser : reachesBuiltin env p₀ c = false := by
    rw [reachesBuiltin, hname, hbuiltin, Bool.and_false]
  obtain ⟨k, ρ, p₁, p₂, body, rfl, -, hp₁, hρ, hbody, hrun⟩ :=
    callStmts_defined hp₀ hp hdef rfl huser hcall hrun
  rw [hargs] at hρ
  obtain ⟨hp₂, hpasses⟩ := argumentSubstitution_passes hp₀ _ es hp₁ hρ
  obtain ⟨σ, hσ, hpasses⟩ := exists_passes h.undotted_indices hpasses
  obtain ⟨hfills, hfind⟩ := h.fills_result hpasses hsuits hσ x
  obtain ⟨x', rs, hcopied, hident, hsubscripts, hmatch⟩ :=
    hfills.read_body hfind h c.span span span
  rw [resultsOf_synonymReader, List.singleton_append] at hbody
  cases hbody.symm.trans hcopied
  -- What is left of it.
  rw [expandAt_assign] at hrun
  -- What has been copied is a plain assignment, whose target has been expanded before.
  obtain ⟨o, xs', p₃, hsite, hvar, hrun⟩ :=
    (assignment_eq_ok ((hp₂.symm.isPropertyRef_matches hident).symm.trans hprop)).mp hrun
  rw [siteOfValue?_of_sigil _ h.sigil] at hsite
  cases hsite
  have hstays : Stays env p₀ (exprs env (below env k)
      { at' with stack := at'.stack ++ [c.name.name], trace := [c.span] } x'.subscripts)
      x'.subscripts := exprs_stay x'.subscripts (hsubscripts ▸ hx)
  obtain ⟨p₃', hvar', hp₃⟩ := hstays p₂ hp₂
  rw [hvar'] at hvar
  cases hvar
  obtain ⟨value, p₄, hvalue, hrun⟩ := StateT.bind_eq_ok.mp hrun
  cases hrun
  rw [expr_of_sigil _ h.sigil] at hvalue
  obtain ⟨rs', p₅, hrs, hvalue⟩ := StateT.bind_eq_ok.mp hvalue
  cases hvalue
  exact ⟨k, σ, rs, rs', p₃, x', span, [c.span], target.span, rfl, hpasses, hmatch, hp₃, hrs,
    ⟨hident, hsubscripts ▸ .refl _⟩, rfl⟩

/-- The call that reads the property. -/
theorem getterSite_of_standsFor (env : Env) (at' : Place) {indices : List Ident}
    (h : p.StandsFor i.name indices target) (args : List Argument) (span : Span) :
    ∃ c, getterSite env at' p i args span = .ok c ∧ c.name.name = i.name ++ ".get" ∧
      c.args = args ∧ c.usingCall = false := by
  obtain ⟨span', hdef⟩ := h.getter
  refine ⟨⟨.fixed (i.name ++ ".get") i.span, args, false, false, span⟩, ?_, hdef.name, rfl, rfl⟩
  rw [getterSite, if_pos (by exact hdef.isUserFunction)]

/-- The call that writes the property. -/
theorem setterSite_of_standsFor (env : Env) (at' : Place) {indices : List Ident}
    (h : p.StandsFor x.ident.name indices target) (args : List Argument) :
    ∃ c, setterSite env at' p x args span = .ok c ∧ c.name.name = x.ident.name ++ ".set" ∧
      c.args = args ∧ c.usingCall = false := by
  obtain ⟨span', hdef⟩ := h.setter
  refine ⟨⟨.fixed (x.ident.name ++ ".set") x.ident.span, args, true, false, span⟩, ?_, hdef.name,
    rfl, rfl⟩
  rw [setterSite, if_pos (by exact hdef.isUserFunction)]

/-- **The subscripts of the variable come to the same**, in the function of the property and where
the property is used. -/
theorem subscripts_run {indices : List Ident}
    (h : NamesApart env p₀ (indices.map Ident.spelling) loose handles target) (hp₀ : Orderly p₀)
    (hσ : Passes env p₀ (k + 1) at' (indices.map Ident.spelling) es σ)
    (hsuits : Suits env p₀ (k + 1) at' (indices.map Ident.spelling) loose handles es)
    {rs rs' : List Expr} (hmatch : ExprsMatch rs (exprsFill σ target.subscripts))
    {name : String} {trace : List Span} (hp : Akin env p₀ p) (hq : Akin env p₀ q)
    (hrun : (exprs env (below env k) { at' with stack := at'.stack ++ [name], trace } rs).run p =
        .ok (rs', p')) :
    Akin env p₀ p' ∧ ∃ rs'' q', (exprs env (below env (k + 1)) at'
        (exprsFill ((indices.map Ident.spelling).zip es) target.subscripts)).run q = .ok (rs'', q') ∧
      Akin env p₀ q' ∧ ExprsMatch rs' rs'' := by
  have hfilling := hσ.filling hsuits h hp₀ (Nat.le_succ k) (nearer_pushed env at' name trace)
  obtain ⟨rs₁, p₁, hrun₁, hp₁, hmatch₁⟩ := (exprs_follow (below_follows env (Nat.le_refl k))
    (.refl env _) hmatch p p (.refl env p)).run hrun
  obtain ⟨-, rs₂, q', hrun₂, hq', hmatch₂⟩ := hfilling.exprs _ h.subscripts p q hp hq rs₁ p₁ hrun₁
  exact ⟨hp.trans (exprs_akin (hp₀.akin hp) hrun), rs₂, q', hrun₂, hq', hmatch₁.trans hmatch₂⟩

/-- **Reading the property comes to the same as reading the variable.** -/
theorem assignment_reads {indices : List Ident} (hp : Orderly p)
    (hstands : p.StandsFor i.name indices target)
    (h : NamesApart env p (indices.map Ident.spelling) loose handles target)
    (hbuiltin : p.isBuiltinCall env.builtins (i.name ++ ".get") = false)
    (hi : isPropertyRef p i = true) (hx : isPropertyRef p x.ident = false)
    (hsuits : Suits env p n at' (indices.map Ident.spelling) loose handles es) {span span' : Span}
    {ss : List Stmt}
    (hrun : (assignment env (below env n) at' x (.var i es span) span').run p = .ok (ss, p')) :
    ∃ ss' q', (assignment env (below env n) at' x
        (target.fill ((indices.map Ident.spelling).zip es)).toExpr span').run p = .ok (ss', q') ∧
      StmtsMatch ss ss' := by
  obtain ⟨o, xs, p₁, hsite, hsubscripts, hrun⟩ := (assignment_eq_ok hx).mp hrun
  have hp₁ := exprs_akin hp hsubscripts
  -- The value is a call of the function that reads the property.
  obtain ⟨c, hc, hname, hargs, hcall⟩ := getterSite_of_standsFor env at' hstands
    (arguments env (below env n) at' es) span
  rw [siteOfValue?, if_pos hi, hc] at hsite
  cases hsite
  have huser : reachesBuiltin env p c = false := by
    rw [reachesBuiltin, hname, hbuiltin, Bool.and_false]
  simp only [assigned, huser, Bool.false_eq_true, if_false] at hrun
  obtain ⟨k, σ, rs, rs', q, x', _, _, _, rfl, hσ, hmatch, hq, hrs, hmatchx, rfl⟩ :=
    callStmts_reads h hsuits hp hp₁ hstands hbuiltin hname hcall hargs (x := ⟨x.ident, xs, x.span⟩)
      (exprs_settled hsubscripts).2 hx hrun
  -- The variable is read with the subscripts that the copy has.
  obtain ⟨hp', rs'', q', hrun', hq', hmatch'⟩ := subscripts_run h hp hσ hsuits hmatch hq hp₁ hrs
  have hsigil : (target.fill ((indices.map Ident.spelling).zip es)).ident.sigil.isSome = true :=
    h.sigil
  refine ⟨[at'.stmt (.assign ⟨x.ident, xs, x.span⟩ (.var target.ident rs'' target.span)) span'], q',
    (assignment_eq_ok hx).mpr ⟨none, xs, p₁, ?_, hsubscripts, ?_⟩,
    .single (.assign hmatchx (.var (.refl _) hmatch'))⟩
  · rw [VarRef.toExpr, siteOfValue?_of_sigil _ hsigil]
  · simp only [assigned, VarRef.toExpr]
    rw [expr_of_sigil _ hsigil]
    exact StateT.bind_eq_ok.mpr ⟨_, q', StateT.bind_eq_ok.mpr ⟨rs'', q', hrun', rfl⟩, rfl⟩

/-- The name of the parameter for the value. -/
theorem firstPart_value {span : Span} :
    Name.firstPart (Ident.ofText "value_to_set" span).name = "value_to_set" := by
  have hsplit : Sigil.split "value_to_set" = (none, "value_to_set") := by decide
  have hfirst : Name.firstPart "value_to_set" = "value_to_set" := by decide
  simp only [Ident.ofText, hsplit, hfirst]

/-- **Writing the property**: its function is copied, and leaves an assignment to the variable, with
what the arguments are passed as in the places of the indices and of the value. -/
theorem callStmts_writes {indices : List Ident}
    (h : NamesApart env p₀ (indices.map Ident.spelling) loose handles target)
    (hsuits : Suits env p₀ n at' (indices.map Ident.spelling) loose handles es) (hp₀ : Orderly p₀)
    (hp : Akin env p₀ p) {property : String} (hstands : p₀.StandsFor property indices target)
    (hbuiltin : p₀.isBuiltinCall env.builtins (property ++ ".set") = false) {c : CallSite}
    (hname : c.name.name = property ++ ".set") (hcall : c.usingCall = false) {v : Expr}
    (hargs : c.args = arguments env (below env n) at' (es ++ [v])) {ss : List Stmt}
    (hrun : (callStmts env (below env n) at' c none).run p = .ok (ss, p')) :
    ∃ k σ v' v'' rs q span trace span', n = k + 1 ∧
      Passes env p₀ n at' (indices.map Ident.spelling) es σ ∧
      PassedAs env p₀ n at' v v' ∧ v''.Matches v' ∧
      ExprsMatch rs (exprsFill σ target.subscripts) ∧ Akin env p₀ q ∧
      (assignment env (below env k) { at' with stack := at'.stack ++ [c.name.name], trace }
        ⟨target.ident, rs, span⟩ v'' span').run q = .ok (ss, p') := by
  obtain ⟨span, hdef⟩ := hstands.setter
  rw [← hname] at hdef
  have huser : reachesBuiltin env p₀ c = false := by
    rw [reachesBuiltin, hname, hbuiltin, Bool.and_false]
  obtain ⟨k, ρ, p₁, p₂, body, rfl, -, hp₁, hρ, hbody, hrun⟩ :=
    callStmts_defined hp₀ hp hdef rfl huser hcall hrun
  -- The last argument is the value, the others are those of the indices.
  rw [hargs] at hρ
  obtain ⟨hp₂, hpasses⟩ := argumentSubstitution_passes hp₀ _ (es ++ [v]) hp₁ hρ
  simp only [synonymWriter, Lowering.synonymSetter] at hpasses
  have hlen : es.length = indices.length := hsuits.length.trans (List.length_map _)
  rw [List.zip_append (by rw [List.length_map, hlen])] at hpasses
  obtain ⟨l, ⟨key, v'⟩, hl, hpasses, hkey, hv⟩ := exists_of_forall₂_concat hpasses
  obtain rfl : key = "value_to_set" := hkey.trans firstPart_value
  obtain ⟨σ, rfl, hnames⟩ := exists_passes h.undotted_indices hpasses
  obtain ⟨hfills, hfind⟩ := h.fills_value hnames hsuits hl
  obtain ⟨v'', rs, hcopied, hmatch', hmatch⟩ :=
    hfills.write_body hfind h c.span span span
  cases hbody.symm.trans hcopied
  rw [expandAt_assign] at hrun
  exact ⟨k, σ, v', v'', rs, p₂, target.span, [c.span], span, rfl, hnames, hv, hmatch', hmatch,
    hp₂, hrun⟩

/-- Nothing is left to expand in like programs alike. -/
theorem settled_akin (h : Akin env p q) : settled env q = settled env p := by
  unfold settled
  congr 1
  funext e
  cases e with
  | var i es span => simp only [h.isPropertyRef, h.namesFunction]
  | call name args isProcedure usingCall span => simp only [h.isBuiltinCall]
  | _ => rfl

/-- An expression meets a rule at its head. -/
theorem head_of_settled {e : Expr} (h : e.Meets (settled env p)) : (settled env p).expr e := by
  cases e with
  | binary => exact (h.resolve_left (fun h => h)).1
  | unary => exact h.1
  | var => exact h.1
  | call => exact h.1
  | _ => exact h

/-- **A value that is neither a reference to expand nor a call to copy** is expanded and assigned. -/
theorem assigned_of_settled (at' : Place) {e : Expr} (h : (settled env p₀).expr e) (hp : Akin env p₀ p)
    (inner : Expander) (span : Span) : ∃ o, siteOfValue? env inner at' p e = .ok o ∧
      ∀ x, assigned env inner at' p e span o x = (do
        return [at'.stmt (.assign x (← expr env inner at' e)) span]) := by
  cases e with
  | var i es span' =>
    obtain ⟨hprop, hname⟩ := h
    have hfunction : (es.isEmpty && namesFunction p i) = false := by
      rw [hp.namesFunction, Bool.and_eq_false_iff]
      cases es with
      | nil => exact .inr (hname rfl)
      | cons e es => exact .inl rfl
    refine ⟨none, ?_, fun x => rfl⟩
    simp only [siteOfValue?, hp.isPropertyRef, hprop, hfunction, Bool.false_eq_true, if_false]
    rfl
  | call name args isProcedure usingCall span' =>
    obtain ⟨rfl, hbuiltin⟩ := h
    refine ⟨_, rfl, fun x => ?_⟩
    simp only [assigned, reachesBuiltin, hp.isBuiltinCall, hbuiltin, expr, Bool.not_false,
      Bool.and_self, if_true]
  | _ => exact ⟨none, rfl, fun x => rfl⟩

/-- **A value with nothing left to expand is assigned as it is**, wherever it comes from. -/
theorem assigned_stays {v v' : Expr} (hsettled : v'.Meets (settled env p₀)) (hp : Akin env p₀ p)
    (hq : Akin env p₀ q) (hmatch : v.Matches v') {o : Option CallSite}
    (hsite : siteOfValue? env (below env k) at' p v = .ok o) {span : Span} {ss : List Stmt}
    (hrun : (assigned env (below env k) at' p v span o x).run q = .ok (ss, p')) :
    StmtsMatch ss [at'.stmt (.assign x v') span] := by
  obtain ⟨o₁, hsite₁, hassigned⟩ :=
    assigned_of_settled at' (head_of_settled hsettled) hp (below env k) span
  obtain ⟨o₂, hsite₂, hrel⟩ := siteOfValue?_follows (below_follows env (Nat.le_refl k))
    (.refl env at') (.refl env p) hmatch hsite
  cases hsite₁.symm.trans hsite₂
  obtain ⟨ss', p₁, hrun', -, hmatch'⟩ := (assigned_follows (below_follows env (Nat.le_refl k))
    (.refl env at') (.refl env p) (.refl env q) hmatch span span hrel (.refl x)).run hrun
  obtain ⟨p₂, hstays, -⟩ := (expr_stays v' hsettled) q hq
  rw [hassigned] at hrun'
  obtain ⟨w, p₃, hw, hrun'⟩ := StateT.bind_eq_ok.mp hrun'
  cases hstays.symm.trans hw
  cases hrun'
  exact hmatch'

/-- **What the copy writes is written to the variable**, if the value is not a call of a function of
the script. -/
theorem assignment_of_copy {indices : List Ident} (hp : Orderly p)
    (h : NamesApart env p (indices.map Ident.spelling) loose handles target)
    (hsuits : Suits env p (k + 1) at' (indices.map Ident.spelling) loose handles es)
    (hσ : Passes env p (k + 1) at' (indices.map Ident.spelling) es σ) {v v' v'' : Expr}
    (hv : v.asVar?.isSome = true ∨ (settled env p).expr v) (hpassed : PassedAs env p (k + 1) at' v v')
    (hmatchv : v''.Matches v') {rs : List Expr} (hmatch : ExprsMatch rs (exprsFill σ target.subscripts))
    (hq : Akin env p q) {name : String} {trace : List Span} {span span' span'' : Span} {ss : List Stmt}
    (hcopy : (assignment env (below env k) { at' with stack := at'.stack ++ [name], trace }
      ⟨target.ident, rs, span⟩ v'' span').run q = .ok (ss, p')) :
    ∃ ss' q', (assignment env (below env (k + 1)) at'
        (target.fill ((indices.map Ident.spelling).zip es)) v span'').run p = .ok (ss', q') ∧
      StmtsMatch ss ss' := by
  have hnear := nearer_pushed env at' name trace
  have hfilled : isPropertyRef p (target.fill ((indices.map Ident.spelling).zip es)).ident = false :=
    isPropertyRef_of_sigil h.sigil
  obtain ⟨o, rs', q₁, hsite, hrs, hcopy⟩ :=
    (assignment_eq_ok (x := ⟨target.ident, rs, span⟩) (isPropertyRef_of_sigil h.sigil)).mp hcopy
  obtain ⟨hq₁, rs'', q', hrun', hq', hmatch'⟩ :=
    subscripts_run h hp hσ hsuits hmatch hq (.refl env p) hrs
  have hmatchx : VarRef.Matches ⟨target.ident, rs', span⟩ ⟨target.ident, rs'', target.span⟩ :=
    ⟨.refl _, hmatch'⟩
  rcases hpassed with ⟨-, rfl⟩ | ⟨hnone, p₂, p₃, hp₂, hpassed⟩
  · -- A reference is copied as it is written.
    obtain ⟨o', hsite', hrel⟩ := siteOfValue?_follows (below_follows env (Nat.le_succ k)) hnear
      hq.symm hmatchv hsite
    obtain ⟨ss', q'', hdirect, -, hmatchss⟩ := (assigned_follows (below_follows env (Nat.le_succ k))
      hnear hq.symm (hq₁.symm.trans hq') hmatchv span' span'' hrel hmatchx).run hcopy
    exact ⟨ss', q'', (assignment_eq_ok hfilled).mpr ⟨o', rs'', q', hsite', hrun', hdirect⟩, hmatchss⟩
  · -- Anything else has been expanded, and is assigned as it is.
    have hsettled : v'.Meets (settled env p) := settled_akin hp₂ ▸ (expr_settled hpassed).2
    have hmatchss := assigned_stays hsettled hq hq₁ hmatchv hsite hcopy
    obtain ⟨o', hsite', hassigned⟩ := assigned_of_settled at'
      (hv.resolve_left (by simp [hnone])) (.refl env p) (below env (k + 1)) span''
    obtain ⟨v₁, q'', hv₁, -, hmatchv₁⟩ := (expr_follows (below_follows env (Nat.le_refl (k + 1)))
      (.refl env at') (.refl v) p₂ q' (hp₂.symm.trans hq')).run hpassed
    refine ⟨[at'.stmt (.assign ⟨target.ident, rs'', target.span⟩ v₁) span''], q'',
      (assignment_eq_ok hfilled).mpr ⟨o', rs'', q', hsite', hrun', ?_⟩, ?_⟩
    · rw [hassigned]
      exact StateT.bind_eq_ok.mpr ⟨v₁, q'', hv₁, rfl⟩
    · cases hmatchss with
      | cons hs hnil =>
        cases hnil
        cases hs with
        | assign ht he =>
          exact .single (.assign ⟨ht.ident.trans hmatchx.ident,
            ht.subscripts.trans hmatchx.subscripts⟩ (he.trans hmatchv₁))

/-- **Writing the property comes to the same as writing the variable**, if the value is not a call of
a function of the script. -/
theorem assignment_writes {indices : List Ident} (hp : Orderly p)
    (hstands : p.StandsFor i.name indices target)
    (h : NamesApart env p (indices.map Ident.spelling) loose handles target)
    (hbuiltin : p.isBuiltinCall env.builtins (i.name ++ ".set") = false)
    (hi : isPropertyRef p i = true)
    (hsuits : Suits env p n at' (indices.map Ident.spelling) loose handles es) {v : Expr}
    (hv : v.asVar?.isSome = true ∨ (settled env p).expr v) {span span' : Span} {ss : List Stmt}
    (hrun : (assignment env (below env n) at' ⟨i, es, span⟩ v span').run p = .ok (ss, p')) :
    ∃ ss' q', (assignment env (below env n) at' (target.fill ((indices.map Ident.spelling).zip es)) v
        span').run p = .ok (ss', q') ∧ StmtsMatch ss ss' := by
  unfold assignment at hrun
  simp only [StateT.run_bind, StateT.run_get, pure_bind] at hrun
  rw [if_pos hi] at hrun
  obtain ⟨c, hc, hname, hargs, hcall⟩ := setterSite_of_standsFor (x := ⟨i, es, span⟩) env at' hstands
    (arguments env (below env n) at' (es ++ [v]))
  obtain ⟨c', p₁, hlift, hrun⟩ := StateT.bind_eq_ok.mp hrun
  obtain ⟨hc', rfl⟩ := StateT.lift_eq_ok.mp hlift
  cases hc.symm.trans hc'
  obtain ⟨k, σ, v', v'', rs, q, span₁, trace, span₂, rfl, hσ, hpassed, hmatchv, hmatch, hq,
    hcopy⟩ := callStmts_writes h hsuits hp (.refl env p) hstands hbuiltin hname hcall hargs hrun
  exact assignment_of_copy hp h hsuits hσ hv hpassed hmatchv hmatch hq hcopy

end Inlining

end FlatScript
