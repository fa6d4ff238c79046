import FlatScript.Compaction.Script
import FlatScript.Proofs.Outcome

/-!
# What the table of short names holds

The table is filled name by name, and it stays a table of the names so far: those that do not keep
their names stand in it with their short names, no short name is that of a built-in, and no two are
equal (`FlatScript.Compaction.Tabulates`). A lookup then finds the short name of a variable under each
of its spellings, and nothing for a variable that keeps its name.
-/

namespace FlatScript

namespace ShortNames

variable {t : ShortNames}

/-- A short name is found under the name in lower case. -/
theorem mem_of_short? {name short : String} (h : t.short? name = some short) :
    (Text.lower name, short) ∈ t.pairs := by
  obtain ⟨⟨long, short'⟩, hpair, hfound⟩ := List.exists_of_findSome?_eq_some h
  dsimp only at hfound
  split at hfound
  · next hkey =>
    cases hfound
    exact beq_iff_eq.mp hkey ▸ hpair
  · cases hfound

/-- A name is found under its short name. -/
theorem mem_of_long? {s name : String} (h : t.long? s = some name) : (name, s) ∈ t.pairs := by
  obtain ⟨⟨name', s'⟩, hpair, hfound⟩ := List.exists_of_findSome?_eq_some h
  dsimp only at hfound
  split at hfound
  · next hkey =>
    cases hfound
    exact beq_iff_eq.mp hkey ▸ hpair
  · cases hfound

/-- A short name that is not found in a table stands in no pair of it. -/
theorem ne_of_long? {s : String} (h : t.long? s = none) : ∀ pair ∈ t.pairs, pair.2 ≠ s := by
  intro pair hpair heq
  have hnone := List.findSome?_eq_none_iff.mp h pair hpair
  simp [heq] at hnone

/-- A name for which no short name is found stands in no pair. -/
theorem ne_of_short? {name : String} (h : t.short? name = none) :
    ∀ pair ∈ t.pairs, pair.1 ≠ Text.lower name := by
  intro pair hpair heq
  have hnone := List.findSome?_eq_none_iff.mp h pair hpair
  simp [heq] at hnone

end ShortNames

namespace Compaction

variable {b : Builtins} {short : String → String} {patterns : List (List Char)} {vars : List String}
  {t t' : ShortNames} {v name : String}

/-- What holds of every character of the alphabet holds of the characters cut from a digest. -/
theorem forall_letters {P : Char → Prop} (h : ∀ m < 32, P (alphabet.getD m 'a')) :
    ∀ count n, ∀ c ∈ letters count n, P c := by
  intro count
  induction count with
  | zero => simp [letters]
  | succ count ih =>
    intro n c hc
    rcases List.mem_cons.mp hc with rfl | hc
    · exact h _ (Nat.mod_lt n (by decide))
    · exact ih _ c hc

/-- Whether a variable keeps its name: because a pattern preserves it, or because it is built in. -/
def keepsName (b : Builtins) (patterns : List (List Char)) (name : String) : Bool :=
  isPreserved patterns name || b.isBuiltin name

/-- **The table of short names of some variables**: the ones that do not keep their names stand in it
with their short names, of which none is built in and no two are equal. -/
structure Tabulates (b : Builtins) (short : String → String) (patterns : List (List Char))
    (vars : List String) (t : ShortNames) : Prop where
  pairs : ∀ pair ∈ t.pairs, pair.1 ∈ vars ∧ keepsName b patterns pair.1 = false ∧
    pair.2 = short pair.1
  covers : ∀ v ∈ vars, keepsName b patterns v = false → (v, short v) ∈ t.pairs
  builtin : ∀ pair ∈ t.pairs, b.isBuiltin pair.2 = false
  distinct : ∀ pair ∈ t.pairs, ∀ pair' ∈ t.pairs, pair.2 = pair'.2 → pair = pair'

/-- The table with one variable more. -/
theorem Tabulates.add (h : Tabulates b short patterns vars t)
    (hadd : addName b short patterns t name = .ok t') :
    Tabulates b short patterns (vars ++ [name]) t' := by
  have hpairs : ∀ pair ∈ t.pairs, pair.1 ∈ vars ++ [name] ∧ keepsName b patterns pair.1 = false ∧
      pair.2 = short pair.1 := fun pair hpair =>
    ⟨List.mem_append_left _ (h.pairs pair hpair).1, (h.pairs pair hpair).2⟩
  unfold addName at hadd
  split at hadd
  · next hkeeps =>
    cases hadd
    refine ⟨hpairs, fun v hv hnot => ?_, h.builtin, h.distinct⟩
    rcases List.mem_append.mp hv with hv | hv
    · exact h.covers v hv hnot
    · rw [List.mem_singleton.mp hv, keepsName, hkeeps] at hnot
      cases hnot
  · next hkeeps =>
    rw [Bool.not_eq_true] at hkeeps
    -- A short name that is built in or taken ends the compilation, so this one is new.
    split at hadd
    · cases hadd
    next hbuiltin =>
    rw [Bool.not_eq_true] at hbuiltin
    unfold ShortNames.insert at hadd
    split at hadd
    · cases hadd
    next hnew =>
    cases hadd
    have hnew := ShortNames.ne_of_long? hnew
    refine ⟨List.forall_mem_cons.mpr ⟨⟨by simp, hkeeps, rfl⟩, hpairs⟩, fun v hv hnot => ?_,
      List.forall_mem_cons.mpr ⟨hbuiltin, h.builtin⟩, ?_⟩
    · rcases List.mem_append.mp hv with hv | hv
      · exact List.mem_cons_of_mem _ (h.covers v hv hnot)
      · rw [List.mem_singleton.mp hv]
        exact List.mem_cons_self
    · rintro pair hpair pair' hpair' heq
      rcases List.mem_cons.mp hpair with rfl | hpair <;>
        rcases List.mem_cons.mp hpair' with rfl | hpair'
      · rfl
      · exact absurd heq.symm (hnew pair' hpair')
      · exact absurd heq (hnew pair hpair)
      · exact h.distinct pair hpair pair' hpair' heq

/-- **What the table of the variables of a script holds.** -/
theorem tabulates_shortNames {preserve : List String}
    (h : shortNames b short preserve vars = .ok t) :
    Tabulates b short (preserve.map pattern) vars t := by
  have hfold : ∀ (names done : List String) (t₀ : ShortNames),
      Tabulates b short (preserve.map pattern) done t₀ →
      names.foldlM (addName b short (preserve.map pattern)) t₀ = .ok t →
      Tabulates b short (preserve.map pattern) (done ++ names) t := by
    intro names
    induction names with
    | nil =>
      intro done t₀ ht₀ h
      cases h
      simpa using ht₀
    | cons name names ih =>
      intro done t₀ ht₀ h
      rw [List.foldlM_cons] at h
      obtain ⟨t₁, hadd, h⟩ := Except.bind_eq_ok.mp h
      simpa using ih (done ++ [name]) t₁ (ht₀.add hadd) h
  exact hfold vars [] {} ⟨by simp, by simp, by simp, by simp⟩ h

/-- **The table finds the short name** of every variable that does not keep its name. -/
theorem Tabulates.short?_eq (h : Tabulates b short patterns vars t) {v : String}
    (hv : Text.lower v ∈ vars) :
    t.short? v = if keepsName b patterns (Text.lower v) then none else some (short (Text.lower v)) := by
  cases hfound : t.short? v with
  | none =>
    cases hkeeps : keepsName b patterns (Text.lower v) with
    | true => rfl
    | false => exact absurd rfl (ShortNames.ne_of_short? hfound _ (h.covers _ hv hkeeps))
  | some s =>
    obtain ⟨-, hkeeps, hs⟩ := h.pairs _ (ShortNames.mem_of_short? hfound)
    dsimp only at hkeeps hs
    rw [hkeeps, hs]
    rfl

/-- **The table finds the variable** of every short name. -/
theorem Tabulates.long?_eq (h : Tabulates b short patterns vars t) {s : String}
    (hs : t.short? v = some s) : t.long? s = some (Text.lower v) := by
  have hpair := ShortNames.mem_of_short? hs
  cases hfound : t.long? s with
  | none => exact absurd rfl (ShortNames.ne_of_long? hfound _ hpair)
  | some v' =>
    have heq := h.distinct _ (ShortNames.mem_of_long? hfound) _ hpair rfl
    rw [(Prod.mk.inj heq).1]

/-! ### Names in a script -/

/-- A variable with a short name is written by it. -/
theorem full_ident {i : Ident} {s : String} (hsigil : i.sigil.isSome = true)
    (hs : t.short? i.full = some s) : (ident t i).full = s := by
  obtain ⟨sigil, hsome⟩ := Option.isSome_iff_exists.mp hsigil
  have hident : ident t i = ⟨(Sigil.split s).1, (Sigil.split s).2, i.span, i.qualified⟩ := by
    simp [ident, hs, hsome]
  rw [hident]
  exact Ident.full_ofText s i.span

/-- A variable without a short name is left as it is. -/
theorem ident_eq_self {i : Ident} (hs : t.short? i.full = none) : ident t i = i := by
  simp [ident, hs]

/-! ### Scripts -/

/-- **A script with short names** is renamed by the table of the declared variables, which are renamed
along with it. -/
theorem scriptWith_run {env : Env} {preserve : List String} {s s' : Script} {p p' : Program}
    (h : (scriptWith short env preserve s).run p = .ok ((s', t), p')) :
    Tabulates env.builtins short (preserve.map pattern) p.symbols.sortedVariables t ∧
      s' = (shorten t).script s ∧
      p'.symbols = p.symbols.renameVariables fun v => (t.short? v).getD v := by
  unfold scriptWith at h
  simp only [StateT.run_bind, StateT.run_get, pure_bind] at h
  obtain ⟨⟨t', p₁⟩, ht, h⟩ := Except.bind_eq_ok.mp h
  obtain ⟨hnames, rfl⟩ := StateT.lift_eq_ok.mp ht
  cases h
  exact ⟨tabulates_shortNames hnames, rfl, rfl⟩

/-- The functions of the table keep their names. -/
theorem scriptWith_functions {env : Env} {preserve : List String} {s s' : Script} {p p' : Program}
    (h : (scriptWith short env preserve s).run p = .ok ((s', t), p')) :
    p'.functions = p.functions := by
  unfold scriptWith at h
  simp only [StateT.run_bind, StateT.run_get, pure_bind] at h
  obtain ⟨⟨t', p₁⟩, ht, h⟩ := Except.bind_eq_ok.mp h
  obtain ⟨-, rfl⟩ := StateT.lift_eq_ok.mp ht
  cases h
  rfl

end Compaction

end FlatScript
