import FlatScript.Parser.Script
import FlatScript.Proofs.Characters
import FlatScript.Proofs.Compaction.Table
import FlatScript.Proofs.LetterCase
import FlatScript.Proofs.Reachability

/-!
# Which variables short names keep apart

A short name is a sigil and five letters cut from a digest, so that different variables may well be
given the same one. The table of short names does not let that happen, and it gives no variable the
name of a built-in. What it does not look at are the names that a pattern preserves: a variable may
be given the name of one that keeps it. That is the only way in which two variables become one,
whatever the digest is.

* `FlatScript.Compaction.shortNameBy` is the short name for any digest.
* `FlatScript.Compaction.merges_iff`: two variables get names that are equal up to letter case exactly
  when one of them is given the preserved name of the other one.
* `FlatScript.Compaction.takenText_merges` is a script in which that happens.
-/

namespace FlatScript

/-- Characters that are their own lower-case forms make a text that is its own. -/
theorem Text.lowerAfter_eq_self {cs : List Char} (h : ∀ c ∈ cs, lowerIn [] c [] = [c])
    (before : List Char) : lowerAfter before cs = cs := by
  have hsigma : 'Σ' ∉ cs := fun hc => absurd (h _ hc) (by decide)
  rw [lowerAfter_eq_flatMap hsigma, List.flatMap_congr h]
  simp

/-- The name that a variable has with a table of short names. -/
def ShortNames.nameOf (t : ShortNames) (v : String) : String := (t.short? v).getD v

namespace Compaction

variable {b : Builtins} {digest : String → Nat} {preserve vars : List String} {t : ShortNames}
  {v w : String}

/-! ### Short names for any digest -/

/-- The short name of a variable, by a digest of its name in lower case. The five characters can be
any of the alphabet. -/
def shortNameBy (digest : String → Nat) (name : String) : String :=
  sigilText name ++ String.ofList (letters 5 (digest (Text.lower name)))

theorem shortName_eq : shortName = shortNameBy fun name => (Text.digest name).toNat := rfl

/-- **A short name is in lower case.** -/
theorem lower_shortNameBy (digest : String → Nat) (name : String) :
    Text.lower (shortNameBy digest name) = shortNameBy digest name := by
  have hsigils : ∀ s : Sigil, s.text.toList.all fun c => Text.lowerIn [] c [] == [c] := by
    intro s
    cases s <;> decide
  have hsigil : ∀ c ∈ (sigilText name).toList, Text.lowerIn [] c [] = [c] := by
    unfold sigilText
    cases (Sigil.split name).1 with
    | none => simp
    | some s => simpa using hsigils s
  have hletters : ∀ n, ∀ c ∈ letters 5 n, Text.lowerIn [] c [] = [c] :=
    forall_letters (P := fun c => Text.lowerIn [] c [] = [c]) (by decide) 5
  rw [Text.lower, Text.lowerAfter_eq_self, String.ofList_toList]
  simp only [shortNameBy, String.toList_append, String.toList_ofList, List.forall_mem_append]
  exact ⟨hsigil, hletters _⟩

/-! ### Names that are taken -/

/-- **A variable takes the name of another one**: its short name is that name, which a pattern
preserves. -/
structure Takes (b : Builtins) (digest : String → Nat) (preserve : List String) (v w : String) :
    Prop where
  shortened : keepsName b (preserve.map pattern) v = false
  preserved : isPreserved (preserve.map pattern) w = true
  same : shortNameBy digest v = w

section Table

variable (ht : Tabulates b (shortNameBy digest) (preserve.map pattern) vars t)
  (hlower : ∀ v ∈ vars, Text.lower v = v)

include ht hlower

theorem nameOf_eq (hv : v ∈ vars) :
    t.nameOf v = if keepsName b (preserve.map pattern) v then v else shortNameBy digest v := by
  have hshort := ht.short?_eq (v := v) ((hlower v hv).symm ▸ hv)
  rw [hlower v hv] at hshort
  rw [ShortNames.nameOf, hshort]
  split <;> rfl

/-- Variables have names in lower case before and after. -/
theorem lower_nameOf (hv : v ∈ vars) : Text.lower (t.nameOf v) = t.nameOf v := by
  rw [nameOf_eq ht hlower hv]
  split
  · exact hlower v hv
  · exact lower_shortNameBy digest v

/-- A variable that is given a short name and one that keeps its name. -/
theorem nameOf_eq_iff_takes (hv : v ∈ vars) (hw : w ∈ vars)
    (hshort : keepsName b (preserve.map pattern) v = false)
    (hkeeps : keepsName b (preserve.map pattern) w = true) :
    t.nameOf v = t.nameOf w ↔ Takes b digest preserve v w := by
  rw [nameOf_eq ht hlower hv, nameOf_eq ht hlower hw, hshort, hkeeps]
  refine ⟨fun heq => ⟨hshort, ?_, heq⟩, fun h => h.same⟩
  -- A built-in name is no short name, so it must be a pattern that keeps the name of `w`.
  have hnot := ht.builtin _ (ht.covers v hv hshort)
  have heq : shortNameBy digest v = w := heq
  rw [heq] at hnot
  simpa [keepsName, hnot] using hkeeps

/-- **Two variables become one** exactly when one takes the preserved name of the other. -/
theorem nameOf_eq_iff (hv : v ∈ vars) (hw : w ∈ vars) (hne : v ≠ w) :
    t.nameOf v = t.nameOf w ↔ Takes b digest preserve v w ∨ Takes b digest preserve w v := by
  have hkept : ∀ {v w}, Takes b digest preserve v w → keepsName b (preserve.map pattern) w = true :=
    fun h => by simp [keepsName, h.preserved]
  have hboth := nameOf_eq ht hlower hv
  have hboth' := nameOf_eq ht hlower hw
  cases hkv : keepsName b (preserve.map pattern) v <;>
    cases hkw : keepsName b (preserve.map pattern) w
  case false.false =>
    -- The table holds both, and no short name twice.
    have hdistinct := ht.distinct _ (ht.covers v hv hkv) _ (ht.covers w hw hkw)
    rw [hboth, hboth', hkv, hkw]
    refine iff_of_false (fun heq => hne (Prod.mk.inj (hdistinct heq)).1) ?_
    rintro (h | h)
    · exact absurd (hkw.symm.trans (hkept h)) Bool.false_ne_true
    · exact absurd (hkv.symm.trans (hkept h)) Bool.false_ne_true
  case false.true =>
    rw [nameOf_eq_iff_takes ht hlower hv hw hkv hkw]
    refine ⟨.inl, fun h => h.resolve_right fun h => ?_⟩
    exact absurd (h.shortened.symm.trans hkw) Bool.false_ne_true
  case true.false =>
    rw [eq_comm, nameOf_eq_iff_takes ht hlower hw hv hkw hkv]
    refine ⟨.inr, fun h => h.resolve_left fun h => ?_⟩
    exact absurd (h.shortened.symm.trans hkv) Bool.false_ne_true
  case true.true =>
    rw [hboth, hboth', hkv, hkw]
    refine iff_of_false hne ?_
    rintro (h | h)
    · exact absurd (h.shortened.symm.trans hkv) Bool.false_ne_true
    · exact absurd (h.shortened.symm.trans hkw) Bool.false_ne_true

/-- Every spelling of a variable is changed to its name. -/
theorem lower_ident {i : Ident} (hsigil : i.sigil.isSome = true) (hi : Text.lower i.full ∈ vars) :
    Text.lower (ident t i).full = t.nameOf (Text.lower i.full) := by
  have hshort := ht.short?_eq hi
  rw [nameOf_eq ht hlower hi]
  cases hkeeps : keepsName b (preserve.map pattern) (Text.lower i.full) with
  | true =>
    rw [hkeeps] at hshort
    rw [ident_eq_self hshort, if_pos rfl]
  | false =>
    rw [hkeeps] at hshort
    rw [full_ident hsigil hshort, lower_shortNameBy]
    rfl

end Table

/-! ### Scripts -/

/-- **Short names merge two variables only when one takes the preserved name of the other**, for any
digest, and they give no variable the name of a built-in. The variables of the table become their
new names, and so does every name of one of them in the script, up to letter case. The variables
that a compilation has by then are in lower case, `FlatScript.Compilation.lower_undotted_vars`. -/
theorem merges_iff {env : Env} {s s' : Script} {p p' : Program}
    (hlower : ∀ v ∈ p.symbols.vars, Text.lower v = v)
    (hrun : (scriptWith (shortNameBy digest) env preserve s).run p = .ok ((s', t), p')) :
    (∀ v ∈ p.symbols.vars, ∀ w ∈ p.symbols.vars, v ≠ w →
      (Text.lower (t.nameOf v) = Text.lower (t.nameOf w) ↔
        Takes env.builtins digest preserve v w ∨ Takes env.builtins digest preserve w v)) ∧
    (∀ v ∈ p.symbols.vars, if keepsName env.builtins (preserve.map pattern) v then t.nameOf v = v
      else env.builtins.isBuiltin (t.nameOf v) = false) ∧
    p'.symbols.vars = Name.distinct (p.symbols.vars.map t.nameOf) ∧
    s' = (shorten t).script s ∧
    ∀ i : Ident, i.sigil.isSome = true → Text.lower i.full ∈ p.symbols.vars →
      Text.lower (ident t i).full = t.nameOf (Text.lower i.full) := by
  obtain ⟨ht, rfl, hsymbols⟩ := scriptWith_run hrun
  have hmem : ∀ {v}, v ∈ p.symbols.sortedVariables ↔ v ∈ p.symbols.vars := Name.mem_sorted
  have hsorted : ∀ v ∈ p.symbols.sortedVariables, Text.lower v = v := fun v hv =>
    hlower v (hmem.mp hv)
  refine ⟨fun v hv w hw hne => ?_, fun v hv => ?_, by rw [hsymbols]; rfl, rfl,
    fun i hsigil hi => lower_ident ht hsorted hsigil (hmem.mpr hi)⟩
  · rw [lower_nameOf ht hsorted (hmem.mpr hv), lower_nameOf ht hsorted (hmem.mpr hw)]
    exact nameOf_eq_iff ht hsorted (hmem.mpr hv) (hmem.mpr hw) hne
  · rw [nameOf_eq ht hsorted (hmem.mpr hv)]
    cases hkeeps : keepsName env.builtins (preserve.map pattern) v with
    | true => rfl
    | false => exact ht.builtin _ (ht.covers v (hmem.mpr hv) hkeeps)

/-- A script with a variable that takes the name of another one, when that one is preserved. -/
def takenText : String := "on init\ndeclare $x\ndeclare $jx23j\ndeclare $volume\nend on\n"

/-- The table of that script. -/
def takenProgram : Program := { symbols := { vars := ["$x", "$jx23j", "$volume"] } }

/-- **Two variables of that script become one.** -/
theorem takenText_merges : ∃ s s' t p', Script.parse takenText .empty = .ok s ∧
    (script ⟨{}, .empty⟩ ["jx23j"] s).run takenProgram = .ok ((s', t), p') ∧
    t.nameOf "$x" = "$jx23j" ∧ t.nameOf "$jx23j" = "$jx23j" ∧
    ((∀ v ∈ takenProgram.symbols.vars, ∀ w ∈ takenProgram.symbols.vars, v ≠ w →
      (Text.lower (t.nameOf v) = Text.lower (t.nameOf w) ↔
        Takes {} (fun name => (Text.digest name).toNat) ["jx23j"] v w ∨
          Takes {} (fun name => (Text.digest name).toNat) ["jx23j"] w v)) ∧
    (∀ v ∈ takenProgram.symbols.vars,
      if keepsName {} (["jx23j"].map pattern) v then t.nameOf v = v
      else Builtins.isBuiltin {} (t.nameOf v) = false) ∧
    p'.symbols.vars = Name.distinct (takenProgram.symbols.vars.map t.nameOf) ∧
    s' = (shorten t).script s ∧
    ∀ i : Ident, i.sigil.isSome = true → Text.lower i.full ∈ takenProgram.symbols.vars →
      Text.lower (ident t i).full = t.nameOf (Text.lower i.full)) := by
  set_option maxRecDepth 4000 in
  have htext : takenText.toList = _ := String.toList_ofList
  have hrun : ((Script.parse takenText .empty).toOption.bind fun s =>
      ((script ⟨{}, .empty⟩ ["jx23j"] s).run takenProgram).toOption.map fun r =>
        (r.1.2.nameOf "$x", r.1.2.nameOf "$jx23j")) = some ("$jx23j", "$jx23j") := by
    rw [Script.parse_eq_ofChars htext]
    decide +kernel
  obtain ⟨s, hparse, hrun⟩ := Option.bind_eq_some_iff.mp hrun
  obtain ⟨⟨⟨s', t⟩, p'⟩, hrun, hnames⟩ := Option.map_eq_some_iff.mp hrun
  obtain ⟨hx, hj⟩ := Prod.mk.inj hnames
  have hrun := Except.toOption_eq_some.mp hrun
  refine ⟨s, s', t, p', Except.toOption_eq_some.mp hparse, hrun, hx, hj, ?_⟩
  rw [script, shortName_eq] at hrun
  exact merges_iff (by decide +kernel) hrun

end Compaction

end FlatScript
