import FlatScript.Name.Dotted
import FlatScript.Text.Case
import Mathlib.Data.List.Basic

/-!
# Lower case, character by character

Variables are compared in lower case. Lower case is not quite a matter of single characters: a
capital sigma has another form at the end of a word, and what follows decides. All other
characters go their own way, and the ones below the small letters stay as they are. So a name can
be taken apart in front of its digits, and its dots can be written as underscores before or
after, unless there is a sigma in it.

* `FlatScript.Text.lower_undotted_lower`: what is in lower case stays as it is, with or without dots.
* `FlatScript.Text.lower_numbered_inj`: numbers behind a name are told apart in lower case.
* `FlatScript.Text.lower_undotted`: lower case and dots have nothing to do with each other.
* `FlatScript.Text.lower_toLower`: the letters of the alphabet may be made small beforehand.
-/

namespace FlatScript.Text

/-! ### Characters -/

/-- The lower-case forms of the table are characters, and none of them is below `a`. -/
theorem lowerRows_spec : ∀ row ∈ lowerRows, 97 ≤ (row.1 : Int) + row.2.2.2 ∧
    ((row.2.1 : Int) + row.2.2.2 < 0xd800 ∨
      0xdfff < (row.1 : Int) + row.2.2.2 ∧ (row.2.1 : Int) + row.2.2.2 < 0x110000) := by
  decide +kernel

/-- A character that has a lower-case form in the table has one that is not below `a`. -/
theorem le_toNat_of_mapRows {n m : Nat} (h : mapRows lowerRows n = some m) :
    97 ≤ (Char.ofNat m).toNat := by
  obtain ⟨⟨lo, hi, step, shift⟩, hfind, rfl⟩ := Option.map_eq_some_iff.mp h
  obtain ⟨hlow, hvalid⟩ := lowerRows_spec _ (List.mem_of_find?_eq_some hfind)
  have hrange := List.find?_some hfind
  simp only [Bool.and_eq_true, decide_eq_true_eq] at hlow hvalid hrange
  have hchar : (((n : Int) + shift).toNat).isValidChar := by
    unfold Nat.isValidChar
    omega
  rw [Char.ofNat, dif_pos hchar]
  change 97 ≤ ((n : Int) + shift).toNat
  omega

/-- **A character below the small letters is its own lower-case form**, and that of no other. -/
theorem lowerChar_eq_of_lt {c : Char} (h : (lowerChar c).toNat < 97) : lowerChar c = c := by
  unfold lowerChar at h ⊢
  by_cases hascii : c.toNat < 128
  · rw [if_pos hascii] at h ⊢
    have hall : ∀ n < 128, (Char.ofNat n).toLower.toNat < 97 →
        (Char.ofNat n).toLower = Char.ofNat n := by decide
    have hc := hall c.toNat hascii
    rw [Char.ofNat_toNat] at hc
    exact hc h
  · rw [if_neg hascii] at h ⊢
    cases hm : mapRows lowerRows c.toNat with
    | none => rfl
    | some m =>
      have hle := le_toNat_of_mapRows hm
      rw [hm] at h
      exact absurd h (Nat.not_lt.mpr hle)

/-- A character below the small letters comes from itself only. -/
theorem eq_of_mem_lowerIn {before after : List Char} {c d : Char} (h : d ∈ lowerIn before c after)
    (hd : d.toNat < 97) : c = d := by
  unfold lowerIn at h
  split at h
  · -- Neither form of the sigma is below the small letters.
    have hsigma : d = 'ς' ∨ d = 'σ' := by
      split at h
      · exact .inl (List.mem_singleton.mp h)
      · exact .inr (List.mem_singleton.mp h)
    rcases hsigma with rfl | rfl <;> exact absurd hd (by decide)
  · split at h
    · have hpair : d = 'i' ∨ d = '\u0307' := by simpa using h
      rcases hpair with rfl | rfl <;> exact absurd hd (by decide)
    · have hlower := List.mem_singleton.mp h
      rw [hlower] at hd
      rw [hlower, lowerChar_eq_of_lt hd]

/-- A character below the capitals is its own lower-case form. -/
theorem lowerIn_eq_self {c : Char} (h : c.toNat < 65) (before after : List Char) :
    lowerIn before c after = [c] := by
  have hall : ∀ n < 65, lowerIn [] (Char.ofNat n) [] = [Char.ofNat n] := by decide
  have hsigma : c ≠ 'Σ' := by
    rintro rfl
    exact absurd h (by decide)
  have hc := hall c.toNat h
  rw [Char.ofNat_toNat] at hc
  unfold lowerIn at hc ⊢
  rw [if_neg hsigma] at hc ⊢
  exact hc

/-- What stands around a character does not change the length of its lower-case form. -/
theorem length_lowerIn (before after : List Char) (c : Char) :
    (lowerIn before c after).length = (lowerIn [] c []).length := by
  unfold lowerIn
  split
  · rfl
  · split <;> rfl

/-- What stands around a character does not change its lower-case form, unless it is a sigma. -/
theorem lowerIn_eq {c : Char} (h : c ≠ 'Σ') (before after : List Char) :
    lowerIn before c after = lowerIn [] c [] := by
  unfold lowerIn
  rw [if_neg h, if_neg h]

/-! ### Texts -/

/-- **The lower-case form of two texts, one after the other.** Where it falls apart depends on
the first one only. -/
theorem lowerAfter_append (before cs ds : List Char) :
    ∃ front, lowerAfter before (cs ++ ds) = front ++ lowerAfter (cs.reverse ++ before) ds ∧
      front.length = (cs.flatMap fun c => lowerIn [] c []).length := by
  induction cs generalizing before with
  | nil => exact ⟨[], rfl, rfl⟩
  | cons c cs ih =>
    obtain ⟨front, hfront, hlength⟩ := ih (c :: before)
    refine ⟨lowerIn before c (cs ++ ds) ++ front, ?_, ?_⟩
    · rw [List.cons_append, lowerAfter, hfront]
      simp
    · simp [length_lowerIn before, hlength]

theorem lowerAfter_digits {ds : List Char} (h : ∀ d ∈ ds, d.isDigit = true) (before : List Char) :
    lowerAfter before ds = ds := by
  induction ds generalizing before with
  | nil => rfl
  | cons d ds ih =>
    have hd : d.toNat < 65 := by
      have hdigit := h d List.mem_cons_self
      simp only [Char.isDigit, Bool.and_eq_true, decide_eq_true_eq] at hdigit
      have hle : d.toNat ≤ 57 := hdigit.2
      omega
    rw [lowerAfter, lowerIn_eq_self hd, ih fun d' hd' => h d' (List.mem_cons_of_mem _ hd')]
    rfl

/-- **Numbers behind a name are told apart in lower case.** -/
theorem lower_numbered_inj {base : String} {m n : Nat}
    (h : lower (base ++ toString m) = lower (base ++ toString n)) : m = n := by
  have hdigits : ∀ k : Nat, (toString k).toList = Nat.toDigits 10 k := by
    intro k
    rw [Nat.toString_eq_repr, Nat.repr, String.toList_ofList]
  have hsplit : ∀ k : Nat, ∃ front, (lower (base ++ toString k)).toList = front ++ Nat.toDigits 10 k ∧
      front.length = (base.toList.flatMap fun c => lowerIn [] c []).length := by
    intro k
    obtain ⟨front, hfront, hlength⟩ := lowerAfter_append [] base.toList (Nat.toDigits 10 k)
    refine ⟨front, ?_, hlength⟩
    rw [lower, String.toList_ofList, String.toList_append, hdigits, hfront,
      lowerAfter_digits fun d hd => Nat.isDigit_of_mem_toDigits (by decide) (by decide) hd]
  obtain ⟨front, hm, hlength⟩ := hsplit m
  obtain ⟨front', hn, hlength'⟩ := hsplit n
  rw [h, hn] at hm
  have htail := (List.append_inj hm (hlength'.trans hlength.symm)).2
  calc m = Nat.ofDigitChars 10 (Nat.toDigits 10 m) 0 :=
        (Nat.ofDigitChars_toDigits (by decide) (by decide)).symm
    _ = Nat.ofDigitChars 10 (Nat.toDigits 10 n) 0 := by rw [htail]
    _ = n := Nat.ofDigitChars_toDigits (by decide) (by decide)

/-! ### Lower case twice -/

/-- Whether a row has none of the characters from `lo` to `hi`, or of every second one of them if
they are sparse. -/
def misses (lo hi : Nat) (sparse : Bool) (row : Nat × Nat × Nat × Int) : Bool :=
  Nat.blt hi row.1 || Nat.blt row.2.1 lo ||
    sparse && Nat.beq row.2.2.1 2 && Nat.beq ((lo + row.1) % 2) 1

/-- Whether the images of a row are small letters of the alphabet, or have no other lower-case form
themselves. The dotted capital I has one that is not in the table. -/
def isFinal (row : Nat × Nat × Nat × Int) : Bool :=
  match (row.1 : Int) + row.2.2.2, (row.2.1 : Int) + row.2.2.2 with
  | .ofNat lo, .ofNat hi => Nat.blt hi 128 ||
    (('İ'.toNat, 'İ'.toNat, 1, 0) :: lowerRows).all
      (misses lo hi (Nat.beq row.2.2.1 2 || Nat.beq row.1 row.2.1))
  | _, _ => false

theorem lowerRows_final : lowerRows.all isFinal = true := by decide +kernel

theorem not_covers_of_misses {lo hi m : Nat} {sparse : Bool} {row : Nat × Nat × Nat × Int}
    (h : misses lo hi sparse row = true) (hlo : lo ≤ m) (hhi : m ≤ hi)
    (hsparse : sparse = true → (m - lo) % 2 = 0) :
    ¬ (row.1 ≤ m ∧ m ≤ row.2.1 ∧ (m - row.1) % row.2.2.1 = 0) := by
  rintro ⟨hle, hge, hstep⟩
  simp only [misses, Bool.or_eq_true, Bool.and_eq_true, Nat.blt_eq, Nat.beq_eq] at h
  rcases h with (h | h) | ⟨⟨hs, htwo⟩, hodd⟩
  · omega
  · omega
  · have heven := hsparse hs
    rw [htwo] at hstep
    omega

/-- **What has come from the table is not changed by it**, nor is it the dotted capital I. -/
theorem mapRows_mapRows {n m : Nat} (h : mapRows lowerRows n = some m) :
    m.isValidChar ∧ 97 ≤ m ∧ (m < 128 ∨ m ≠ 'İ'.toNat ∧ mapRows lowerRows m = none) := by
  obtain ⟨⟨lo, hi, step, shift⟩, hfind, rfl⟩ := Option.map_eq_some_iff.mp h
  have hrow := List.mem_of_find?_eq_some hfind
  obtain ⟨hlow, hvalid⟩ := lowerRows_spec _ hrow
  have hrange := List.find?_some hfind
  simp only [Bool.and_eq_true, decide_eq_true_eq, beq_iff_eq] at hlow hvalid hrange
  obtain ⟨⟨hlo, hhi⟩, hstep⟩ := hrange
  dsimp only
  refine ⟨by unfold Nat.isValidChar; omega, by omega, ?_⟩
  have hfinal := List.all_eq_true.mp lowerRows_final _ hrow
  unfold isFinal at hfinal
  dsimp only at hfinal
  split at hfinal
  · next lo' hi' hlo' hhi' =>
    simp only [Int.ofNat_eq_natCast] at hlo' hhi'
    rcases Bool.or_eq_true_iff.mp hfinal with hascii | hmiss
    · exact .inl (by simp only [Nat.blt_eq] at hascii; omega)
    · rw [List.all_cons, Bool.and_eq_true, List.all_eq_true] at hmiss
      have hsparse : (Nat.beq step 2 || Nat.beq lo hi) = true →
          (((n : Int) + shift).toNat - lo') % 2 = 0 := by
        intro hs
        simp only [Bool.or_eq_true, Nat.beq_eq] at hs
        rcases hs with rfl | rfl <;> omega
      have hnot : ∀ row, misses lo' hi' (Nat.beq step 2 || Nat.beq lo hi) row = true → _ :=
        fun row hr => not_covers_of_misses hr (by omega) (by omega) hsparse
      refine .inr ⟨?_, ?_⟩
      · intro heq
        exact hnot _ hmiss.1 ⟨Nat.le_of_eq heq.symm, Nat.le_of_eq heq, Nat.mod_one _⟩
      · rw [mapRows, Option.map_eq_none_iff, List.find?_eq_none]
        rintro ⟨lo₂, hi₂, step₂, shift₂⟩ hmem hcovers
        simp only [Bool.and_eq_true, decide_eq_true_eq, beq_iff_eq] at hcovers
        exact hnot _ (hmiss.2 _ hmem) ⟨hcovers.1.1, hcovers.1.2, hcovers.2⟩
  · cases hfinal

/-- A character is in lower case, or has a lower-case form that is. -/
theorem lowerChar_cases (c : Char) : lowerChar c = c ∨
    lowerChar c ≠ 'İ' ∧ lowerChar (lowerChar c) = lowerChar c := by
  by_cases hascii : c.toNat < 128
  · have hall : ∀ n < 128, (Char.ofNat n).toLower ≠ 'İ' ∧
        lowerChar (Char.ofNat n).toLower = (Char.ofNat n).toLower := by decide
    have hself : lowerChar c = c.toLower := if_pos hascii
    have hc := hall c.toNat hascii
    rw [Char.ofNat_toNat] at hc
    rw [hself]
    exact .inr hc
  · cases hm : mapRows lowerRows c.toNat with
    | none =>
      unfold lowerChar
      rw [if_neg hascii, hm]
      exact .inl rfl
    | some m =>
      have hself : lowerChar c = Char.ofNat m := by
        unfold lowerChar
        rw [if_neg hascii, hm]
      obtain ⟨hvalid, hlow, hsmall⟩ := mapRows_mapRows hm
      have hcode : (Char.ofNat m).toNat = m := by
        rw [Char.ofNat, dif_pos hvalid]
        rfl
      rw [hself]
      refine .inr ⟨fun heq => ?_, ?_⟩
      · rw [heq] at hcode
        rcases hsmall with hsmall | ⟨hdotted, -⟩
        · rw [← hcode] at hsmall
          exact absurd hsmall (by decide)
        · exact hdotted hcode.symm
      · have hletters : ∀ n < 128, 97 ≤ n → (Char.ofNat n).toLower = Char.ofNat n := by decide
        unfold lowerChar
        rw [hcode]
        rcases hsmall with hsmall | ⟨-, hnone⟩
        · rw [if_pos hsmall, hletters m hsmall hlow]
        · rw [hnone]
          split
          · next hascii' => exact hletters m hascii' hlow
          · rfl

/-- A character that is its own lower-case form, wherever it stands. -/
def IsLower (d : Char) : Prop := ∀ before after, lowerIn before d after = [d]

/-- **The characters of a lower-case form** are their own lower-case forms, wherever they stand. -/
theorem isLower_of_mem_lowerIn {before after : List Char} {c d : Char}
    (h : d ∈ lowerIn before c after) : IsLower d := by
  have hform : ∀ d, d ≠ 'Σ' → d ≠ 'İ' → lowerChar d = d → IsLower d := by
    intro d hsigma hdotted hself before after
    rw [lowerIn, if_neg hsigma, if_neg hdotted, hself]
  unfold lowerIn at h
  split at h
  · have hsigma : d = 'ς' ∨ d = 'σ' := by
      split at h
      · exact .inl (List.mem_singleton.mp h)
      · exact .inr (List.mem_singleton.mp h)
    rcases hsigma with rfl | rfl <;> exact hform _ (by decide) (by decide) (by decide +kernel)
  · next hsigma =>
    split at h
    · have hpair : d = 'i' ∨ d = '\u0307' := by simpa using h
      rcases hpair with rfl | rfl <;> exact hform _ (by decide) (by decide) (by decide +kernel)
    · next hdotted =>
      obtain rfl := List.mem_singleton.mp h
      rcases lowerChar_cases c with hself | ⟨hdotted', hself⟩
      · rw [hself]
        exact hform c hsigma hdotted hself
      · refine hform _ (fun heq => ?_) hdotted' hself
        rw [heq] at hself
        exact absurd hself (by decide +kernel)

theorem lower_eq_self {s : String} (h : ∀ d ∈ s.toList, IsLower d) : lower s = s := by
  have hself : ∀ (cs before : List Char), (∀ d ∈ cs, IsLower d) → lowerAfter before cs = cs := by
    intro cs
    induction cs with
    | nil => exact fun _ _ => rfl
    | cons c cs ih =>
      intro before h
      rw [lowerAfter, h c List.mem_cons_self, ih _ fun d hd => h d (List.mem_cons_of_mem _ hd)]
      rfl
  rw [lower, hself _ _ h, String.ofList_toList]

theorem isLower_of_mem_lower {s : String} {d : Char} (h : d ∈ (lower s).toList) : IsLower d := by
  have hchars : ∀ (cs before : List Char), d ∈ lowerAfter before cs → IsLower d := by
    intro cs
    induction cs with
    | nil =>
      intro before hd
      cases hd
    | cons c cs ih =>
      intro before hd
      rcases List.mem_append.mp hd with hd | hd
      · exact isLower_of_mem_lowerIn hd
      · exact ih _ hd
  rw [lower, String.toList_ofList] at h
  exact hchars _ _ h

/-- **Lower case is final**, also without dots. -/
theorem lower_undotted_lower (s : String) :
    lower (Name.undotted (lower s)) = Name.undotted (lower s) := by
  refine lower_eq_self fun d hd => ?_
  rw [Name.undotted, String.toList_ofList] at hd
  obtain ⟨c, hc, hd⟩ := List.mem_flatMap.mp hd
  split at hd
  · have hline : d = '_' := by simpa using hd
    subst hline
    exact fun before after => (lowerIn_eq (by decide) before after).trans (by decide)
  · obtain rfl := List.mem_singleton.mp hd
    exact isLower_of_mem_lower hc

/-! ### Sigmas and dots -/

/-- A sigma stays one of two small sigmas. -/
theorem sigma_mem_lowerAfter {cs : List Char} (h : 'Σ' ∈ cs) (before : List Char) :
    'σ' ∈ lowerAfter before cs ∨ 'ς' ∈ lowerAfter before cs := by
  induction cs generalizing before with
  | nil => cases h
  | cons c cs ih =>
    simp only [lowerAfter, List.mem_append]
    rcases List.mem_cons.mp h with rfl | h
    · have hforms : lowerIn before 'Σ' cs = ['ς'] ∨ lowerIn before 'Σ' cs = ['σ'] := by
        unfold lowerIn
        rw [if_pos rfl]
        split
        · exact .inl rfl
        · exact .inr rfl
      rcases hforms with hform | hform <;> simp [hform]
    · exact (ih h (c :: before)).imp .inr .inr

/-- A text without a sigma is put into lower case character by character. -/
theorem lowerAfter_eq_flatMap {cs : List Char} (h : 'Σ' ∉ cs) (before : List Char) :
    lowerAfter before cs = cs.flatMap fun c => lowerIn [] c [] := by
  induction cs generalizing before with
  | nil => rfl
  | cons c cs ih =>
    rw [lowerAfter, List.flatMap_cons, ih (fun hc => h (List.mem_cons_of_mem _ hc)),
      lowerIn_eq fun hc => h (hc ▸ List.mem_cons_self)]

/-- **A name in which no small sigma stands** for a capital one. -/
def NoSigma (v : String) : Prop := 'σ' ∉ v.toList ∧ 'ς' ∉ v.toList

instance (v : String) : Decidable (NoSigma v) := inferInstanceAs (Decidable (_ ∧ _))

/-- **Dots can be written as underscores before or after**, when there is no sigma. -/
theorem lower_undotted {name : String} (h : NoSigma (lower name)) :
    lower (Name.undotted name) = Name.undotted (lower name) := by
  have hsigma : 'Σ' ∉ name.toList := by
    intro hmem
    have hsmall := sigma_mem_lowerAfter hmem []
    simp only [NoSigma, lower, String.toList_ofList] at h
    exact hsmall.elim h.1 h.2
  have hundotted : 'Σ' ∉ replaceChar '.' ['_', '_'] name.toList := by
    intro hmem
    obtain ⟨c, hc, hin⟩ := List.mem_flatMap.mp hmem
    split at hin
    · revert hin
      decide
    · exact hsigma (List.mem_singleton.mp hin ▸ hc)
  simp only [lower, Name.undotted, String.toList_ofList]
  rw [lowerAfter_eq_flatMap hsigma, lowerAfter_eq_flatMap hundotted]
  simp only [replaceChar, List.flatMap_assoc]
  congr 1
  refine List.flatMap_congr fun c _ => ?_
  by_cases hdot : c = '.'
  · subst hdot
    decide
  · -- No other character has a dot in its lower-case form.
    rw [if_neg hdot]
    have hnone : ∀ d ∈ lowerIn [] c [], d ≠ '.' := by
      rintro d hd rfl
      exact hdot (eq_of_mem_lowerIn hd (by decide))
    have hself : ∀ ds : List Char, (∀ d ∈ ds, d ≠ '.') →
        (ds.flatMap fun d => if d = '.' then ['_', '_'] else [d]) = ds := by
      intro ds hds
      induction ds with
      | nil => rfl
      | cons d ds ih =>
        rw [List.flatMap_cons, if_neg (hds d List.mem_cons_self),
          ih fun d' hd' => hds d' (List.mem_cons_of_mem _ hd')]
        rfl
    rw [hself _ hnone]
    simp

/-! ### Letters of the alphabet -/

/-- What holds of every capital letter of the alphabet with its small letter, and of every character
with itself, holds of every character with its small letter. -/
theorem toLower_cases {P : Char → Char → Prop}
    (hcapital : ∀ n < 26, P (Char.ofNat (65 + n)) (Char.ofNat (65 + n)).toLower)
    (hself : ∀ c, P c c) (c : Char) : P c c.toLower := by
  by_cases h : 65 ≤ c.toNat ∧ c.toNat ≤ 90
  · have hc := hcapital (c.toNat - 65) (by omega)
    rwa [Nat.add_sub_cancel' h.1, Char.ofNat_toNat] at hc
  · have hlower : c.toLower = c := dif_neg h
    rw [hlower]
    exact hself c

theorem isCased_toLower (c : Char) : isCased c.toLower = isCased c :=
  toLower_cases (P := fun c d => isCased d = isCased c) (by decide +kernel) (fun _ => rfl) c

/-- A case context looks through no letter of the alphabet. -/
theorem caseIgnorable_letter {n : Nat} (h : 65 ≤ n ∧ n ≤ 90 ∨ 97 ≤ n ∧ n ≤ 122) :
    inRows caseIgnorableRows n = false := by
  have hrows : ∀ row ∈ caseIgnorableRows, row.2 < 65 ∨ 90 < row.1 ∧ row.2 < 97 ∨ 122 < row.1 := by
    decide +kernel
  refine List.any_eq_false.mpr fun row hrow => ?_
  have hletter := hrows row hrow
  simp only [Bool.and_eq_true, decide_eq_true_eq]
  omega

theorem isCaseIgnorable_toLower (c : Char) : isCaseIgnorable c.toLower = isCaseIgnorable c := by
  refine toLower_cases (P := fun c d => isCaseIgnorable d = isCaseIgnorable c) ?_ (fun _ => rfl) c
  intro n hn
  have hcodes : (Char.ofNat (65 + n)).toNat = 65 + n ∧
      (Char.ofNat (65 + n)).toLower.toNat = 97 + n := by
    revert n
    decide +kernel
  rw [isCaseIgnorable, isCaseIgnorable, hcodes.1, hcodes.2, caseIgnorable_letter (by omega),
    caseIgnorable_letter (by omega)]

theorem meetsCased_toLower (cs : List Char) : meetsCased (cs.map Char.toLower) = meetsCased cs := by
  induction cs with
  | nil => rfl
  | cons c cs ih =>
    unfold meetsCased at ih ⊢
    rw [List.map_cons, List.dropWhile_cons, List.dropWhile_cons, isCaseIgnorable_toLower]
    cases isCaseIgnorable c with
    | true => exact ih
    | false => exact isCased_toLower c

theorem lowerIn_toLower (before : List Char) (c : Char) (after : List Char) :
    lowerIn (before.map Char.toLower) c.toLower (after.map Char.toLower) =
      lowerIn before c after := by
  refine toLower_cases (P := fun c d => lowerIn (before.map Char.toLower) d
    (after.map Char.toLower) = lowerIn before c after) ?_ ?_ c
  · intro n hn
    have hc : (Char.ofNat (65 + n)).toLower ≠ 'Σ' ∧ Char.ofNat (65 + n) ≠ 'Σ' ∧
        (Char.ofNat (65 + n)).toLower ≠ 'İ' ∧ Char.ofNat (65 + n) ≠ 'İ' ∧
        lowerChar (Char.ofNat (65 + n)).toLower = lowerChar (Char.ofNat (65 + n)) := by
      revert n
      decide +kernel
    simp only [lowerIn, hc, if_false]
  · intro c
    unfold lowerIn
    rw [meetsCased_toLower, meetsCased_toLower]

theorem lowerAfter_toLower (before cs : List Char) :
    lowerAfter (before.map Char.toLower) (cs.map Char.toLower) = lowerAfter before cs := by
  induction cs generalizing before with
  | nil => rfl
  | cons c cs ih =>
    have hrest := ih (c :: before)
    rw [List.map_cons] at hrest
    rw [List.map_cons, lowerAfter, lowerAfter, lowerIn_toLower, hrest]

theorem toList_toLower (s : String) : s.toLower.toList = s.toList.map Char.toLower :=
  String.toList_map

/-- **Small and capital letters of the alphabet have one lower-case form.** -/
theorem lower_toLower (s : String) : lower s.toLower = lower s := by
  unfold lower
  rw [toList_toLower]
  exact congrArg String.ofList (lowerAfter_toLower [] s.toList)

theorem toLower_append (s t : String) : (s ++ t).toLower = s.toLower ++ t.toLower := by
  rw [← String.toList_inj]
  simp [toList_toLower]

end FlatScript.Text

namespace FlatScript

/-- A sigil is no letter. -/
theorem Sigil.split_toLower (name : String) :
    Sigil.split name.toLower = ((Sigil.split name).1, (Sigil.split name).2.toLower) := by
  have hsigil : ∀ c : Char, Sigil.ofChar? c.toLower = Sigil.ofChar? c :=
    Text.toLower_cases (P := fun c d => Sigil.ofChar? d = Sigil.ofChar? c) (by decide) fun _ => rfl
  unfold Sigil.split
  rw [Text.toList_toLower]
  cases name.toList with
  | nil => rfl
  | cons c rest =>
    simp only [List.map_cons, hsigil]
    cases Sigil.ofChar? c with
    | none => rfl
    | some sigil => simp [← String.toList_inj, Text.toList_toLower]

/-- A name under namespaces keeps its letters. -/
theorem Name.toLower_qualified {name name' : String} (namespaces : List String)
    (h : name'.toLower = name.toLower) :
    (Name.qualified namespaces name').toLower = (Name.qualified namespaces name).toLower := by
  have hsplit := Sigil.split_toLower name'
  rw [h, Sigil.split_toLower] at hsplit
  unfold Name.qualified
  split
  · exact h
  · rcases hs : Sigil.split name with ⟨sigil, bare⟩
    rcases hs' : Sigil.split name' with ⟨sigil', bare'⟩
    rw [hs, hs'] at hsplit
    obtain ⟨rfl, hbare⟩ := Prod.mk.inj hsplit
    cases sigil with
    | none => simp only [Text.toLower_append, hbare]
    | some sigil => simp only [Text.toLower_append, hbare]

end FlatScript
