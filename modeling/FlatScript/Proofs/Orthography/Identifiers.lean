import FlatScript.Proofs.Orthography.Passes
import FlatScript.Proofs.Writing.Numbers
import FlatScript.Proofs.Writing.Tokens

/-!
# Names that are written as identifiers

A name of a source is made of letters, digits, underscores and dots, and no step puts anything else
into it. So once the dots are gone, a name behind a sigil is an identifier, and so is a name without
one, if it starts with no digit and is no keyword.

What is called without a sigil may have lost one: the name of a variable that is passed for a
function, or the name of a property. So nothing is known of the first characters of such names.

* `FlatScript.identifierNames` is the orthography.
* `FlatScript.Token.obeys_identifierNames`: the tokens of a text obey it.
* `FlatScript.identifierNames_stays`: what passes do to names is allowed.
* `FlatScript.isToken_reference`: such a name without dots is an identifier.
-/

namespace FlatScript

open Scan (continuesName startsName isDigit starts)

/-! ### Names -/

/-- Whether a character may stand in a name. -/
def namesChar (c : Char) : Bool := continuesName c || c == '.'

/-- **A name of letters, digits, underscores and dots.** -/
structure Wordy (name : String) : Prop where
  nonempty : name.toList ≠ []
  chars : ∀ c ∈ name.toList, namesChar c = true

/-- **A name that needs no sigil**: it starts with no digit and is no keyword. -/
structure Sigilless (name : String) : Prop where
  start : starts (fun c => !isDigit c) name.toList = true
  keyword : '.' ∉ name.toList → Keyword.ofSpelling? name = none

theorem wordy_iff {name : String} :
    Wordy name ↔ name.toList.isEmpty = false ∧ name.toList.all namesChar = true := by
  rw [List.isEmpty_eq_false_iff, List.all_eq_true]
  exact ⟨fun h => ⟨h.nonempty, h.chars⟩, fun h => ⟨h.1, h.2⟩⟩

theorem sigilless_iff {name : String} : Sigilless name ↔
    starts (fun c => !isDigit c) name.toList = true ∧
      ('.' ∉ name.toList → Keyword.ofSpelling? name = none) :=
  ⟨fun h => ⟨h.start, h.keyword⟩, fun h => ⟨h.1, h.2⟩⟩

instance (name : String) : Decidable (Wordy name) := decidable_of_iff _ wordy_iff.symm

instance (name : String) : Decidable (Sigilless name) := decidable_of_iff _ sigilless_iff.symm

/-- **Names that are written as identifiers.** -/
def identifierNames : Orthography where
  reference sigil name := Wordy name ∧ (sigil = none → Sigilless name)
  callee _ := Wordy
  declared := Wordy
  title _ := True
  family := Wordy
  string := IsToken .string
  raw _ := False
  word := IsToken .identifier
  placed := True

/-- **Namespaces of the characters of names**, the outermost of which starts with no digit. -/
structure WordyPrefix (namespaces : List String) : Prop where
  chars : ∀ ns ∈ namespaces, ∀ c ∈ ns.toList, namesChar c = true
  outermost : ∀ ns ∈ namespaces.head?, starts (fun c => !isDigit c) (ns ++ ".").toList = true

theorem wordyPrefix_iff {namespaces : List String} : WordyPrefix namespaces ↔
    namespaces.all (fun ns => ns.toList.all namesChar) = true ∧
      namespaces.head?.all (fun ns => starts (fun c => !isDigit c) (ns ++ ".").toList) = true := by
  simp only [List.all_eq_true, Option.all_eq_true]
  exact ⟨fun h => ⟨h.chars, h.outermost⟩, fun h => ⟨h.1, h.2⟩⟩

instance (namespaces : List String) : Decidable (WordyPrefix namespaces) :=
  decidable_of_iff _ wordyPrefix_iff.symm

/-- **Every line stands under such namespaces.** -/
def Lines.WordyNamespaces (lines : Lines) : Prop := ∀ n, WordyPrefix (lines.info n).namespaces

/-! ### Characters of names -/

theorem ofChar?_of_namesChar {c : Char} (h : namesChar c = true) : Sigil.ofChar? c = none := by
  unfold Sigil.ofChar?
  split <;> first | rfl | exact absurd h (by decide)

/-- No keyword has an underscore. -/
theorem Keyword.ofSpelling?_of_underscore {text : String} (h : '_' ∈ text.toList) :
    ofSpelling? text = none := by
  refine List.find?_eq_none.mpr fun k _ heq => ?_
  rw [← eq_of_beq heq] at h
  revert h
  cases k <;> decide

section Names

variable {name text : String} {namespaces : List String}

/-- Such a name has no sigil in front. -/
theorem Wordy.split (h : Wordy name) : Sigil.split name = (none, name) := by
  unfold Sigil.split
  split
  · rfl
  · next c rest hlist =>
    rw [ofChar?_of_namesChar (h.chars c (by simp [hlist]))]

theorem Wordy.append (h : Wordy name) (ht : ∀ c ∈ text.toList, namesChar c = true) :
    Wordy (name ++ text) := by
  refine ⟨?_, ?_⟩
  · rw [String.toList_append]
    exact fun hnil => h.nonempty (List.append_eq_nil_iff.mp hnil).1
  · rw [String.toList_append, List.forall_mem_append]
    exact ⟨h.chars, ht⟩

/-- More may stand behind a name if that is no name by itself. -/
theorem Sigilless.append (h : Sigilless name) (ht : text = "" ∨ '.' ∈ text.toList) :
    Sigilless (name ++ text) := by
  refine ⟨?_, fun hdot => ?_⟩
  · have hstart := h.start
    rw [String.toList_append]
    cases hlist : name.toList with
    | nil =>
      rw [hlist] at hstart
      cases hstart
    | cons c rest =>
      rw [hlist] at hstart
      exact hstart
  · rw [String.toList_append, List.mem_append, not_or] at hdot
    rcases ht with rfl | ht
    · rw [String.append_empty]
      exact h.keyword hdot.1
    · exact absurd ht hdot.2

/-- The last part of a name. -/
theorem Wordy.lastPart (h : Wordy name) : ∀ c ∈ (Name.lastPart name).toList, namesChar c = true := by
  rw [Name.lastPart, String.toList_ofList]
  exact fun c hc => h.chars c ((List.dropWhile_suffix _).subset hc)

theorem lastPart_cases (name : String) :
    Name.lastPart name = "" ∨ '.' ∈ (Name.lastPart name).toList := by
  rw [Name.lastPart, String.toList_ofList]
  cases hdrop : name.toList.dropWhile (· ≠ '.') with
  | nil => exact .inl rfl
  | cons c rest =>
    have hhead := List.head?_dropWhile_not (· ≠ '.') name.toList
    rw [hdrop] at hhead
    have hc : c = '.' := by simpa using hhead
    exact .inr (by simp [hc])

/-- Namespaces with dots between them. -/
theorem namesChar_chain (h : ∀ ns ∈ namespaces, ∀ c ∈ ns.toList, namesChar c = true) :
    ∀ c ∈ (".".intercalate namespaces).toList, namesChar c = true := by
  induction namespaces with
  | nil => simp
  | cons ns namespaces ih =>
    rw [List.forall_mem_cons] at h
    cases namespaces with
    | nil => simpa using h.1
    | cons ns' namespaces =>
      rw [String.intercalate_cons_cons, String.toList_append, String.toList_append]
      simp only [List.forall_mem_append]
      exact ⟨⟨h.1, List.all_eq_true.mp (by decide)⟩, ih h.2⟩

theorem Wordy.qualified_eq (h : Wordy name) (hne : namespaces ≠ []) :
    Name.qualified namespaces name = ".".intercalate namespaces ++ ("." ++ name) := by
  have hempty : ¬ namespaces.isEmpty = true := by simpa using hne
  rw [Name.qualified, if_neg hempty, h.split]
  exact String.append_assoc

theorem Wordy.qualified (h : Wordy name)
    (hn : ∀ ns ∈ namespaces, ∀ c ∈ ns.toList, namesChar c = true) :
    Wordy (Name.qualified namespaces name) := by
  by_cases hne : namespaces = []
  · subst hne
    exact h
  · rw [h.qualified_eq hne]
    refine ⟨by simp [String.toList_append], ?_⟩
    simp only [String.toList_append, List.forall_mem_append]
    exact ⟨namesChar_chain hn, List.all_eq_true.mp (by decide), h.chars⟩

theorem Sigilless.qualified (hw : Wordy name) (h : Sigilless name)
    (hn : ∀ ns ∈ namespaces.head?, starts (fun c => !isDigit c) (ns ++ ".").toList = true) :
    Sigilless (Name.qualified namespaces name) := by
  cases namespaces with
  | nil => exact h
  | cons ns namespaces =>
    have hfirst := hn ns rfl
    rw [hw.qualified_eq (List.cons_ne_nil _ _)]
    refine ⟨?_, fun hdot => absurd ?_ hdot⟩
    · have hfront : ∃ rest, (".".intercalate (ns :: namespaces) ++ ("." ++ name)).toList =
          (ns ++ ".").toList ++ rest := by
        cases namespaces with
        | nil => exact ⟨name.toList, by simp [String.toList_append]⟩
        | cons ns' namespaces =>
          refine ⟨(".".intercalate (ns' :: namespaces) ++ ("." ++ name)).toList, ?_⟩
          rw [String.intercalate_cons_cons]
          simp [String.toList_append]
      obtain ⟨rest, hrest⟩ := hfront
      rw [hrest]
      cases hlist : (ns ++ ".").toList with
      | nil => simp [String.toList_append] at hlist
      | cons c cs =>
        rw [hlist] at hfirst
        exact hfirst
    · simp [String.toList_append]

/-! ### Names without dots -/

theorem mem_undotted {c : Char} (h : c ∈ (Name.undotted name).toList) :
    c = '_' ∨ c ∈ name.toList := by
  simp only [Name.undotted, String.toList_ofList, Text.replaceChar, List.mem_flatMap] at h
  obtain ⟨d, hd, hc⟩ := h
  split at hc
  · exact .inl (by simpa using hc)
  · exact .inr (List.mem_singleton.mp hc ▸ hd)

theorem Wordy.undotted (h : Wordy name) : Wordy (Name.undotted name) := by
  refine ⟨?_, fun c hc => ?_⟩
  · obtain ⟨c, rest, hlist⟩ := List.exists_cons_of_ne_nil h.nonempty
    rw [Name.undotted, String.toList_ofList, hlist, Text.replaceChar, List.flatMap_cons]
    split <;> simp
  · rcases mem_undotted hc with rfl | hc
    · decide
    · exact h.chars c hc

/-- Without dots there are none to take away. -/
theorem undotted_of_notMem (h : '.' ∉ name.toList) : Name.undotted name = name := by
  rw [Name.undotted, Text.replaceChar, ← String.toList_inj, String.toList_ofList]
  generalize name.toList = cs at h
  induction cs with
  | nil => rfl
  | cons c cs ih =>
    rw [List.mem_cons, not_or] at h
    rw [List.flatMap_cons, ih h.2, if_neg (Ne.symm h.1)]
    rfl

/-- A dot leaves underscores. -/
theorem underscore_mem_undotted (h : '.' ∈ name.toList) : '_' ∈ (Name.undotted name).toList := by
  rw [Name.undotted, String.toList_ofList, Text.replaceChar, List.mem_flatMap]
  exact ⟨'.', h, by simp⟩

theorem Sigilless.undotted (h : Sigilless name) : Sigilless (Name.undotted name) := by
  refine ⟨?_, fun _ => ?_⟩
  · have hstart := h.start
    rw [Name.undotted, String.toList_ofList]
    cases hlist : name.toList with
    | nil =>
      rw [hlist] at hstart
      cases hstart
    | cons c rest =>
      rw [hlist] at hstart
      rw [Text.replaceChar, List.flatMap_cons]
      split
      · rfl
      · exact hstart
  · by_cases hdot : '.' ∈ name.toList
    · exact Keyword.ofSpelling?_of_underscore (underscore_mem_undotted hdot)
    · rw [undotted_of_notMem hdot]
      exact h.keyword hdot

end Names

/-! ### Tokens -/

namespace Scan

variable {cs xs : List Char}

theorem namesChar_of_continues {c : Char} (h : continuesName c = true) : namesChar c = true := by
  simp [namesChar, h]

theorem namesChar_take_run : ∀ c ∈ xs.take (run continuesName xs), namesChar c = true := by
  intro c hc
  rw [run, ← List.prefix_iff_eq_take.mp (List.takeWhile_prefix _)] at hc
  exact namesChar_of_continues (List.mem_takeWhile_imp hc)

theorem namesChar_take_dottedParts (xs : List Char) :
    ∀ c ∈ xs.take (dottedParts xs), namesChar c = true := by
  induction xs with
  | nil => simp
  | cons x xs ih =>
    unfold dottedParts
    split
    · next hx =>
      rw [Nat.add_comm, List.take_succ_cons, List.forall_mem_cons]
      exact ⟨namesChar_of_continues hx, ih⟩
    · split
      · next hdot =>
        simp only [Bool.and_eq_true, decide_eq_true_eq] at hdot
        rw [Nat.add_comm, List.take_succ_cons, List.forall_mem_cons, hdot.1.1]
        exact ⟨rfl, ih⟩
      · simp

/-- The characters of a name that fills a text, behind its sigil. -/
theorem namesChar_of_filled
    (h : run continuesName xs + dottedParts (xs.drop (run continuesName xs)) = xs.length) :
    ∀ c ∈ xs, namesChar c = true := by
  rw [← List.take_append_drop (run continuesName xs) xs, List.forall_mem_append]
  refine ⟨namesChar_take_run, ?_⟩
  have hdrop : (xs.drop (run continuesName xs)).length =
      dottedParts (xs.drop (run continuesName xs)) := by
    rw [List.length_drop]
    omega
  have hall := namesChar_take_dottedParts (xs.drop (run continuesName xs))
  rwa [← hdrop, List.take_length] at hall

/-- A name without dots has one part. -/
theorem dottedParts_of_notMem (h : '.' ∉ xs) :
    dottedParts (xs.drop (run continuesName xs)) = 0 := by
  have hdropWhile : xs.drop (run continuesName xs) = xs.dropWhile continuesName := by
    have hleft : (xs.takeWhile continuesName ++ xs.dropWhile continuesName).drop
        (xs.takeWhile continuesName).length = xs.dropWhile continuesName := List.drop_left
    rwa [List.takeWhile_append_dropWhile] at hleft
  have hhead := List.head?_dropWhile_not continuesName xs
  rw [hdropWhile]
  cases hdrop : xs.dropWhile continuesName with
  | nil => rfl
  | cons c rest =>
    rw [hdrop] at hhead
    have hstop : continuesName c = false := by simpa using hhead
    have hc : c ≠ '.' := by
      rintro rfl
      exact h ((List.dropWhile_suffix _).subset (hdrop ▸ List.mem_cons_self))
    simp [dottedParts, hstop, hc]

section Whole

variable {first : Char} {rest : List Char}
  (h : name (first :: rest) = ⟨.identifier, rest.length + 1, none⟩)

include h

/-- A text that is a name with a sigil. -/
theorem namesChar_behind_sigil {sigil : Sigil} (hsigil : Sigil.ofChar? first = some sigil) :
    ∀ c ∈ rest, namesChar c = true := by
  have hlength := congrArg Lexeme.length h
  simp only [name, starts, hsigil, Option.isSome_some, if_true, List.drop_succ_cons,
    List.drop_zero, Nat.add_comm 1] at hlength
  exact namesChar_of_filled (by omega)

/-- A text that is a name without one. -/
theorem sigilless_name (hsigil : Sigil.ofChar? first = none) :
    (∀ c ∈ first :: rest, namesChar c = true) ∧
      ('.' ∉ first :: rest → Keyword.ofSpelling? (String.ofList (first :: rest)) = none) := by
  have hbare : starts (fun c => (Sigil.ofChar? c).isSome) (first :: rest) = false := by
    simp [starts, hsigil]
  simp only [name, hbare, Bool.false_eq_true, if_false, List.drop_zero, Nat.zero_add,
    Lexeme.mk.injEq, and_true] at h
  obtain ⟨hkind, hfilled⟩ := h
  refine ⟨namesChar_of_filled hfilled, fun hdot => ?_⟩
  have hparts := dottedParts_of_notMem hdot
  rw [hparts, Nat.add_zero] at hfilled
  rw [hparts, hfilled, if_pos ⟨trivial, rfl⟩, ← List.length_cons, List.take_length] at hkind
  cases hkeyword : Keyword.ofSpelling? (String.ofList (first :: rest)) with
  | none => rfl
  | some k =>
    rw [hkeyword] at hkind
    cases hkind

end Whole

/-- A name of a text may be referred to. -/
theorem IsLexeme.reference {text : String} (h : IsLexeme .identifier text.toList) :
    FlatScript.identifierNames.reference (Sigil.split text).1 (Sigil.split text).2 := by
  obtain ⟨first, rest, hlist, hlex⟩ := h
  have hstart : startsWord first rest = true := startsWord_of_kind (by rw [hlex])
  rw [lexeme_eq_name hstart] at hlex
  unfold Sigil.split
  rw [hlist]
  dsimp only
  cases hsigil : Sigil.ofChar? first with
  | some sigil =>
    have hrest : rest ≠ [] := by
      rintro rfl
      have hfirst : startsName first = true := by simpa [startsWord, starts] using hstart
      have hnone := ofChar?_of_namesChar (c := first)
        (namesChar_of_continues (by simp [continuesName, hfirst]))
      rw [hsigil] at hnone
      cases hnone
    refine ⟨⟨?_, ?_⟩, by rintro ⟨⟩⟩
    · rwa [String.toList_ofList]
    · rw [String.toList_ofList]
      exact namesChar_behind_sigil hlex hsigil
  | none =>
    obtain ⟨hchars, hkeyword⟩ := sigilless_name hlex hsigil
    rw [← hlist] at hchars hkeyword
    rw [String.ofList_toList] at hkeyword
    refine ⟨⟨by simp [hlist], hchars⟩, fun _ => ⟨?_, hkeyword⟩⟩
    simp [hlist, starts, (startsWord_notMem hstart).2]

/-- **A name of a text is a name of any kind.** -/
theorem IsLexeme.identifierNames {text : String} (h : IsLexeme .identifier text.toList) :
    identifierNames.Names text :=
  have hreference := h.reference
  ⟨hreference, hreference.1, hreference.1, trivial, hreference.1, (isToken_iff (.inl rfl)).mpr h⟩

end Scan

/-- **The tokens of a text obey the orthography of identifiers.** -/
theorem Token.obeys_identifierNames {source : String} {t : Token} (ht : t ∈ (tokenize source).1) :
    t.Obeys identifierNames where
  name hkind := by
    have hlex := Scan.isLexeme_of_mem ht (.inl hkind)
    rw [hkind] at hlex
    exact hlex.identifierNames
  string hkind := by
    have htoken := isToken_of_mem ht (.inr hkind)
    rwa [hkind] at htoken

/-! ### Names of the passes -/

theorem wordy_unique {d : Declaration} {unique : String} (hname : Wordy d.name.name)
    (h : Lowering.isUnique d unique) : ∃ sigil, (Sigil.split unique).1 = some sigil ∧
      Wordy (Sigil.split unique).2 := by
  obtain ⟨symbols, rfl⟩ := h
  have hbase : Wordy ("_" ++ d.name.name) := by
    refine ⟨by simp [String.toList_append], ?_⟩
    rw [String.toList_append, List.forall_mem_append]
    exact ⟨List.all_eq_true.mp (by decide), hname.chars⟩
  have hdigits : ∀ n : Nat, ∀ c ∈ (toString n).toList, namesChar c = true := by
    intro n c hc
    have hdigit : isDigit c = true := by
      refine toDigits_isDigit n c ?_
      rw [← Nat.toList_repr]
      exact hc
    simp [namesChar, continuesName, hdigit]
  have hsplit : ∃ rest, Lowering.freshName symbols
      ((d.name.sigil.getD .integer).text ++ "_" ++ d.name.name) =
        (d.name.sigil.getD .integer).text ++ rest ∧ Wordy rest := by
    rcases Lowering.freshName_cases symbols
      ((d.name.sigil.getD .integer).text ++ "_" ++ d.name.name) with heq | ⟨n, heq⟩
    · exact ⟨_, by rw [heq, String.append_assoc], hbase⟩
    · refine ⟨_, ?_, hbase.append (hdigits n)⟩
      rw [heq]
      simp only [String.append_assoc]
  obtain ⟨rest, heq, hrest⟩ := hsplit
  rw [heq, Lowering.sigil_split_text]
  exact ⟨_, rfl, hrest⟩

/-- Letters of the alphabet for short names. -/
theorem Compaction.wordy_letters (n : Nat) : Wordy (String.ofList (letters 5 n)) := by
  have hletters := forall_letters (P := fun c => namesChar c = true) (by decide) 5 n
  refine ⟨?_, ?_⟩
  · rw [String.toList_ofList]
    exact List.cons_ne_nil _ _
  · rwa [String.toList_ofList]

/-- **Such names may stand under such namespaces.** -/
def identifierNames_under {lines : Lines} (hl : lines.WordyNamespaces) :
    identifierNames.Under lines where
  families fs := ∀ f ∈ fs, ∀ c ∈ f.toList, namesChar c = true
  nil := by simp
  namespaces n := (hl n).chars
  snoc hf h := by
    simp only [List.forall_mem_append, List.forall_mem_singleton]
    exact ⟨hf, h.chars⟩
  reference h := ⟨h.1.qualified (hl _).chars,
    fun hnone => (h.2 hnone).qualified h.1 (hl _).outermost⟩
  callee h := h.qualified (hl _).chars
  declared hf h := h.qualified hf
  title _ _ := trivial
  family hf h := h.qualified hf

/-- **What passes do to names keeps them identifiers.** -/
theorem identifierNames_stays : identifierNames.Stays where
  ownVariable := by
    have hall : ∀ text ∈ Orthography.ownVariables, Wordy (Sigil.split text).2 ∧
        ((Sigil.split text).1 = none → Sigilless (Sigil.split text).2) := by decide +kernel
    exact hall
  ownFunction := by
    have hall : ∀ text ∈ Orthography.ownFunctions, Wordy (Sigil.split text).2 := by decide +kernel
    exact hall
  valueToSet := trivial
  init := (by decide +kernel : IsToken .identifier "init")
  renamed h hunique := by
    obtain ⟨sigil, hsigil, hwordy⟩ := wordy_unique h hunique
    refine ⟨⟨hwordy, fun hnone => ?_⟩, hwordy⟩
    rw [hsigil] at hnone
    cases hnone
  accessor _ _ := trivial
  synonym _ _ := trivial
  getter {_ name suffix} h hsuffix := by
    have hsuffix' : ∀ c ∈ suffix.toList, namesChar c = true := by
      rcases hsuffix with rfl | rfl <;> exact List.all_eq_true.mp (by decide)
    have hwordy : Wordy (name ++ suffix) := h.1.append hsuffix'
    rw [hwordy.split]
    exact hwordy
  called h := h.1
  sigil h := ⟨h.1, nofun⟩
  merged {s _ s' _} h hrep := by
    refine ⟨hrep.1.append h.1.lastPart, fun hnone => ?_⟩
    obtain rfl : s' = none := by
      cases s' with
      | none => rfl
      | some _ => cases hnone
    exact (hrep.2 rfl).append (lastPart_cases _)
  mergedCallee h hrep := hrep.1.append (Wordy.lastPart h)
  undotted h := ⟨h.1.undotted, fun hnone => (h.2 hnone).undotted⟩
  undottedCallee h := Wordy.undotted h
  undottedDeclared h := Wordy.undotted h
  undottedTitle h := h
  short _ n := ⟨Compaction.wordy_letters n, nofun⟩
  shortDeclared := Compaction.wordy_letters

/-! ### Identifiers -/

/-- A name without dots is one run of the characters of names. -/
theorem Wordy.run_eq {name : String} (h : Wordy name) (hdot : '.' ∉ name.toList) :
    starts continuesName name.toList = true ∧
      Scan.run continuesName name.toList = name.toList.length := by
  have hall : ∀ c ∈ name.toList, continuesName c = true := by
    intro c hc
    have hchar := h.chars c hc
    simp only [namesChar, Bool.or_eq_true, beq_iff_eq] at hchar
    exact hchar.resolve_right fun heq => hdot (heq ▸ hc)
  refine ⟨?_, by rw [Scan.run, List.takeWhile_eq_self_iff.mpr hall]⟩
  obtain ⟨c, rest, hlist⟩ := List.exists_cons_of_ne_nil h.nonempty
  rw [hlist]
  exact hall c (by simp [hlist])

/-- Behind a sigil every such name is an identifier. -/
theorem Wordy.isToken_sigil {name : String} (h : Wordy name) (hdot : '.' ∉ name.toList)
    (sigil : Sigil) : IsToken .identifier (sigil.text ++ name) := by
  obtain ⟨hstarts, hrun⟩ := h.run_eq hdot
  rw [isToken_iff (.inl rfl)]
  refine ⟨sigil.toChar, name.toList, by simp [Sigil.text, String.toList_append], ?_⟩
  rw [Scan.lexeme_eq_name (by simp [Scan.startsWord, hstarts])]
  simp [Scan.name, starts, Nat.add_comm 1, hrun, Scan.dottedParts]

/-- A name that needs no sigil is an identifier by itself. -/
theorem Wordy.isToken_bare {name : String} (h : Wordy name) (hbare : Sigilless name)
    (hdot : '.' ∉ name.toList) : IsToken .identifier name := by
  obtain ⟨hstarts, hrun⟩ := h.run_eq hdot
  have hkeyword := hbare.keyword hdot
  have hstart := hbare.start
  rw [isToken_iff (.inl rfl)]
  obtain ⟨first, rest, hlist⟩ := List.exists_cons_of_ne_nil h.nonempty
  have hsigil := ofChar?_of_namesChar (h.chars first (by simp [hlist]))
  have hname : startsName first = true := by
    rw [hlist] at hstarts hstart
    simpa [starts, continuesName, show isDigit first = false by simpa [starts] using hstart]
      using hstarts
  refine ⟨first, rest, hlist, ?_⟩
  rw [Scan.lexeme_eq_name (by simp [Scan.startsWord, hname]), ← hlist]
  have hbare : starts (fun c => (Sigil.ofChar? c).isSome) name.toList = false := by
    simp [hlist, starts, hsigil]
  simp [Scan.name, hbare, hrun, Scan.dottedParts, hkeyword]
  simp [hlist]

/-- **A variable without dots is an identifier.** -/
theorem isToken_reference {i : Ident} (h : identifierNames.reference i.sigil i.name)
    (hdot : i.Dotless) : IsToken .identifier i.full := by
  unfold Ident.Dotless Ident.full at hdot
  unfold Ident.full
  split
  · next sigil hsigil =>
    rw [hsigil, String.toList_append, List.mem_append, not_or] at hdot
    exact h.1.isToken_sigil hdot.2 sigil
  · next hnone =>
    rw [hnone] at hdot
    exact h.1.isToken_bare (h.2 hnone) hdot

end FlatScript
